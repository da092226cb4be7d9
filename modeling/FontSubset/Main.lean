import FontSubset.CommandLine

/-!
# The program

The command line on the system that the program is started on.
-/

namespace FontSubset

/-- The result of an action, or what is wrong with it. -/
def tryIO (x : IO α) : IO (Except String α) := do
  try return .ok (← x) catch e => return .error (toString e)

/-- Reads a stream to its end. -/
partial def readAll (stream : IO.FS.Stream) (data : ByteArray) : IO ByteArray := do
  let chunk ← stream.read 65536
  if chunk.isEmpty then return data else readAll stream (data ++ chunk)

def systemHost : Host IO where
  readFile path := tryIO do return (← IO.FS.readBinFile path).data
  writeFile path data := tryIO (IO.FS.writeBinFile path ⟨data⟩)
  readInput := tryIO do return (← readAll (← IO.getStdin) .empty).data
  print text := IO.print text
  printError text := IO.eprint text

end FontSubset

def main (arguments : List String) : IO UInt32 := do
  return (← FontSubset.CommandLine.run FontSubset.systemHost arguments).toUInt32
