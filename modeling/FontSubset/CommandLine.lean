import FontSubset.CommandLine.Program
import FontSubset.Provided.Face.Parser
import FontSubset.Provided.Json.Job
import FontSubset.Provided.Script
import FontSubset.Provided.Zlib
import FontSubset.Workspace

/-!
# The command line in a workspace

A workspace with some input is a system that the program can run on.
-/

namespace FontSubset

namespace CommandLine

/-- A workspace, and what the program has been given and has printed there. -/
structure Session where
  workspace : Workspace
  input : Bytes
  printed : String
  errors : String

namespace Session

def start (workspace : Workspace) (input : Bytes) : Session :=
  ⟨workspace, input, "", ""⟩

def writeFile (s : Session) (path : String) (data : Bytes) : Except String Unit × Session :=
  match s.workspace.write path data with
  | .ok workspace => (.ok (), { s with workspace })
  | .error fault => (.error fault.message, s)

def host : Host (StateM Session) where
  readFile path := return ((← get).workspace.read path).mapError FileFault.message
  writeFile path data := modifyGet fun s => s.writeFile path data
  readInput := return .ok (← get).input
  print text := modify fun s => { s with printed := s.printed ++ text }
  printError text := modify fun s => { s with errors := s.errors ++ text }

end Session

/-- The program in a workspace. -/
def runIn [JobFormat] [FaceParser] [ScriptTable] [Pdf.Compressor] (s : Session)
    (arguments : List String) : UInt8 × Session :=
  (run Session.host arguments).run s

end CommandLine

end FontSubset
