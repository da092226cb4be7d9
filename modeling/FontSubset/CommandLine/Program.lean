import FontSubset.Job
import FontSubset.Pdf.FontObjects
import FontSubset.Text.Utf8

/-!
# The command line

The program reads a job from a file or from its input, writes the font to be embedded to a file,
and on demand the PDF objects of the font to another one. `run` is the whole program over a
`Host`, which is the system that it runs on.
-/

namespace FontSubset

/-- What the program needs of the system. A file or the input that cannot be read or written is
described by a text. -/
structure Host (m : Type → Type) where
  readFile : String → m (Except String Bytes)
  writeFile : String → Bytes → m (Except String Unit)
  readInput : m (Except String Bytes)
  print : String → m Unit
  printError : String → m Unit

namespace CommandLine

/-- A job to start from. -/
def sampleJob : String := String.join [
  "\x7b\n",
  "  \"font\": \"fonts/NotoSans-Regular.ttf\",\n",
  "  \"text\": \"Invoice #INV-2026-001, Total due: $1,240.00\",\n",
  "  \"glyphs\": [],\n",
  "  \"subset\": true,\n",
  "  \"options\": \x7b\n",
  "    \"includeCmap\": false,\n",
  "    \"includeExtendedTables\": false\n",
  "  \x7d\n",
  "\x7d\n"]

/-- What the arguments ask for. -/
structure Request where
  /-- The file with the job; it is read from the input if there is none. -/
  jobFile : Option String
  fontFile : String
  objectsFile : Option String
  deriving DecidableEq

/-- The argument behind the first occurrence of a flag that is not the last argument. -/
def flagValue? (name : String) : List String → Option String
  | flag :: value :: rest => if flag = name then some value else flagValue? name (value :: rest)
  | _ => none

def Request.ofArguments (arguments : List String) : Request where
  jobFile := arguments.head?.filter fun first => first.toList.head? ≠ some '-'
  fontFile := (flagValue? "-o" arguments).getD "subset.ttf"
  objectsFile := flagValue? "--pdf-objects" arguments

/-- What is said about a text that is not UTF-8. -/
def invalidText : String := "stream did not contain valid UTF-8"

variable {m : Type → Type} [Monad m]

/-- A step that fails with an error of the library. -/
abbrev Action (m : Type → Type) := ExceptT FontError m

def attempt (x : m (Except String α)) : Action m α :=
  ExceptT.mk ((fun r => r.mapError FontError.inputOutput) <$> x)

/-- The text of the job, which must be UTF-8. -/
def readJob (host : Host m) (r : Request) : Action m String := do
  let data ← match r.jobFile with
    | some path => attempt (host.readFile path)
    | none => attempt host.readInput
  match Utf8.decode? data.toList with
  | some text => return String.ofList text
  | none => throw (.inputOutput invalidText)

variable [JobFormat] [FaceParser] [ScriptTable] [Pdf.Compressor]

/-- Runs a job with the font file that it names. -/
def runJob (host : Host m) (job : Job) : Action m JobOutput := do
  let data ← attempt (host.readFile job.source.1)
  ExceptT.mk (pure (job.runOn data).result)

/-- Writes the font to be embedded and its objects. -/
def writeOutput (host : Host m) (r : Request) (e : Embedding) : Action m Unit := do
  attempt (host.writeFile r.fontFile e.fontData)
  host.printError s!"✓ Written {e.fontData.size} bytes to {r.fontFile} ({e.fontName})\n"
  match r.objectsFile with
  | none => return ()
  | some path =>
    let objects := (Pdf.addFont .empty e).2
    attempt (host.writeFile path objects.toBytes)
    host.printError s!"✓ Written {objects.size} PDF objects to {path}\n"

def runRequest (host : Host m) (r : Request) : Action m Unit := do
  let text ← readJob host r
  let job ← (Job.ofJson text : Except FontError Job)
  let output ← runJob host job
  writeOutput host r output.embedding

/-- The program with its arguments; the result is its exit code. -/
def run (host : Host m) (arguments : List String) : m UInt8 := do
  if "--example" ∈ arguments then
    host.print sampleJob
    return 0
  match ← (runRequest host (.ofArguments arguments)).run with
  | .ok () => return 0
  | .error e =>
    host.printError s!"✗ {e.message}\n"
    return 1

end CommandLine

end FontSubset
