import FontSubset.Embedding.FontUse
import FontSubset.Job.Format

/-!
# Jobs

A job names a font, a text to be shown with it and further glyphs, and says how the font is to be
embedded.
-/

namespace FontSubset

structure Job where
  /-- The name of the font file; a number behind a comma picks a member of a collection. -/
  font : String
  text : String
  glyphs : List GlyphId
  /-- Whether a subset is to be embedded or the whole font. -/
  asSubset : Bool
  options : SubsetOptions
  deriving DecidableEq

/-- What comes of a job: the bytes that show its text, and the font to be embedded. -/
structure JobOutput where
  content : Bytes
  embedding : Embedding

/-- The options of which some are given; the others are off. -/
def OptionFields.toOptions (o : OptionFields) : SubsetOptions :=
  ⟨o.characterMap.getD false, o.extended.getD false⟩

namespace Job

/-! ## Reading and writing -/

def keys : JobKeys where
  font := "font"
  text := "text"
  glyphs := "glyphs"
  asSubset := "subset"
  options := "options"
  characterMap := "includeCmap"
  extended := "includeExtendedTables"

/-- The job of which some members are given. -/
def ofFields (f : JobFields) : Job where
  font := f.font
  text := f.text.getD ""
  glyphs := f.glyphs.getD []
  asSubset := f.asSubset.getD true
  options := (f.options.map OptionFields.toOptions).getD .minimal

/-- All members of a job. -/
def fields (job : Job) : JobFields where
  font := job.font
  text := some job.text
  glyphs := some job.glyphs
  asSubset := some job.asSubset
  options := some ⟨some job.options.characterMap, some job.options.extended⟩

@[simp] theorem ofFields_fields (job : Job) : ofFields job.fields = job := rfl

/-- The job that a text describes. -/
def ofJson [JobFormat] (text : String) : Except FontError Job :=
  ((JobFormat.read keys text).map ofFields).mapError fun (fault, detail) =>
    .invalidJob fault detail

def toJson [JobFormat] (job : Job) : String :=
  JobFormat.write keys job.fields

/-! ## Running -/

/-- The path of the font file, and the member of a collection to be used. -/
def source (job : Job) : String × Option UInt32 :=
  Collection.splitName job.font

section
variable [ScriptTable]

/-- Runs a job with a font. -/
def runWith (job : Job) (font : Font) : Traced JobOutput := do
  let use ← Traced.ofLogged (FontUse.ofFont font job.asSubset job.options)
  let (content, use) ← Traced.ofLogged (use.write job.text)
  let use ← Traced.ofLogged (use.mark job.glyphs)
  return ⟨content, ← use.embed⟩

variable [FaceParser]

/-- Runs a job with the contents of its font file. -/
def runOn (job : Job) (data : Bytes) : Traced JobOutput := do
  let (path, index) := job.source
  Traced.report (.fontOpened path data.size)
  job.runWith (← Font.load data index)

/-- Runs a job, given a way to read files. -/
def runFrom (job : Job) (readFile : String → Except FontError Bytes) : Traced JobOutput := do
  job.runOn (← readFile job.source.1)

end

end Job

end FontSubset
