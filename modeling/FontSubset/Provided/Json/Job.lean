import FontSubset.Job.Format
import FontSubset.Provided.Json.Record

/-!
# Jobs in JSON

Jobs are read from JSON records and written as JSON objects without white space.
-/

namespace FontSubset.Json

/-! ## Reading -/

def optionFields (keys : JobKeys) : List (Field OptionFields) := [
  ⟨keys.characterMap, (·.characterMap.isSome), fun o => do
    return { o with characterMap := some (← boolean) }⟩,
  ⟨keys.extended, (·.extended.isSome), fun o => do
    return { o with extended := some (← boolean) }⟩]

def readOptions (keys : JobKeys) : Reader OptionFields :=
  record (optionFields keys) ⟨none, none⟩ .ok

/-- The members of a job that have been read, of which the font may yet come. -/
structure PartialJob where
  font : Option String
  rest : JobFields

def jobFields (keys : JobKeys) : List (Field PartialJob) := [
  ⟨keys.font, (·.font.isSome), fun j => do return { j with font := some (← string) }⟩,
  ⟨keys.text, (·.rest.text.isSome), fun j => do
    return { j with rest.text := some (← string) }⟩,
  ⟨keys.glyphs, (·.rest.glyphs.isSome), fun j => do
    return { j with rest.glyphs := some (← array word16) }⟩,
  ⟨keys.asSubset, (·.rest.asSubset.isSome), fun j => do
    return { j with rest.asSubset := some (← boolean) }⟩,
  ⟨keys.options, (·.rest.options.isSome), fun j => do
    return { j with rest.options := some (← readOptions keys) }⟩]

def PartialJob.empty : PartialJob := ⟨none, "", none, none, none, none⟩

def PartialJob.finish (j : PartialJob) : Except JobFault JobFields :=
  match j.font with
  | none => .error .mismatch
  | some font => .ok { j.rest with font }

def jobReader (keys : JobKeys) : Reader JobFields := do
  let job ← record (jobFields keys) .empty PartialJob.finish
  expectEnd
  return job

/-- What is said about the fault of a text that is no job. -/
def faultDetail : JobFault → String
  | .malformed => "malformed JSON"
  | .mismatch => "not a job"
  | .truncated => "unexpected end of JSON"
  | .unreadable => "unreadable JSON"

/-! ## Writing -/

def written (key value : String) : String :=
  quote key ++ ":" ++ value

def object (members : List String) : String :=
  "\x7b" ++ ",".intercalate members ++ "\x7d"

/-- A member that may not be given. -/
def writtenIf (key : String) (value : Option String) : List String :=
  value.toList.map (written key)

def writeOptions (keys : JobKeys) (o : OptionFields) : String :=
  object (writtenIf keys.characterMap (o.characterMap.map toString) ++
    writtenIf keys.extended (o.extended.map toString))

def writeJob (keys : JobKeys) (f : JobFields) : String :=
  object (written keys.font (quote f.font) ::
    writtenIf keys.text (f.text.map quote) ++
    writtenIf keys.glyphs (f.glyphs.map fun l => "[" ++ ",".intercalate (l.map toString) ++ "]") ++
    writtenIf keys.asSubset (f.asSubset.map toString) ++
    writtenIf keys.options (f.options.map (writeOptions keys)))

instance jobFormat : JobFormat where
  read keys text := (run (jobReader keys) text).mapError fun fault => (fault, faultDetail fault)
  write := writeJob

end FontSubset.Json
