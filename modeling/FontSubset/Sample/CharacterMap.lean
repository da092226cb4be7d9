import FontSubset.Error
import FontSubset.Sample.Bytes

/-!
# Sample character maps

Subtables of the four formats, and the table that lists them.
-/

namespace FontSubset.Sample

/-- A character map of subtables, each with its platform and its encoding. -/
def characterMap (records : List (UInt16 × UInt16 × Bytes)) : Bytes :=
  let bodies := records.map fun (_, _, body) => body
  let places := offsets (4 + 8 * records.length) bodies
  let heads := List.zipWith (fun (platform, encoding, _) place =>
    fields16 [platform, encoding] ++ be32 (UInt32.ofNat place)) records places
  Bytes.concat (fields16 [0, UInt16.ofNat records.length] :: heads ++ bodies)

/-- Format 0: the glyphs of single bytes; of several glyphs for one byte the last one counts. -/
def byteArrayMap (map : List (UInt8 × UInt8)) : Bytes :=
  fields16 [0, 262, 0] ++ map.foldl (fun (glyphs : Bytes) (code, glyph) =>
    glyphs.setIfInBounds code.toNat glyph) (zeros 256)

/-- Format 6: the glyphs of consecutive codes. -/
def trimmedMap (first : UInt16) (glyphs : List GlyphId) : Bytes :=
  let count := UInt16.ofNat glyphs.length
  fields16 ([6, 10 + 2 * count, 0, first, count] ++ glyphs)

/-- Format 12: groups of consecutive codes from a first to a last one, with their first glyph. -/
def groupMap (groups : List (UInt32 × UInt32 × UInt32)) : Bytes :=
  let count := UInt32.ofNat groups.length
  Bytes.concat [fields16 [12, 0], fields32 [16 + 12 * count, 0, count],
    fields32 (groups.flatMap fun (first, last, glyph) => [first, last, glyph])]

/-- Consecutive codes with a glyph each. -/
structure Run where
  first : UInt16
  last : UInt16
  glyphs : List GlyphId

/-- Adds a code to the runs, of which the latest one comes first. -/
def addToRuns (runs : List Run) (code : UInt16) (glyph : GlyphId) : List Run :=
  match runs with
  | run :: rest =>
    if code = run.last + 1 then ⟨run.first, code, run.glyphs ++ [glyph]⟩ :: rest
    else ⟨code, code, [glyph]⟩ :: runs
  | [] => [⟨code, code, [glyph]⟩]

/-- The runs of a map in order, and the one that marks their end. -/
def runsOf (map : List (UInt16 × GlyphId)) : List Run :=
  let sorted := map.mergeSort fun a b => a.1 ≤ b.1
  (sorted.foldl (fun runs (code, glyph) => addToRuns runs code glyph) []).reverse ++
    [⟨0xFFFF, 0xFFFF, [0]⟩]

/-- The delta, the range offset and the glyphs of the glyph array for each run. A single code is
reached by its delta, several codes by the glyph array, of which `used` glyphs are taken. -/
def runFields (used : Nat) : List Run → List (UInt16 × UInt16 × List GlyphId)
  | [] => []
  | run :: rest =>
    if run.first = 0xFFFF then (1, 0, []) :: runFields used rest
    else match run.glyphs with
      | [glyph] => (glyph - run.first, 0, []) :: runFields used rest
      | glyphs =>
        let left := UInt16.ofNat (rest.length + 1)
        (0, (left + UInt16.ofNat used) * 2, glyphs) :: runFields (used + glyphs.length) rest

/-- Format 4: glyphs of codes, with a segment for each run of consecutive codes. -/
def segmentMap (map : List (UInt16 × GlyphId)) : Bytes :=
  let runs := runsOf map
  let parts := runFields 0 runs
  let glyphs := parts.flatMap fun (_, _, glyphs) => glyphs
  let count := UInt16.ofNat runs.length
  let range := (1 <<< selector count) * 2
  let length := UInt16.ofNat (16 + 8 * runs.length + 2 * glyphs.length)
  Bytes.concat [
    fields16 [4, length, 0, count * 2, range, selector count, count * 2 - range],
    fields16 (runs.map (·.last)),
    fields16 [0],
    fields16 (runs.map (·.first)),
    fields16 (parts.map fun (delta, _, _) => delta),
    fields16 (parts.map fun (_, offset, _) => offset),
    fields16 glyphs]

end FontSubset.Sample
