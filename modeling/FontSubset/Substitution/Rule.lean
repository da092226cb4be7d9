import FontSubset.Log
import FontSubset.Bytes

/-!
# Substitution rules

The substitution table lists the scripts that it serves and lookups, each with subtables that
replace glyphs. Two kinds of lookups matter here, single substitutions and ligatures; an extension
lookup wraps one of them. What they say is read as a list of rules, in the order of the table.
-/

namespace FontSubset

/-- A glyph that replaces a sequence of glyphs. -/
structure SubstitutionRule where
  glyph : GlyphId
  components : List GlyphId
  deriving DecidableEq

namespace Substitution

/-- A counted list of offsets at `pos`, as positions relative to `base`. -/
def positions (data : Bytes) (pos base : Nat) : Except FontError (List Nat) := do
  let count ← data.u16At pos
  let offsets ← data.u16sAt (pos + 2) count.toNat
  return offsets.map (base + ·.toNat)

/-- The tags of the script list at `pos`. -/
def readScripts (data : Bytes) (pos : Nat) : Except FontError (List Tag) := do
  let count ← data.u16At pos
  (List.range count.toNat).mapM fun i => data.tagAt (pos + 2 + 6 * i)

/-- The glyphs from `first` to `last`. -/
def glyphRange (first last : GlyphId) : List GlyphId :=
  (List.range (last.toNat + 1 - first.toNat)).map fun i => UInt16.ofNat (first.toNat + i)

/-- A range of glyphs in a coverage table. -/
def readRange (data : Bytes) (pos : Nat) : Except FontError (List GlyphId) := do
  let first ← data.u16At pos
  let last ← data.u16At (pos + 2)
  return glyphRange first last

/-- The glyphs of the coverage table at `pos`, which are listed one by one or as ranges. -/
def readCoverage (data : Bytes) (pos : Nat) : Traced (List GlyphId) := do
  let format ← data.u16At pos
  let count ← data.u16At (pos + 2)
  match format with
  | 1 => data.u16sAt (pos + 4) count.toNat
  | 2 =>
    let ranges ← (List.range count.toNat).mapM fun i => readRange data (pos + 4 + 6 * i)
    return ranges.flatten
  | _ =>
    Traced.report (.coverageFormatUnknown format)
    return []

/-- A single substitution replaces the glyphs of a coverage table, either by the glyphs at a fixed
distance or by those of a list. -/
def readSingle (data : Bytes) (pos : Nat) : Traced (List SubstitutionRule) := do
  let format ← data.u16At pos
  let coverage ← data.u16At (pos + 2)
  match format with
  | 1 =>
    let distance ← data.u16At (pos + 4)
    let covered ← readCoverage data (pos + coverage.toNat)
    return covered.map fun glyph => ⟨glyph + distance, [glyph]⟩
  | 2 =>
    let count ← data.u16At (pos + 4)
    let substitutes ← data.u16sAt (pos + 6) count.toNat
    let covered ← readCoverage data (pos + coverage.toNat)
    return List.zipWith (fun glyph substitute => ⟨substitute, [glyph]⟩) covered substitutes
  | _ =>
    Traced.report (.singleFormatUnknown format)
    return []

/-- A ligature of glyphs of which the first one is known. The count takes in the first one. -/
def readLigature (data : Bytes) (first : GlyphId) (pos : Nat) :
    Except FontError SubstitutionRule := do
  let glyph ← data.u16At pos
  let count ← data.u16At (pos + 2)
  let others ← data.u16sAt (pos + 4) (count.toNat - 1)
  return ⟨glyph, first :: others⟩

/-- The ligatures that begin with one glyph. -/
def readLigatureSet (data : Bytes) (first : GlyphId) (pos : Nat) :
    Except FontError (List SubstitutionRule) := do
  (← positions data pos pos).mapM (readLigature data first)

/-- A ligature substitution has a set of ligatures for each glyph of a coverage table. -/
def readLigatures (data : Bytes) (pos : Nat) : Traced (List SubstitutionRule) := do
  let format ← data.u16At pos
  if format = 1 then
    let coverage ← data.u16At (pos + 2)
    let sets ← positions data (pos + 4) pos
    let firsts ← readCoverage data (pos + coverage.toNat)
    let rules ← (firsts.zip sets).mapM fun (first, set) => readLigatureSet data first set
    return rules.flatten
  else
    Traced.report (.ligatureFormatUnknown format)
    return []

/-- The lookup type of an extension. -/
def extension : UInt16 := 7

/-- A subtable of a lookup that is no extension. -/
def readPlain (data : Bytes) (kind : UInt16) (pos : Nat) : Traced (List SubstitutionRule) :=
  match kind with
  | 1 => readSingle data pos
  | 4 => readLigatures data pos
  | _ => do
    Traced.report (.lookupUnused kind)
    return []

/-- A subtable of a lookup. An extension gives the kind of another subtable and where it lies; it
may not wrap a further extension. -/
def readSubtable (data : Bytes) (kind : UInt16) (pos : Nat) : Traced (List SubstitutionRule) := do
  if kind = extension then
    let wrapped ← data.u16At (pos + 2)
    let offset ← data.u32At (pos + 4)
    if wrapped = extension then
      Traced.report .nestedExtension
      return []
    else readPlain data wrapped (pos + offset.toNat)
  else readPlain data kind pos

def readLookup (data : Bytes) (pos : Nat) : Traced (List SubstitutionRule) := do
  let kind ← data.u16At pos
  let subtables ← positions data (pos + 4) pos
  Traced.collect (readSubtable data kind) subtables

/-- The rules of the lookup list at `pos`. -/
def readRules (data : Bytes) (pos : Nat) : Traced (List SubstitutionRule) := do
  let lookups ← positions data pos pos
  Traced.collect (readLookup data) lookups

end Substitution

end FontSubset
