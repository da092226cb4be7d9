import FontSubset.Error
import FontSubset.Sample.Bytes

/-!
# Sample substitutions

Subtables for single glyphs and for ligatures, extensions, and a table with one script and one
feature to which all lookups belong.
-/

namespace FontSubset.Sample

def count16 (items : List α) : UInt16 :=
  UInt16.ofNat items.length

/-- A coverage table that lists its glyphs. -/
def coverage (glyphs : List GlyphId) : Bytes :=
  fields16 ([1, count16 glyphs] ++ glyphs)

/-- A counted list of offsets, and the parts that they lead to; `before` bytes and the count come
first. -/
def offsetList (before : Nat) (parts : List Bytes) : Bytes :=
  fields16 (count16 parts :: offsets16 (before + 2 + 2 * parts.length) parts) ++
    Bytes.concat parts

/-- A ligature of components, which do not include the first one. -/
def ligature (glyph : GlyphId) (others : List GlyphId) : Bytes :=
  fields16 ([glyph, UInt16.ofNat (others.length + 1)] ++ others)

/-- Rules by the first of their components. -/
def byFirst (rules : List (List GlyphId × GlyphId)) : List (GlyphId × List Bytes) :=
  let firsts := (rules.filterMap fun (components, _) => components.head?).mergeSort.eraseReps
  firsts.map fun first =>
    (first, (rules.filter fun (components, _) => components.head? = some first).map
      fun (components, glyph) => ligature glyph (components.drop 1))

/-- A ligature substitution of rules, each of which replaces components by a glyph. -/
def ligatureSubtable (rules : List (List GlyphId × GlyphId)) : Bytes :=
  let sets := (byFirst rules).map fun (_, ligatures) => offsetList 0 ligatures
  let body := offsetList 4 sets
  Bytes.concat [fields16 [1, 4 + size16 body], body,
    coverage ((byFirst rules).map Prod.fst)]

/-- A single substitution of pairs, which are sorted. -/
def singleSubtable (pairs : List (GlyphId × GlyphId)) : Bytes :=
  let sorted := pairs.mergeSort fun a b => a.1 < b.1 ∨ (a.1 = b.1 ∧ a.2 ≤ b.2)
  let count := count16 sorted
  fields16 ([2, 6 + 2 * count, count] ++ sorted.map Prod.snd) ++ coverage (sorted.map Prod.fst)

/-- A subtable wrapped into an extension. -/
def extensionSubtable (kind : UInt16) (subtable : Bytes) : Bytes :=
  Bytes.concat [fields16 [1, kind], be32 8, subtable]

/-- A lookup of a kind with its subtables. -/
def lookup (kind : UInt16) (subtables : List Bytes) : Bytes :=
  fields16 [kind, 0] ++ offsetList 4 subtables

/-- A script with nothing but a default language, which has the only feature. -/
def scriptList (script : Tag) : Bytes :=
  Bytes.concat [fields16 [1], be32 script.code, fields16 [8, 4, 0, 0, 0xFFFF, 1, 0]]

/-- A feature of so many lookups. -/
def featureList (count : Nat) : Bytes :=
  Bytes.concat [fields16 [1], be32 (Tag.ofChars 'l' 'i' 'g' 'a').code,
    fields16 ([8, 0, UInt16.ofNat count] ++ (List.range count).map UInt16.ofNat)]

/-- A substitution table of lookups, each with its kind and its subtables. -/
def substitutionTable (script : Tag) (lookups : List (UInt16 × List Bytes)) : Bytes :=
  let parts := [scriptList script, featureList lookups.length,
    offsetList 0 (lookups.map fun (kind, subtables) => lookup kind subtables)]
  Bytes.concat (be32 0x00010000 :: fields16 (offsets16 10 parts) :: parts)

end FontSubset.Sample
