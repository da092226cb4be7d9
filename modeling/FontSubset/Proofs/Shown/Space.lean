import FontSubset.Proofs.CharacterMap.Inverse
import FontSubset.Proofs.Shown.Character

/-!
# Widths of spaces

* `ShownFont.width_of_space_iff`: a space without a width gets the average width if it is the code
  that a search for a space finds. The search looks at the map to text and, if it has no space, at
  the embedded font; the texts of a collection and codes that stand for themselves are passed over.
-/

namespace FontSubset

namespace ShownFont

/-! ## The search for a space -/

/-- The texts are searched in the order of their codes. -/
theorem least_of_mappedSpace? {m : CodeMap} {code : UInt32} (first : mappedSpace? m = some code) :
    m.text? code = some " " ∧ ∀ other, m.text? other = some " " → code ≤ other := by
  obtain ⟨⟨code, text⟩, found, rfl⟩ := Option.map_eq_some_iff.1 first
  obtain rfl : text = " " := by simpa using List.find?_some found
  have mem := List.mem_of_find?_eq_some found
  refine ⟨Std.TreeMap.mem_toList_iff_getElem?_eq_some.1 mem, fun other space => ?_⟩
  have mem' := Std.TreeMap.mem_toList_iff_getElem?_eq_some.2 space
  rcases rel_of_find? (pairwise_toList m.texts) found mem' (decide_eq_true rfl) with same | less
  · exact UInt32.le_of_eq (Prod.mk.inj same).1.symm
  · exact UInt32.le_of_lt less

theorem mappedSpace?_eq_none_iff {m : CodeMap} :
    mappedSpace? m = none ↔ ∀ code, m.text? code ≠ some " " := by
  simp only [mappedSpace?, Option.map_eq_none_iff, List.find?_eq_none, decide_eq_true_eq,
    Prod.forall, Std.TreeMap.mem_toList_iff_getElem?_eq_some]
  constructor
  · intro bare code space
    exact bare code " " space rfl
  · rintro bare code _ space rfl
    exact bare code space

theorem mappedSpace?_eq_some_iff {m : CodeMap} {code : UInt32} : mappedSpace? m = some code ↔
    m.text? code = some " " ∧ ∀ other, m.text? other = some " " → code ≤ other := by
  refine ⟨least_of_mappedSpace?, fun ⟨space, least⟩ => ?_⟩
  cases found : mappedSpace? m with
  | none => exact absurd space (mappedSpace?_eq_none_iff.1 found code)
  | some first =>
    obtain ⟨space', least'⟩ := least_of_mappedSpace? found
    exact congrArg some (UInt32.le_antisymm (least' code space) (least first space'))

/-- The code is one that the search for a space leads to. -/
inductive FoundAsSpace (f : ShownFont) : UInt32 → Prop
  | byte : f.encoding = .singleByte → FoundAsSpace f 0x20
  | mapped {map : CodeMap} {code : UInt32} : f.encoding = .identity → f.toUnicode = some map →
      map.text? code = some " " → (∀ other, map.text? other = some " " → code ≤ other) →
        FoundAsSpace f code
  | embedded {font : Font} {metric : GlyphMetric} : f.encoding = .identity →
      (∀ map, f.toUnicode = some map → ∀ other, map.text? other ≠ some " ") →
        f.font = some font → font.metric? 0x20 = some metric →
          FoundAsSpace f metric.glyph.toUInt32

section
variable {f : ShownFont} {code : UInt32}

theorem spaceCode_eq_some_iff : f.spaceCode = some code ↔ f.FoundAsSpace code := by
  constructor
  · intro space
    cases encoding : f.encoding with
    | singleByte =>
      rw [spaceCode_singleByte encoding] at space
      cases space
      exact .byte encoding
    | identity =>
      rw [spaceCode_identity encoding, Option.or_eq_some_iff, Option.bind_eq_some_iff,
        Option.bind_eq_none_iff] at space
      obtain ⟨map, known, space⟩ | ⟨unmapped, space⟩ := space
      · obtain ⟨space, least⟩ := mappedSpace?_eq_some_iff.1 space
        exact .mapped encoding known space least
      · obtain ⟨metric, found, rfl⟩ := Option.map_eq_some_iff.1 space
        obtain ⟨font, embedded, found⟩ := Option.bind_eq_some_iff.1 found
        exact .embedded encoding (fun map known => mappedSpace?_eq_none_iff.1 (unmapped map known))
          embedded found
  · intro found
    cases found with
    | byte encoding => exact spaceCode_singleByte encoding
    | mapped encoding known space least =>
      rw [spaceCode_identity encoding, known, Option.bind_some,
        mappedSpace?_eq_some_iff.2 ⟨space, least⟩]
      rfl
    | embedded encoding unmapped embedded found =>
      rw [spaceCode_identity encoding, embedded, Option.bind_some, found, Option.bind_eq_none_iff.2
        fun map known => mappedSpace?_eq_none_iff.2 (unmapped map known)]
      rfl

theorem width_of_spaceCode (space : f.spaceCode = some code) (unreported : f.reportedWidth code = 0)
    (average : f.averageWidth ≠ 0) : f.width code = f.averageWidth := by
  have fallback : f.spaceWidth = f.averageWidth := by
    refine spaceWidth_of_unreported fun other same => ?_
    rw [space, Option.some.injEq] at same
    rw [← same, unreported]
  rw [width, if_pos space, fallback, if_pos average]

/-! ## Codes whose text is a space -/

/-- Both Mac Roman and Latin-1 have one space. -/
theorem eq_of_byteText? (space : f.byteText? code = some ' ') : code = 0x20 := by
  rw [byteText?] at space
  by_cases small : code < 0x100
  · have less : code.toNat < 256 := UInt32.lt_iff_toNat_lt.1 small
    rw [if_pos small] at space
    split at space
    · have each : ∀ n : Fin 256, MacRoman.char? (UInt8.ofFin n) = some ' ' → n = 0x20 := by
        decide +kernel
      have byte : code.toUInt8.toNat = 0x20 := congrArg Fin.val (each code.toUInt8.toFin space)
      rw [UInt32.toNat_toUInt8, Nat.mod_eq_of_lt less] at byte
      exact UInt32.toNat_inj.1 byte
    · have number := congrArg Char.toNat (Option.some.inj space)
      rw [Utf16.toNat_ofNat_of_valid (.inl (Nat.lt_trans less (by decide)))] at number
      exact UInt32.toNat_inj.1 number
  · rw [if_neg small] at space
    cases space

/-- What the Unicode map has for the space is found, unless symbols are looked up first. -/
theorem foundAsSpace_of_inverse {font : Font} {glyph : GlyphId} (identity : f.encoding = .identity)
    (unmapped : f.toUnicode = none) (embedded : f.font = some font)
    (first : font.characterMaps.unicodeFull.isSome ∨ font.characterMaps.fontSpecific = false)
    (inverse : font.characterMaps.glyphToUnicode[glyph]? = some 0x20) :
    f.FoundAsSpace glyph.toUInt32 := by
  obtain ⟨⟨map, metric, unicode, mapped, rfl⟩, -⟩ := CharacterMaps.glyphToUnicode_eq_some.1 inverse
  refine .embedded identity (by simp [unmapped]) embedded ?_
  exact (CharacterMaps.lookup_of_unicodeMap unicode first 0x20).trans mapped

theorem glyphOf?_toUInt32 (glyph : GlyphId) : glyphOf? glyph.toUInt32 = some glyph := by
  have small : glyph.toUInt32 < 0x10000 := UInt32.lt_iff_toNat_lt.2 glyph.toNat_lt
  rw [glyphOf?, if_pos small, UInt16.toUInt16_toUInt32]

end

section
variable {resources : Resources} {d : FontDictionary} {f : ShownFont} {code : UInt32}
  (run : (ofDictionary resources d).result = .ok f) (shown : f.text? code = some " ")
include run shown

theorem foundAsSpace_of_singleByte (single : d.encoding = .singleByte)
    (unmapped : d.toUnicode = none) : f.FoundAsSpace code := by
  rw [(described run).text?_of_singleByte single unmapped] at shown
  have space : f.byteText? code = some ' ' := map_toString_eq_some.1 shown
  obtain rfl := eq_of_byteText? space
  exact .byte ((described run).encoding.trans single)

theorem foundAsSpace_of_embedded (identity : d.encoding = .identity) (unmapped : d.toUnicode = none)
    (apart : d.collection = none) {font : Font} (embedded : d.font = some font)
    (first : font.characterMaps.unicodeFull.isSome ∨ font.characterMaps.fontSpecific = false)
    {glyph : GlyphId} (drawn : glyph.toUInt32 = code)
    (mapped : (font.characterMaps.glyphToUnicode[glyph]?).isSome) : f.FoundAsSpace code := by
  have described := described run
  have toUnicode := described.toUnicode_eq_none unmapped
  have encoding := described.encoding.trans identity
  have codes : f.glyphCodes = font.characterMaps.glyphToUnicode := by
    rw [described.glyphCodes, embeddedCodes, if_pos identity, embedded]
    rfl
  obtain ⟨number, inverse⟩ := Option.isSome_iff_exists.1 mapped
  have text : f.text? code = (Text.scalar? number).map Char.toString := by
    rw [text?, toUnicode, described.cidTexts_eq_none (.inr (.inr apart)), encoding, ← drawn,
      glyphText?, glyphOf?_toUInt32, Option.bind_eq_bind, Option.bind_some, codes, inverse]
    rfl
  have space : Text.scalar? number = some ' ' := map_toString_eq_some.1 (text.symm.trans shown)
  obtain rfl := Text.scalar?_eq_some_iff.1 space
  rw [← drawn]
  exact foundAsSpace_of_inverse encoding toUnicode (described.font.trans embedded) first inverse

/-- A space whose width is zero gets the average just when the search for a space finds its code,
as it does where bytes or the embedded font say that the code is a space. -/
theorem width_of_space_iff (unreported : f.reportedWidth code = 0) (average : f.averageWidth ≠ 0) :
    (f.width code = f.averageWidth ↔ f.FoundAsSpace code) ∧
    (¬ f.FoundAsSpace code → f.width code = 0) ∧
    (d.encoding = .singleByte → d.toUnicode = none → f.FoundAsSpace code) ∧
    (d.encoding = .identity → d.toUnicode = none → d.collection = none → ∀ font, d.font = some font →
      font.characterMaps.unicodeFull.isSome ∨ font.characterMaps.fontSpecific = false →
        ∀ glyph : GlyphId, glyph.toUInt32 = code →
          (font.characterMaps.glyphToUnicode[glyph]?).isSome → f.FoundAsSpace code) := by
  have missed (other : ¬ f.FoundAsSpace code) : f.width code = 0 := by
    rw [width_of_ne_space (fun space => other (spaceCode_eq_some_iff.1 space)), unreported]
  refine ⟨⟨fun same => ?_, fun found => ?_⟩, missed, foundAsSpace_of_singleByte run shown, ?_⟩
  · by_contra other
    exact average (same.symm.trans (missed other))
  · exact width_of_spaceCode (spaceCode_eq_some_iff.2 found) unreported average
  · intro identity unmapped apart font embedded first glyph drawn mapped
    exact foundAsSpace_of_embedded run shown identity unmapped apart embedded first drawn mapped

end

/-- Of the collection only the code of its space is known. -/
def collectedSpace : Resources := fun name =>
  return if name = "UniJIS-UCS2-H" then some (.ofText "1 begincidchar <0020> 1 endcidchar") else none

def collectedDictionary : FontDictionary :=
  ⟨.identity, none, some ⟨"Adobe", "Japan1"⟩, none, [(1, 0), (2, 600)], 1000⟩

/-- A map to text with two spaces. -/
def spacesDictionary : FontDictionary :=
  ⟨.identity, some (.ofText "2 beginbfchar <0003> <0020> <0005> <0020> endbfchar"), none, none,
    [(3, 0), (5, 0), (6, 600)], 1000⟩

set_option maxRecDepth 20000 in
theorem collectedDictionary_built : (ofDictionary collectedSpace collectedDictionary).result.map
    (fun f => (f.text? 1, f.reportedWidth 1, f.averageWidth, f.spaceCode)) =
      .ok (some " ", 0, 600, none) := by
  decide +kernel

set_option maxRecDepth 20000 in
theorem spacesDictionary_built : (ofDictionary collectedSpace spacesDictionary).result.map
    (fun f => ([f.text? 3, f.text? 5], [f.reportedWidth 3, f.reportedWidth 5], f.averageWidth,
      f.spaceCode)) = .ok ([some " ", some " "], [0, 0], 600, some 3) := by
  decide +kernel

theorem width_of_space_iff_collected :
    (∃ f, (ofDictionary collectedSpace collectedDictionary).result = .ok f ∧
      f.text? 1 = some " " ∧ f.averageWidth = 600 ∧ f.width 1 = 0) ∧
    ∃ f, (ofDictionary collectedSpace spacesDictionary).result = .ok f ∧
      f.text? 3 = some " " ∧ f.width 3 = f.averageWidth ∧ f.text? 5 = some " " ∧ f.width 5 = 0 := by
  constructor
  · obtain ⟨f, run, found⟩ := map_eq_ok.1 collectedDictionary_built
    simp only [Prod.mk.injEq] at found
    obtain ⟨shown, unreported, average, space⟩ := found
    obtain ⟨-, missed, -, -⟩ := width_of_space_iff run shown unreported (by rw [average]; decide)
    refine ⟨f, run, shown, average, missed fun found => ?_⟩
    rw [← spaceCode_eq_some_iff, space] at found
    cases found
  · obtain ⟨f, run, found⟩ := map_eq_ok.1 spacesDictionary_built
    simp only [Prod.mk.injEq, List.cons.injEq, and_true] at found
    obtain ⟨⟨least, other⟩, ⟨unreported, unreported'⟩, average, space⟩ := found
    have positive : f.averageWidth ≠ 0 := by rw [average]; decide
    obtain ⟨reached, -, -, -⟩ := width_of_space_iff run least unreported positive
    obtain ⟨-, missed, -, -⟩ := width_of_space_iff run other unreported' positive
    refine ⟨f, run, least, reached.2 (spaceCode_eq_some_iff.1 space), other, missed fun found => ?_⟩
    rw [← spaceCode_eq_some_iff, space] at found
    exact absurd found (by decide)

end ShownFont

end FontSubset
