import FontSubset.Proofs.CharacterMap.Symbol
import FontSubset.Proofs.Shaping.Width
import FontSubset.Proofs.Shown.Dictionary
import FontSubset.Proofs.Text.Utf16
import FontSubset.Provided.Face.Parser
import FontSubset.Sample.Font

/-!
# Widths of characters

* `ShownFont.width_of_character_iff`: where codes are bytes, the text of a byte goes by its
  encoding and the width by its number. The two agree for a byte that is the number of its
  character, as long as no symbol subtable stands before the Unicode subtable.
-/

namespace FontSubset

namespace MacRoman

/-- The bytes that are the numbers of their characters. -/
def Fixed (b : UInt8) : Prop :=
  b < 0x80 ∨ b ∈ [0xA2, 0xA3, 0xA9, 0xB1, 0xB5]

instance (b : UInt8) : Decidable (Fixed b) :=
  inferInstanceAs (Decidable (_ ∨ _))

theorem val_eq_iff {b : UInt8} {c : Char} (found : char? b = some c) :
    c.val = b.toUInt32 ↔ Fixed b := by
  have each : ∀ n : Fin 256, (char? (UInt8.ofFin n)).all fun c =>
      c.val = (UInt8.ofFin n).toUInt32 ↔ Fixed (UInt8.ofFin n) := by
    decide +kernel
  have here := each b.toFin
  rw [UInt8.ofFin_toFin, found] at here
  exact of_decide_eq_true here

end MacRoman

namespace CharacterMaps

/-- The map that the codes of a text are looked up in. -/
def textMap (m : CharacterMaps) : Option GlyphMap :=
  m.unicodeFull.or (if m.fontSpecific then m.byteEncoding else m.unicode)

theorem lookup_byte (m : CharacterMaps) (byte : UInt8) :
    m.lookup byte.toUInt32 = m.textMap.bind (·[byte.toUInt32]?) := by
  rw [lookup, textMap]
  cases m.unicodeFull with
  | some full => rfl
  | none =>
    cases m.fontSpecific with
    | false => rfl
    | true => cases m.byteEncoding <;> simp [byteOf?_lowByte]

theorem textMap_of_unicodeMap {m : CharacterMaps} {map : GlyphMap}
    (unicode : m.unicodeMap = some map) (first : m.unicodeFull.isSome ∨ m.fontSpecific = false) :
    m.textMap = some map := by
  rw [unicodeMap] at unicode
  rw [textMap]
  cases full : m.unicodeFull with
  | some full' => rwa [full] at unicode
  | none =>
    rw [full] at unicode first
    rw [first.resolve_left (by simp)]
    exact unicode

end CharacterMaps

namespace ShownFont

section
variable {resources : Resources} {d : FontDictionary} {f : ShownFont} {font : Font} {byte : UInt8}

namespace Described
variable (described : Described resources d f) (single : d.encoding = .singleByte)
  (embedded : d.font = some font)
include described single embedded

/-- The encoding of the text: Mac Roman or Latin-1. -/
theorem text?_byte (unmapped : d.toUnicode = none) {c : Char} :
    f.text? byte.toUInt32 = some c.toString ↔
      (if font.characterMaps.macRoman then MacRoman.char? byte
        else some (Char.ofNat byte.toNat)) = some c := by
  have small : byte.toUInt32 < 0x100 := by
    simpa [UInt32.lt_iff_toNat_lt] using byte.toNat_lt
  rw [described.text?_of_singleByte single unmapped, map_toString_eq_some]
  simp [byteText?, small, described.font, embedded]

theorem val_of_text? (unmapped : d.toUnicode = none) {c : Char}
    (shown : f.text? byte.toUInt32 = some c.toString)
    (fixed : font.characterMaps.macRoman = true → MacRoman.Fixed byte) : c.val = byte.toUInt32 := by
  have text := (described.text?_byte single embedded unmapped).1 shown
  cases roman : font.characterMaps.macRoman with
  | true =>
    rw [roman] at text
    exact (MacRoman.val_eq_iff text).2 (fixed roman)
  | false =>
    rw [roman] at text
    obtain rfl := Option.some.inj text
    have valid : byte.toNat.isValidChar := .inl (Nat.lt_trans byte.toNat_lt (by decide))
    exact UInt32.toNat_inj.1 (Utf16.toNat_ofNat_of_valid valid)

theorem reportedWidth_byte (unlisted : ∀ entry ∈ d.widths, entry.1 ≠ byte.toUInt32) :
    f.reportedWidth byte.toUInt32 = (font.metric? byte.toUInt32).elim d.defaultWidth (·.width) := by
  rw [reportedWidth, described.getElem?_widths_eq_none unlisted, fontWidth?, described.font,
    embedded, described.encoding, single, described.defaultWidth]
  cases found : font.metric? byte.toUInt32 <;> simp [found]

/-- The width goes by the number of the byte. -/
theorem width_byte [FaceParser] {data : Bytes} {member : Option UInt32}
    (loaded : (Font.load data member).result = .ok font) (visible : byte ≠ 0x20)
    (unlisted : ∀ entry ∈ d.widths, entry.1 ≠ byte.toUInt32) : f.width byte.toUInt32 =
      (font.characterMaps.textMap.bind (·[byte.toUInt32]?)).elim d.defaultWidth
        (font.width ·.glyph) := by
  have other : f.spaceCode ≠ some byte.toUInt32 := by
    rw [spaceCode_singleByte (described.encoding.trans single)]
    intro space
    have same : (0x20 : UInt8).toUInt32 = byte.toUInt32 := Option.some.inj space
    exact visible (UInt8.toUInt32_inj.1 same).symm
  rw [width_of_ne_space other, described.reportedWidth_byte single embedded unlisted, Font.metric?,
    ← CharacterMaps.lookup_byte]
  cases found : font.characterMaps.lookup byte.toUInt32 with
  | none => rfl
  | some metric => exact Font.metric_of_load loaded found

end Described

/-- The width is that of the character's glyph if the byte is looked up with the same width. -/
theorem width_of_character_iff [FaceParser] {data : Bytes} {member : Option UInt32}
    (run : (ofDictionary resources d).result = .ok f) (single : d.encoding = .singleByte)
    (unmapped : d.toUnicode = none) (embedded : d.font = some font)
    (loaded : (Font.load data member).result = .ok font) (visible : byte ≠ 0x20)
    (unlisted : ∀ entry ∈ d.widths, entry.1 ≠ byte.toUInt32) {c : Char}
    (shown : f.text? byte.toUInt32 = some c.toString) {map : GlyphMap}
    (unicode : font.characterMaps.unicodeMap = some map) {metric : GlyphMetric}
    (mapped : map[c.val]? = some metric) :
    (f.width byte.toUInt32 = font.width metric.glyph ↔
      (font.characterMaps.textMap.bind (·[byte.toUInt32]?)).elim d.defaultWidth
        (font.width ·.glyph) = font.width metric.glyph) ∧
    (font.characterMaps.unicodeFull.isSome ∨ font.characterMaps.fontSpecific = false →
      (font.characterMaps.macRoman = true → MacRoman.Fixed byte) →
        f.width byte.toUInt32 = font.width metric.glyph) := by
  have width := (described run).width_byte single embedded loaded visible unlisted
  refine ⟨by rw [width], fun first fixed => ?_⟩
  have number := (described run).val_of_text? single embedded unmapped shown fixed
  rw [width, CharacterMaps.textMap_of_unicodeMap unicode first, ← number, Option.bind_some, mapped]
  rfl

end

/-- Two signs are bytes of Mac Roman, of which only the first is the number of its sign. -/
def signsFont : Bytes :=
  Sample.joined [Sample.fields32 [0x00010000, 0x00050040, 0x00020010],
    Sample.fields32 [Tag.characterMap.code, 0, 92, 46],
    Sample.fields32 [Tag.header.code, 0, 140, 54],
    Sample.fields32 [Tag.horizontalHeader.code, 0, 196, 36],
    Sample.fields32 [Tag.horizontalMetrics.code, 0, 232, 12],
    Sample.fields32 [Tag.profile.code, 0, 244, 32],
    Sample.characterMap [(1, 0, Sample.trimmedMap 0xA6 [2]), (3, 1, Sample.trimmedMap 0xB5 [1, 2])],
    Sample.zeros 2, Sample.header 1000 true, Sample.zeros 2, Sample.horizontalHeader 800 (-200) 3,
    Sample.horizontalMetrics [500, 600, 700] 3, Sample.profile 3]

def signsDictionary (font : Font) : FontDictionary :=
  ⟨.singleByte, none, none, some font, [], 0⟩

set_option maxRecDepth 20000 in
theorem signsFont_text : ((Font.load signsFont none).result >>= fun font =>
    (ofDictionary (fun _ => pure none) (signsDictionary font)).result.map fun f =>
      ([f.text? 0xB5, f.text? 0xA6],
        font.characterMaps.unicodeMap.map fun map => [map['µ'.val]?, map['¶'.val]?])) =
      .ok ([some "µ", some "¶"], some [some ⟨1, 600⟩, some ⟨2, 700⟩]) := by
  decide +kernel

set_option maxRecDepth 20000 in
theorem signsFont_lookup : (Font.load signsFont none).result.map (fun font =>
    (font.characterMaps.fontSpecific,
      font.characterMaps.textMap.bind (·[(0xA6 : UInt8).toUInt32]?), font.width 2)) =
      .ok (false, none, 700) := by
  decide +kernel

theorem width_of_character_iff_signs : ∃ font f, (Font.load signsFont none).result = .ok font ∧
    (ofDictionary (fun _ => pure none) (signsDictionary font)).result = .ok f ∧
      f.text? 0xB5 = some "µ" ∧ f.width 0xB5 = font.width 1 ∧
        f.text? 0xA6 = some "¶" ∧ f.width 0xA6 ≠ font.width 2 := by
  obtain ⟨font, loaded, built⟩ := bind_eq_ok.1 signsFont_text
  obtain ⟨f, run, found⟩ := map_eq_ok.1 built
  simp only [Prod.mk.injEq, List.cons.injEq, and_true, Option.map_eq_some_iff] at found
  obtain ⟨⟨micro, pilcrow⟩, map, unicode, micro', pilcrow'⟩ := found
  have lookup := signsFont_lookup
  simp only [loaded, Except.map, Except.ok.injEq, Prod.mk.injEq] at lookup
  obtain ⟨plain, missing, width⟩ := lookup
  have unlisted (code : UInt32) : ∀ entry ∈ (signsDictionary font).widths, entry.1 ≠ code :=
    fun _ mem => (List.not_mem_nil mem).elim
  refine ⟨font, f, loaded, run, micro, ?_, pilcrow, fun same => ?_⟩
  · have text : f.text? (0xB5 : UInt8).toUInt32 = some 'µ'.toString := micro
    obtain ⟨-, agree⟩ := width_of_character_iff run rfl rfl rfl loaded (by decide) (unlisted _) text
      unicode micro'
    exact agree (.inr plain) fun _ => by decide
  · have text : f.text? (0xA6 : UInt8).toUInt32 = some '¶'.toString := pilcrow
    obtain ⟨agree, -⟩ := width_of_character_iff run rfl rfl rfl loaded (by decide) (unlisted _) text
      unicode pilcrow'
    have zero := agree.1 same
    rw [missing, width] at zero
    change (0 : UInt32) = 700 at zero
    exact absurd zero (by decide)

end ShownFont

end FontSubset
