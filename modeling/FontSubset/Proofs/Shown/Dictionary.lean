import FontSubset.Proofs.Result
import FontSubset.Proofs.TableEntries
import FontSubset.ShownFont

/-!
# Fonts of a dictionary

* `ShownFont.described`: a font that has been built is what its dictionary says, with the map to
  text and the texts of the collection as they are read.
* `ShownFont.result_with_widths`: whether a font is built does not depend on the widths.
-/

namespace FontSubset.ShownFont

/-- The character of each glyph, which is looked at only where codes are glyphs. -/
def embeddedCodes (d : FontDictionary) : Std.TreeMap GlyphId UInt32 :=
  if d.encoding = .identity then d.font.elim ∅ (·.characterMaps.glyphToUnicode) else ∅

/-- `f` is what the dictionary says. -/
structure Described (resources : Resources) (d : FontDictionary) (f : ShownFont) : Prop where
  encoding : f.encoding = d.encoding
  mapped : Option.Rel (fun data map => (CodeMap.read data).result = .ok map) d.toUnicode f.toUnicode
  collected : (loadCidTexts resources d).result = .ok f.cidTexts
  font : f.font = d.font
  widths : f.widths = d.widths.foldl (fun widths entry => widths.insert entry.1 entry.2) ∅
  defaultWidth : f.defaultWidth = d.defaultWidth
  glyphCodes : f.glyphCodes = embeddedCodes d

theorem map_toString_eq_some {o : Option Char} {c : Char} :
    o.map Char.toString = some c.toString ↔ o = some c := by
  rw [Option.map_eq_some_iff]
  constructor
  · rintro ⟨c', here, same⟩
    obtain rfl : c' = c := String.singleton_inj.1 same
    exact here
  · intro here
    exact ⟨c, here, rfl⟩

section
variable {resources : Resources} {d : FontDictionary} {f : ShownFont}

theorem described (run : (ofDictionary resources d).result = .ok f) : Described resources d f := by
  cases toUnicode : d.toUnicode with
  | none =>
    simp only [ofDictionary, toUnicode, Traced.result_bind, bind_eq_ok, Traced.result_pure] at run
    obtain ⟨_, ⟨⟩, texts, collected, _, -, ⟨⟩⟩ := run
    refine ⟨rfl, toUnicode ▸ .none, collected, rfl, rfl, rfl, ?_⟩
    unfold embeddedCodes
    cases d.font <;> cases d.encoding <;> rfl
  | some data =>
    simp only [ofDictionary, toUnicode, Traced.result_bind, bind_eq_ok, Traced.result_map,
      map_eq_ok, Traced.result_pure] at run
    obtain ⟨_, ⟨map, read, rfl⟩, texts, collected, _, -, ⟨⟩⟩ := run
    refine ⟨rfl, toUnicode ▸ .some read, collected, rfl, rfl, rfl, ?_⟩
    unfold embeddedCodes
    cases d.font <;> cases d.encoding <;> rfl

theorem Described.result_ofDictionary (described : Described resources d f) :
    (ofDictionary resources d).result = .ok f := by
  obtain ⟨encoding, mapped, collected, font, widths, defaultWidth, glyphCodes⟩ := described
  obtain ⟨_, toUnicode, _, _, _, _, _⟩ := f
  dsimp only at *
  subst encoding font widths defaultWidth glyphCodes
  cases stream : d.toUnicode with
  | none =>
    rw [stream] at mapped
    cases mapped
    simp only [ofDictionary, stream, Traced.result_bind, bind_eq_ok, Traced.result_pure]
    refine ⟨_, rfl, _, collected, _, rfl, congrArg Except.ok ?_⟩
    unfold embeddedCodes
    cases d.font <;> cases d.encoding <;> rfl
  | some data =>
    rw [stream] at mapped
    cases mapped with
    | some read =>
      simp only [ofDictionary, stream, Traced.result_bind, bind_eq_ok, Traced.result_map,
        map_eq_ok, Traced.result_pure]
      refine ⟨_, ⟨_, read, rfl⟩, _, collected, _, rfl, congrArg Except.ok ?_⟩
      unfold embeddedCodes
      cases d.font <;> cases d.encoding <;> rfl

/-- With other widths, the same font is built with these. -/
theorem result_with_widths (run : (ofDictionary resources d).result = .ok f)
    (widths : List (UInt32 × UInt32)) :
    (ofDictionary resources { d with widths }).result = .ok { f with
      widths := widths.foldl (fun widths entry => widths.insert entry.1 entry.2) ∅ } := by
  obtain ⟨encoding, mapped, collected, font, -, defaultWidth, glyphCodes⟩ := described run
  exact Described.result_ofDictionary
    ⟨encoding, mapped, collected, font, rfl, defaultWidth, glyphCodes⟩

/-- The texts of a collection count only where codes are glyphs and no map to text is given. -/
theorem loadCidTexts_eq_none
    (unused : d.toUnicode.isSome ∨ d.encoding = .singleByte ∨ d.collection = none) :
    (loadCidTexts resources d).result = .ok none := by
  rw [loadCidTexts]
  split
  · rename_i toUnicode encoding collection
    rw [toUnicode, encoding, collection] at unused
    simp at unused
  · rfl

namespace Described
variable (described : Described resources d f)
include described

theorem toUnicode_eq_none (unmapped : d.toUnicode = none) : f.toUnicode = none := by
  have mapped := described.mapped
  rw [unmapped] at mapped
  generalize f.toUnicode = map at mapped
  cases mapped
  rfl

theorem toUnicode_eq_some {data : Bytes} (mapped : d.toUnicode = some data) :
    ∃ map, (CodeMap.read data).result = .ok map ∧ f.toUnicode = some map := by
  have read := described.mapped
  rw [mapped] at read
  generalize f.toUnicode = map at read
  cases read with
  | some read => exact ⟨_, read, rfl⟩

theorem cidTexts_eq_none
    (unused : d.toUnicode.isSome ∨ d.encoding = .singleByte ∨ d.collection = none) :
    f.cidTexts = none :=
  Except.ok.inj (described.collected.symm.trans (loadCidTexts_eq_none unused))

theorem getElem?_widths (code : UInt32) :
    f.widths[code]? = (d.widths.reverse.find? fun entry => entry.1 = code).map (·.2) := by
  rw [described.widths, getElem?_foldl_insert Prod.fst Prod.snd]
  simp

theorem getElem?_widths_eq_none {code : UInt32} (unlisted : ∀ entry ∈ d.widths, entry.1 ≠ code) :
    f.widths[code]? = none := by
  rw [described.getElem?_widths, Option.map_eq_none_iff, List.find?_eq_none]
  simpa using unlisted

/-- Without a map to text, bytes are decoded as Mac Roman or Latin-1. -/
theorem text?_of_singleByte (single : d.encoding = .singleByte) (unmapped : d.toUnicode = none)
    (code : UInt32) : f.text? code = (f.byteText? code).map Char.toString := by
  rw [text?, described.toUnicode_eq_none unmapped, described.cidTexts_eq_none (.inr (.inl single)),
    described.encoding, single]
  rfl

end Described

end

/-! ## Spaces -/

section
variable {f : ShownFont}

theorem spaceCode_singleByte (single : f.encoding = .singleByte) : f.spaceCode = some 0x20 := by
  rw [spaceCode, single]

theorem spaceCode_identity (identity : f.encoding = .identity) : f.spaceCode =
    (f.toUnicode.bind mappedSpace?).or
      ((f.font.bind (·.metric? 0x20)).map (·.glyph.toUInt32)) := by
  rw [spaceCode, identity]

theorem spaceWidth_of_reported {code : UInt32} (space : f.spaceCode = some code)
    (reported : f.reportedWidth code ≠ 0) : f.spaceWidth = f.reportedWidth code := by
  rw [spaceWidth, space, Option.map_some, Option.getD_some, if_pos reported]

theorem spaceWidth_of_unreported
    (unreported : ∀ code, f.spaceCode = some code → f.reportedWidth code = 0) :
    f.spaceWidth = f.averageWidth := by
  have zero : (f.spaceCode.map f.reportedWidth).getD 0 = 0 := by
    cases space : f.spaceCode with
    | none => rfl
    | some code => exact unreported code space
  rw [spaceWidth, zero]
  exact if_neg (fun other => other rfl)

theorem spaceWidth_congr {f' : ShownFont} (space : f'.spaceCode = f.spaceCode)
    (reported : ∀ code, f'.reportedWidth code = f.reportedWidth code)
    (average : f'.averageWidth = f.averageWidth) : f'.spaceWidth = f.spaceWidth := by
  rw [spaceWidth, spaceWidth, space, average, funext reported]

theorem width_of_ne_space {code : UInt32} (other : f.spaceCode ≠ some code) :
    f.width code = f.reportedWidth code :=
  if_neg other

end

end FontSubset.ShownFont
