import FontSubset.Proofs.CharacterMap.Entries
import FontSubset.Proofs.Embedding.History
import FontSubset.Proofs.Shaping.Conservation
import FontSubset.Proofs.Shaping.Width

/-!
# Characters without a glyph

* `FontUse.missing_shown_iff`: a character whose code has no entry in the character map is dropped,
  but one whose entry is glyph 0, the glyph for missing characters, is shown with it and recorded
  for it.
-/

namespace FontSubset

namespace Typesetter
variable {t : Typesetter}

/-- The characters of a piece that have a glyph of their own, unless the font lacks it. -/
def alone (t : Typesetter) : Piece → List Char
  | .composite _ => []
  | .plain run => t.kept (.plain run)

/-- The characters of a text that are drawn one by one. Where a text is put into visual order, a
sign of two halves counts as its halves. -/
def singles [ScriptTable] (t : Typesetter) (text : List Char) : List Char :=
  (t.languageOf? text).elim text fun _ => (t.lexicon.segment text).flatMap t.alone

theorem mem_split {c : Char} {g g' : GlyphInfo} (here : t.glyph? c = some g') :
    g ∈ (Bengali.split t.glyph? g').value ↔
      ∃ c' ∈ t.counted (.singleton c), t.glyph? c' = some g := by
  have whole : g ∈ [g'] ↔ ∃ c' ∈ (String.singleton c).toList, t.glyph? c' = some g := by
    simp [here, eq_comm (a := g)]
  rw [Bengali.split, counted, Bengali.counted, characters_eq_of_glyph? here]
  cases Bengali.halves? (.singleton c) with
  | none => exact whole
  | some halves =>
    obtain ⟨first, second⟩ := halves
    cases left : t.glyph? first with
    | none => simpa [left] using whole
    | some a =>
      cases right : t.glyph? second with
      | none => simpa [left, right] using whole
      | some b => simp [left, right, eq_comm (a := g)]

theorem mem_kept_plain {run : List Char} {c : Char} : c ∈ t.kept (.plain run) ↔
    ∃ c' ∈ run, (t.glyph? c').isSome ∧ c ∈ t.counted (.singleton c') := by
  simp only [kept, List.mem_flatMap, List.mem_filter, mapped, glyph?, Option.isSome_map, and_assoc]

section
variable (lexical : t.Lexical)
include lexical

/-- A composite stands for several characters, and it is not split. -/
theorem mem_composite {text word : List Char} {g g' : GlyphInfo} {c : Char}
    (mem : .composite word ∈ t.lexicon.segment text)
    (here : g' ∈ (t.pieceGlyphs (.composite word)).value)
    (part : g ∈ (Bengali.split t.glyph? g').value) : g.characters ≠ .singleton c := by
  obtain ⟨⟨composite, found, same⟩, several⟩ := composite?_of_mem_segment lexical mem
  rw [pieceGlyphs, found] at here
  obtain rfl := List.mem_singleton.1 here
  have length : g'.characters.length = word.length := by rw [same, String.length_ofList]
  have whole : Bengali.halves? g'.characters = none := by
    refine Option.eq_none_iff_forall_ne_some.2 ?_
    rintro ⟨first, second⟩ sign
    have single := (Bengali.halves?_eq_some sign).1
    omega
  rw [Bengali.split, whole] at part
  obtain rfl := List.mem_singleton.1 part
  intro single
  rw [single, String.length_singleton] at length
  omega

theorem mem_piece {text : List Char} {piece : Piece} {g : GlyphInfo}
    (mem : piece ∈ t.lexicon.segment text) :
    (∃ g' ∈ (t.pieceGlyphs piece).value, g ∈ (Bengali.split t.glyph? g').value ∧
        ∃ c, g.characters = .singleton c) ↔
      ∃ c ∈ t.alone piece, t.glyph? c = some g := by
  cases piece with
  | composite word =>
    constructor
    · rintro ⟨g', here, part, c, single⟩
      exact absurd single (mem_composite lexical mem here part)
    · rintro ⟨c, drawn, -⟩
      cases drawn
  | plain run =>
    have value : (t.pieceGlyphs (.plain run)).value = run.filterMap t.glyph? :=
      t.value_plainGlyphs run
    simp only [value, List.mem_filterMap, alone, mem_kept_plain]
    constructor
    · rintro ⟨g', ⟨c', drawn, here⟩, part, -⟩
      obtain ⟨c, counted, found⟩ := (mem_split here).1 part
      exact ⟨c, ⟨c', drawn, by rw [here]; rfl, counted⟩, found⟩
    · rintro ⟨c, ⟨c', drawn, mapped, counted⟩, found⟩
      obtain ⟨g', here⟩ := Option.isSome_iff_exists.1 mapped
      exact ⟨g', ⟨c', drawn, here⟩, (mem_split here).2 ⟨c, counted, found⟩, c,
        characters_eq_of_glyph? found⟩

/-- The glyphs that stand for one character are those that the font maps the characters to. -/
theorem mem_glyphs_iff [ScriptTable] {text : String} {g : GlyphInfo} :
    (g ∈ (t.glyphs text).value ∧ ∃ c, g.characters = .singleton c) ↔
      ∃ c ∈ t.singles text.toList, t.glyph? c = some g := by
  rw [singles]
  cases language : t.languageOf? text.toList with
  | none =>
    rw [value_glyphs_of_plain t language, List.mem_filterMap, Option.elim_none]
    constructor
    · exact And.left
    · rintro ⟨c, mem, found⟩
      exact ⟨⟨c, mem, found⟩, c, characters_eq_of_glyph? found⟩
  | some _ =>
    rw [value_glyphs_of_language language, Bengali.value_reorder,
      (Bengali.shiftLeft_perm _).mem_iff, Option.elim_some]
    simp only [List.mem_flatMap]
    constructor
    · rintro ⟨⟨g', ⟨piece, mem, here⟩, part⟩, single⟩
      obtain ⟨c, drawn, found⟩ := (mem_piece lexical mem).1 ⟨g', here, part, single⟩
      exact ⟨c, ⟨piece, mem, drawn⟩, found⟩
    · rintro ⟨c, ⟨piece, mem, drawn⟩, found⟩
      obtain ⟨g', here, part, single⟩ := (mem_piece lexical mem).2 ⟨c, drawn, found⟩
      exact ⟨⟨g', ⟨piece, mem, here⟩, part⟩, single⟩

end

/-! ## Fonts -/

section
variable [FaceParser] {data : Bytes} {member : Option UInt32} {font : Font}
  (loaded : (Font.load data member).result = .ok font)
include loaded

theorem glyph?_of_load (c : Char) : (ofFont font).value.glyph? c =
    (CharacterMaps.stored? data font.directory c.val).map fun g =>
      ⟨g, font.width g, .singleton c⟩ := by
  have parts := Font.load_eq_ok.1 loaded
  have mapped := parts.mapped
  rw [parts.file] at mapped
  rw [glyph?, font_ofFont, Font.metric?, CharacterMaps.lookup_eq_stored mapped, Option.map_map]
  rfl

end

end Typesetter

namespace FontUse

section
variable [FaceParser] [ScriptTable] {data : Bytes} {member : Option UInt32} {font : Font}
  {u : FontUse} (loaded : (Font.load data member).result = .ok font)
  (begun : u.typesetter = (Typesetter.ofFont font).value)
include loaded begun

theorem shown_single_iff {text : String} {g : GlyphInfo} :
    (g ∈ u.shown (.write text) ∧ ∃ c, g.characters = .singleton c) ↔
      ∃ c ∈ u.typesetter.singles text.toList, ∃ i,
        CharacterMaps.stored? data font.directory c.val = some i ∧
          ⟨i, font.width i, .singleton c⟩ = g := by
  have lexical := Typesetter.lexical_ofFont (Font.wellSpelled_of_load loaded)
  rw [shown, begun, Typesetter.mem_glyphs_iff lexical]
  simp only [Typesetter.glyph?_of_load loaded, Option.map_eq_some_iff]

/-- What is recorded for a glyph that is shown first in this text. -/
theorem used_write {text : String} {g : GlyphInfo} (mem : g ∈ u.shown (.write text))
    (fresh : u.used[g.code]? = none) : ∃ first ∈ u.shown (.write text), first.code = g.code ∧
      (u.write text).value.2.used[g.code]? = some (usedGlyph first) ∧ first.characters ≠ "" := by
  have isSome : ((u.shown (.write text)).find? (·.code = g.code)).isSome := by
    simpa [List.find?_isSome] using ⟨g, mem, rfl⟩
  obtain ⟨first, found⟩ := Option.isSome_iff_exists.1 isSome
  have there := List.mem_of_find?_eq_some found
  have spelled := Font.wellSpelled_of_load loaded
  rw [← Typesetter.font_ofFont font, ← begun] at spelled
  refine ⟨first, there, by simpa using List.find?_some found, ?_,
    Typesetter.characters_ne_empty _ spelled there⟩
  have recorded := find?_entries_write found
  rw [entries, marked, List.map_nil, List.append_nil] at recorded
  refine (UsedGlyphs.getElem?_noteAll u.used _ g.code).trans ?_
  rw [fresh, Option.none_or]
  exact recorded

/-- Glyph 0 is shown for a character just when the character map stores it for its code. -/
theorem missing_shown_iff (text : String) :
    ((∃ g ∈ u.shown (.write text), g.code = 0 ∧ ∃ c, g.characters = .singleton c) ↔
      ∃ c ∈ u.typesetter.singles text.toList,
        CharacterMaps.stored? data font.directory c.val = some 0) ∧
    (∀ c, CharacterMaps.stored? data font.directory c.val = none →
      ∀ g ∈ u.shown (.write text), g.characters ≠ .singleton c) ∧
    (u.write text).value.1 =
      Bytes.concat ((u.shown (.write text)).map fun g => be16 g.code) ∧
    (∀ g ∈ u.shown (.write text), g.code = 0 → u.used[(0 : GlyphId)]? = none →
      ∃ first ∈ u.shown (.write text), first.code = 0 ∧
        (u.write text).value.2.used[(0 : GlyphId)]? = some (usedGlyph first) ∧
          first.characters ≠ "") := by
  refine ⟨?_, ?_, bytes_write u text, ?_⟩
  · constructor
    · rintro ⟨g, mem, zero, single⟩
      obtain ⟨c, drawn, i, stored, rfl⟩ := (shown_single_iff loaded begun).1 ⟨mem, single⟩
      obtain rfl : i = 0 := zero
      exact ⟨c, drawn, stored⟩
    · rintro ⟨c, drawn, stored⟩
      obtain ⟨mem, single⟩ := (shown_single_iff loaded begun).2 ⟨c, drawn, 0, stored, rfl⟩
      exact ⟨_, mem, rfl, single⟩
  · intro c unmapped g mem single
    obtain ⟨c', -, i, stored, rfl⟩ := (shown_single_iff loaded begun).1 ⟨mem, c, single⟩
    obtain rfl : c' = c := String.singleton_inj.1 single
    cases unmapped.symm.trans stored
  · intro g mem zero fresh
    rw [← zero] at fresh ⊢
    exact used_write loaded begun mem fresh

end

/-- The second of the two letters is stored with glyph 0. -/
def gapFont : Bytes :=
  Sample.mappedFont.setIfInBounds 117 0

set_option maxRecDepth 20000 in
theorem gapFont_shown : (Font.load gapFont none).result.map (fun font =>
    let u := (ofFont font false .minimal).value
    (u.typesetter.singles "AB".toList, CharacterMaps.stored? gapFont font.directory 0x42,
      u.shown (.write "AB"))) =
      .ok (['A', 'B'], some 0, [⟨1, 600, "A"⟩, ⟨0, 500, "B"⟩]) := by
  decide +kernel

theorem missing_shown_iff_letter : ∃ font u, (Font.load gapFont none).result = .ok font ∧
    (ofFont font false .minimal).value = u ∧
      (∃ g ∈ u.shown (.write "AB"), g.code = 0 ∧ ∃ c, g.characters = .singleton c) ∧
        ((u.write "AB").value.2.used[(0 : GlyphId)]?).map (·.text) = some "B" := by
  obtain ⟨font, loaded, found⟩ := map_eq_ok.1 gapFont_shown
  obtain ⟨drawn, found⟩ := Prod.mk.inj found
  obtain ⟨stored, shown⟩ := Prod.mk.inj found
  refine ⟨font, _, loaded, rfl, ?_⟩
  obtain ⟨shownIff, -, -, recorded⟩ := missing_shown_iff
    (u := (ofFont font false .minimal).value) loaded rfl "AB"
  constructor
  · exact shownIff.2 ⟨'B', by rw [drawn]; decide, stored⟩
  · obtain ⟨first, mem, zero, used, -⟩ := recorded ⟨0, 500, "B"⟩ (by rw [shown]; decide) rfl rfl
    rw [shown] at mem
    rcases List.mem_pair.1 mem with rfl | rfl
    · exact absurd zero (by decide)
    · rw [used]
      rfl

end FontUse

end FontSubset
