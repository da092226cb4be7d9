import FontSubset.Proofs.Shaping.Reorder
import FontSubset.Shaping.Typesetter
import FontSubset.Proofs.Substitution.Composite

/-!
# Glyphs of a text

* `value_plainGlyphs`: without composites, the glyphs of a text are those of its mapped characters.
* `characters_ne_empty`: every glyph of a text stands for some characters.
-/

namespace FontSubset

namespace Typesetter
variable (t : Typesetter)

@[simp]
theorem font_ofFont (font : Font) : (ofFont font).value.font = font := by
  rw [ofFont]
  split <;> rfl

theorem value_charGlyphs (c : Char) : (t.charGlyphs c).value = (t.glyph? c).toList := by
  rw [charGlyphs]
  cases t.glyph? c <;> rfl

theorem value_plainGlyphs (text : List Char) :
    (t.plainGlyphs text).value = text.filterMap t.glyph? := by
  rw [plainGlyphs, Logged.value_map, Logged.value_mapM]
  induction text with
  | nil => rfl
  | cons c rest ih =>
    rw [List.map_cons, List.flatten_cons, ih, value_charGlyphs, List.filterMap_cons]
    cases t.glyph? c <;> rfl

theorem value_glyphs_of_plain [ScriptTable] {text : String} (plain : t.languageOf? text.toList = none) :
    (t.glyphs text).value = text.toList.filterMap t.glyph? := by
  rw [glyphs, plain]
  exact t.value_plainGlyphs _

def mapped (c : Char) : Bool :=
  (t.font.metric? c.val).isSome

theorem map_characters_filterMap (text : List Char) :
    (text.filterMap t.glyph?).map (·.characters) =
      (text.filter t.mapped).map String.singleton := by
  induction text with
  | nil => rfl
  | cons c rest ih =>
    rw [List.filterMap_cons, List.filter_cons, glyph?, mapped]
    cases t.font.metric? c.val <;> simp [ih]

theorem join_characters_of_plain [ScriptTable] {text : String} (plain : t.languageOf? text.toList = none) :
    String.join ((t.glyphs text).value.map (·.characters)) =
      String.ofList (text.toList.filter fun c => (t.font.metric? c.val).isSome) := by
  rw [value_glyphs_of_plain t plain, map_characters_filterMap, ← String.toList_inj,
    String.toList_join, String.toList_ofList, List.flatMap_map]
  simp only [String.toList_singleton, List.flatMap_singleton']
  rfl

/-! ## What all glyphs of a text have in common -/

section
variable {t} {P : GlyphInfo → Prop} (single : ∀ c g, t.glyph? c = some g → P g)
include single

theorem of_mem_plainGlyphs {text : List Char} {g : GlyphInfo}
    (mem : g ∈ (t.plainGlyphs text).value) : P g := by
  rw [value_plainGlyphs] at mem
  obtain ⟨c, -, found⟩ := List.mem_filterMap.1 mem
  exact single c g found

theorem of_mem_split {g g' : GlyphInfo} (holds : P g)
    (mem : g' ∈ (Bengali.split t.glyph? g).value) : P g' := by
  rw [Bengali.split] at mem
  split at mem
  · cases List.mem_singleton.1 mem
    exact holds
  · split at mem
    · rename_i a b first second
      rcases List.mem_pair.1 mem with rfl | rfl
      · exact single _ _ first
      · exact single _ _ second
    · cases List.mem_singleton.1 mem
      exact holds

variable (composite : ∀ text g, t.composite? text = some g → P g)
include composite

theorem of_mem_pieceGlyphs {piece : Piece} {g : GlyphInfo}
    (mem : g ∈ (t.pieceGlyphs piece).value) : P g := by
  cases piece with
  | plain text => exact of_mem_plainGlyphs single mem
  | composite text =>
    rw [pieceGlyphs] at mem
    cases found : t.composite? text with
    | none =>
      rw [found] at mem
      exact of_mem_plainGlyphs single mem
    | some g' =>
      rw [found] at mem
      cases List.mem_singleton.1 mem
      exact composite text _ found

/-- The glyphs of a text are those of characters and of composites. -/
theorem of_mem_glyphs [ScriptTable] {text : String} {g : GlyphInfo} (mem : g ∈ (t.glyphs text).value) : P g := by
  rw [glyphs] at mem
  split at mem
  · exact of_mem_plainGlyphs single mem
  · simp only [Logged.value_bind, Bengali.reorder, Logged.value_mapM, Logged.value_pure] at mem
    obtain ⟨parts, part, mem⟩ := List.mem_flatten.1 ((Bengali.shiftLeft_perm _).mem_iff.1 mem)
    obtain ⟨g', mem', rfl⟩ := List.mem_map.1 part
    obtain ⟨pieces, piece, mem'⟩ := List.mem_flatten.1 mem'
    obtain ⟨p, -, rfl⟩ := List.mem_map.1 piece
    exact of_mem_split single (of_mem_pieceGlyphs single composite mem') mem

end

theorem characters_ne_empty [ScriptTable]
    (spelled : ∀ s ∈ t.font.substitutions, Substitutions.WellSpelled s.composites)
    {text : String} {g : GlyphInfo} (mem : g ∈ (t.glyphs text).value) : g.characters ≠ "" := by
  refine of_mem_glyphs (P := fun g => g.characters ≠ "") (fun c g found => ?_)
    (fun text g found => ?_) mem
  · obtain ⟨_, -, rfl⟩ := Option.map_eq_some_iff.1 found
    exact String.singleton_ne_empty
  · obtain ⟨s, here, found⟩ := Option.bind_eq_some_iff.1 found
    obtain ⟨same, several⟩ := spelled s here _ _ found
    rw [same]
    rintro empty
    rw [empty] at several
    cases several

end Typesetter

end FontSubset
