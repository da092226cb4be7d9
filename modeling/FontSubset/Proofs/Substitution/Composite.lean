import FontSubset.Proofs.Font
import FontSubset.Proofs.Substitution.Trace

/-!
# Composites of a font

`WellMade`: each composite is kept under its own text, which has several characters, and with the
width that the font has for its glyph. The substitutions of a loaded font are well made
(`wellMade_of_load`), and so well spelled (`wellSpelled_of_load`).
-/

namespace FontSubset

namespace Substitutions

def WellSpelled (composites : Std.TreeMap String GlyphInfo) : Prop :=
  ∀ (text : String) (g : GlyphInfo), composites[text]? = some g →
    g.characters = text ∧ 2 ≤ text.length

def WellMade (widths : GlyphWidths) (composites : Std.TreeMap String GlyphInfo) : Prop :=
  ∀ (text : String) (g : GlyphInfo), composites[text]? = some g →
    g = ⟨g.code, widths.width g.code, text⟩ ∧ 2 ≤ text.length

theorem WellMade.wellSpelled {widths : GlyphWidths} {composites : Std.TreeMap String GlyphInfo}
    (h : WellMade widths composites) : WellSpelled composites := by
  intro text g found
  obtain ⟨same, several⟩ := h text g found
  rw [same]
  exact ⟨rfl, several⟩

theorem wellMade_of_compositesOf {rules : List SubstitutionRule}
    {sources : Std.TreeMap GlyphId UInt32} {widths : GlyphWidths}
    {composites : Std.TreeMap String GlyphInfo}
    (run : (compositesOf rules sources widths).result = .ok composites) :
    WellMade widths composites := by
  intro text g found
  obtain ⟨several, rule, -, rfl⟩ := (getElem?_composites run).1 found
  exact ⟨rfl, several⟩

theorem wellMade_of_read {data : Bytes} {directory : Directory}
    {sources : Std.TreeMap GlyphId UInt32} {widths : GlyphWidths} {s : Substitutions}
    (run : (read data directory sources widths).result = .ok (some s)) :
    WellMade widths s.composites := by
  rw [read] at run
  split at run
  · cases run
  · simp only [Traced.result_bind, bind_eq_ok, Traced.result_pure] at run
    obtain ⟨_, _, _, _, _, _, _, _, composites, made, _, _, ⟨⟩⟩ := run
    exact wellMade_of_compositesOf made

end Substitutions

theorem Font.wellMade_of_load [FaceParser] {data : Bytes} {member : Option UInt32} {font : Font}
    (run : (load data member).result = .ok font) :
    ∀ s ∈ font.substitutions, Substitutions.WellMade font.widths s.composites := by
  intro s here
  have read := (load_eq_ok.1 run).substituted
  rw [here] at read
  exact Substitutions.wellMade_of_read read

theorem Font.wellSpelled_of_load [FaceParser] {data : Bytes} {member : Option UInt32} {font : Font}
    (run : (load data member).result = .ok font) :
    ∀ s ∈ font.substitutions, Substitutions.WellSpelled s.composites :=
  fun s here => (wellMade_of_load run s here).wellSpelled

end FontSubset
