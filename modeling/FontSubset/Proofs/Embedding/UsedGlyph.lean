import FontSubset.Embedding.UsedGlyph
import FontSubset.Proofs.TableEntries

/-!
# Recorded glyphs

`getElem?_ofList`: under the number of a glyph its first occurrence is recorded, so that the values
of the table are the first occurrences, in the order of their numbers.
-/

namespace FontSubset.UsedGlyphs

theorem getElem?_noteAll (used : UsedGlyphs) (glyphs : List UsedGlyph) (g : GlyphId) :
    (used.noteAll glyphs)[g]? = used[g]?.or (glyphs.find? (·.glyph = g)) := by
  refine (getElem?_foldl_insertIfNew (·.glyph) id glyphs used g).trans ?_
  rw [Option.map_id, id]

theorem noteAll_noteAll (front back : List UsedGlyph) :
    noteAll (noteAll ∅ front) back = ofList (front ++ back) :=
  List.foldl_append.symm

theorem getElem?_ofList (glyphs : List UsedGlyph) (g : GlyphId) :
    (ofList glyphs)[g]? = glyphs.find? (·.glyph = g) := by
  simp [ofList, getElem?_noteAll]

theorem mem_toList_ofList {glyphs : List UsedGlyph} {g : GlyphId} {u : UsedGlyph} :
    (g, u) ∈ (ofList glyphs).toList ↔ u.glyph = g ∧ glyphs.find? (·.glyph = g) = some u := by
  rw [Std.TreeMap.mem_toList_iff_getElem?_eq_some, getElem?_ofList]
  refine (and_iff_right_of_imp fun found => ?_).symm
  simpa using List.find?_some found

theorem mem_values_ofList {glyphs : List UsedGlyph} {u : UsedGlyph} :
    u ∈ (ofList glyphs).values ↔ glyphs.find? (·.glyph = u.glyph) = some u := by
  rw [values_eq, List.mem_map]
  constructor
  · rintro ⟨⟨g, _⟩, mem, rfl⟩
    obtain ⟨rfl, found⟩ := mem_toList_ofList.1 mem
    exact found
  · exact fun found => ⟨(u.glyph, u), mem_toList_ofList.2 ⟨rfl, found⟩, rfl⟩

theorem find?_values_ofList (glyphs : List UsedGlyph) (g : GlyphId) :
    (ofList glyphs).values.find? (·.glyph = g) = glyphs.find? (·.glyph = g) := by
  have agree (u : UsedGlyph) (same : u.glyph = g) :
      u ∈ (ofList glyphs).values ↔ glyphs.find? (·.glyph = g) = some u := by
    rw [mem_values_ofList, same]
  cases found : (ofList glyphs).values.find? (·.glyph = g) with
  | some u =>
    have same : u.glyph = g := by simpa using List.find?_some found
    exact ((agree u same).1 (List.mem_of_find?_eq_some found)).symm
  | none =>
    refine (Option.eq_none_iff_forall_ne_some.2 fun u first => ?_).symm
    have same : u.glyph = g := by simpa using List.find?_some first
    exact List.find?_eq_none.1 found u ((agree u same).2 first) (decide_eq_true same)

/-- There is one value for a glyph, so that it does not matter what else is filtered out. -/
theorem find?_filter_values (glyphs : List UsedGlyph) (p : UsedGlyph → Bool) (g : GlyphId) :
    ((ofList glyphs).values.filter p).find? (·.glyph = g) = (ofList glyphs)[g]?.filter p := by
  have single (u : UsedGlyph) (mem : u ∈ (ofList glyphs).values) (same : u.glyph = g) :
      (ofList glyphs)[g]? = some u := by
    rw [getElem?_ofList, ← same, mem_values_ofList.1 mem]
  cases found : ((ofList glyphs).values.filter p).find? (·.glyph = g) with
  | some u =>
    have same : u.glyph = g := by simpa using List.find?_some found
    obtain ⟨mem, holds⟩ := List.mem_filter.1 (List.mem_of_find?_eq_some found)
    rw [single u mem same, Option.filter_some_pos holds]
  | none =>
    refine (Option.filter_eq_none_iff.2 fun u first holds => ?_).symm
    rw [getElem?_ofList] at first
    have same : u.glyph = g := by simpa using List.find?_some first
    have mem : u ∈ (ofList glyphs).values := mem_values_ofList.2 (same ▸ first)
    exact List.find?_eq_none.1 found u (List.mem_filter.2 ⟨mem, holds⟩) (decide_eq_true same)

end FontSubset.UsedGlyphs
