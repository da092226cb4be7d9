import FontSubset.Proofs.Embedding.WidthArray
import Mathlib.Data.List.Nodup

/-!
# Runs of widths

* `widthArray_denotes`: a width array is read as the widths of the glyphs that do not have the
  default width, and its runs are ascending and as long as they can be.
-/

namespace FontSubset

/-! ## Recorded glyphs in order -/

namespace UsedGlyphs

theorem pairwise_values_ofList (glyphs : List UsedGlyph) :
    (ofList glyphs).values.Pairwise fun u v => u.glyph.toNat < v.glyph.toNat := by
  rw [values_eq, List.pairwise_map]
  refine (Std.TreeMap.ordered_keys_toList).imp_of_mem ?_
  rintro ⟨g, u⟩ ⟨g', v⟩ mem mem' less
  obtain ⟨rfl, -⟩ := mem_toList_ofList.1 mem
  obtain ⟨rfl, -⟩ := mem_toList_ofList.1 mem'
  exact UInt16.lt_iff_toNat_lt.1 (compareOfLessAndEq_eq_lt.1 less)

theorem mem_values_ofList_of_nodup {glyphs : List UsedGlyph}
    (distinct : (glyphs.map (·.glyph)).Nodup) {u : UsedGlyph} :
    u ∈ (ofList glyphs).values ↔ u ∈ glyphs := by
  rw [mem_values_ofList]
  refine ⟨List.mem_of_find?_eq_some, fun mem => ?_⟩
  cases found : glyphs.find? (·.glyph = u.glyph) with
  | none => exact absurd (decide_eq_true rfl) (List.find?_eq_none.1 found u mem)
  | some v =>
    have same : v.glyph = u.glyph := by simpa using List.find?_some found
    rw [List.inj_on_of_nodup_map distinct (List.mem_of_find?_eq_some found) mem same]

end UsedGlyphs

/-! ## Runs that are apart -/

namespace WidthRun

/-- The second run begins behind the last glyph of the first one, and not directly behind it. -/
def Apart (run next : WidthRun) : Prop :=
  run.first.toNat + run.widths.length < next.first.toNat

theorem prepend_apart {g : UsedGlyph} {runs : List WidthRun}
    (below : ∀ run ∈ runs, g.glyph.toNat < run.first.toNat) (apart : runs.Pairwise Apart) :
    (prepend g runs).Pairwise Apart := by
  cases runs with
  | nil => exact List.pairwise_singleton _ _
  | cons run rest =>
    obtain ⟨behind, others⟩ := List.pairwise_cons.1 apart
    rw [prepend]
    split
    · rename_i adjacent
      refine List.pairwise_cons.2 ⟨fun next mem => ?_, others⟩
      have gap := behind next mem
      simp only [Apart, List.length_cons] at gap ⊢
      omega
    · rename_i distant
      have first := below run List.mem_cons_self
      refine List.pairwise_cons.2 ⟨fun next mem => ?_, apart⟩
      rcases List.mem_cons.1 mem with rfl | mem
      · simp only [Apart, List.length_singleton]
        omega
      · have gap := behind next mem
        simp only [Apart, List.length_singleton] at gap ⊢
        omega

theorem of_mem_prepend {g : UsedGlyph} {runs : List WidthRun} {run : WidthRun}
    (mem : run ∈ prepend g runs) : run.first = g.glyph ∧ run.widths ≠ [] ∨ run ∈ runs := by
  unfold prepend at mem
  split at mem
  · split at mem
    · rcases List.mem_cons.1 mem with rfl | mem
      · exact .inl ⟨rfl, List.cons_ne_nil _ _⟩
      · exact .inr (List.mem_cons_of_mem _ mem)
    · rcases List.mem_cons.1 mem with rfl | mem
      · exact .inl ⟨rfl, List.cons_ne_nil _ _⟩
      · exact .inr mem
  · rcases List.mem_singleton.1 mem with rfl
    exact .inl ⟨rfl, List.cons_ne_nil _ _⟩

theorem of_mem_foldr_prepend {glyphs : List UsedGlyph} {run : WidthRun}
    (mem : run ∈ glyphs.foldr prepend []) :
    (∃ u ∈ glyphs, run.first = u.glyph) ∧ run.widths ≠ [] := by
  induction glyphs with
  | nil => cases mem
  | cons g rest ih =>
    rcases of_mem_prepend mem with ⟨first, filled⟩ | mem
    · exact ⟨⟨g, List.mem_cons_self, first⟩, filled⟩
    · obtain ⟨⟨u, there, first⟩, filled⟩ := ih mem
      exact ⟨⟨u, List.mem_cons_of_mem _ there, first⟩, filled⟩

theorem foldr_prepend_apart {glyphs : List UsedGlyph}
    (ascending : glyphs.Pairwise fun u v => u.glyph.toNat < v.glyph.toNat) :
    (glyphs.foldr prepend []).Pairwise Apart := by
  induction ascending with
  | nil => exact .nil
  | cons above _ ih =>
    refine prepend_apart (fun run mem => ?_) ih
    obtain ⟨⟨u, there, first⟩, -⟩ := of_mem_foldr_prepend mem
    rw [first]
    exact above u there

theorem mem_listed {glyphs : List UsedGlyph} (distinct : (glyphs.map (·.glyph)).Nodup)
    {u : UsedGlyph} : u ∈ listed glyphs ↔ u ∈ glyphs ∧ u.width ≠ defaultWidth := by
  have kept : ((glyphs.filter (·.width ≠ defaultWidth)).map (·.glyph)).Nodup :=
    distinct.sublist (List.filter_sublist.map _)
  rw [listed, UsedGlyphs.mem_values_ofList_of_nodup kept, List.mem_filter, decide_eq_true_eq]

theorem ofGlyphs_eq_nil {glyphs : List UsedGlyph} : ofGlyphs glyphs = [] ↔ listed glyphs = [] := by
  constructor
  · intro none
    have entries := entries_ofGlyphs glyphs
    rw [none] at entries
    exact List.map_eq_nil_iff.1 entries.symm
  · intro none
    rw [ofGlyphs, ← listed, none, List.foldr_nil]

/-! ## The array -/

theorem widthArray_denotes {glyphs : List UsedGlyph} (distinct : (glyphs.map (·.glyph)).Nodup) :
    (∀ text, widthArray (ofGlyphs glyphs) = some text → ∃ entries,
      WidthArray.read text = some entries ∧
      entries.Pairwise (fun entry next => entry.1 < next.1) ∧
      ∀ g w, (g, w) ∈ entries ↔
        ∃ u ∈ glyphs, u.glyph.toNat = g ∧ u.width.toNat = w ∧ u.width ≠ defaultWidth) ∧
    (widthArray (ofGlyphs glyphs) = none ↔ ∀ u ∈ glyphs, u.width = defaultWidth) ∧
    (ofGlyphs glyphs).Pairwise Apart ∧ ∀ run ∈ ofGlyphs glyphs, run.widths ≠ [] := by
  have ascending : (listed glyphs).Pairwise fun u v => u.glyph.toNat < v.glyph.toNat :=
    UsedGlyphs.pairwise_values_ofList _
  refine ⟨fun text written => ⟨_, WidthArray.read_widthArray written, ?order, fun g w => ?map⟩,
    ?none, foldr_prepend_apart ascending, fun run mem => (of_mem_foldr_prepend mem).2⟩
  case order =>
    rw [entries_ofGlyphs, List.pairwise_map]
    exact ascending
  case map =>
    rw [entries_ofGlyphs, List.mem_map]
    simp only [mem_listed distinct, Prod.mk.injEq]
    exact ⟨fun ⟨u, ⟨mem, other⟩, glyph, width⟩ => ⟨u, mem, glyph, width, other⟩,
      fun ⟨u, mem, glyph, width, other⟩ => ⟨u, ⟨mem, other⟩, glyph, width⟩⟩
  case none =>
    have empty : widthArray (ofGlyphs glyphs) = none ↔ listed glyphs = [] := by
      rw [← ofGlyphs_eq_nil, widthArray]
      cases ofGlyphs glyphs <;> simp
    rw [empty, List.eq_nil_iff_forall_not_mem]
    simp only [mem_listed distinct, not_and, not_not]

/-- Two glyphs in a row, one of the default width behind them, one behind that, and the last glyph
that there can be. -/
def scatteredGlyphs : List UsedGlyph :=
  [⟨11, 1000, "d"⟩, ⟨9, 600, "b"⟩, ⟨65535, 0, "e"⟩, ⟨12, 300, ""⟩, ⟨10, 250, "c"⟩]

theorem widthArray_denotes_scattered : (scatteredGlyphs.map (·.glyph)).Nodup ∧
    ∃ text entries, widthArray (ofGlyphs scatteredGlyphs) = some text ∧
      WidthArray.read text = some entries ∧ (12, 300) ∈ entries ∧
      ∀ w, (11, w) ∉ entries := by
  have distinct : (scatteredGlyphs.map (·.glyph)).Nodup := by decide
  obtain ⟨denotes, empty, -⟩ := widthArray_denotes distinct
  cases written : widthArray (ofGlyphs scatteredGlyphs) with
  | none => exact absurd (empty.1 written) (by decide)
  | some text =>
    obtain ⟨entries, read, -, mem⟩ := denotes text written
    refine ⟨distinct, text, entries, rfl, read, (mem 12 300).2 ?_, fun w => ?_⟩
    · exact ⟨⟨12, 300, ""⟩, by simp [scatteredGlyphs], rfl, rfl, by decide⟩
    · rw [mem]
      rintro ⟨u, there, glyph, -, other⟩
      simp only [scatteredGlyphs, List.mem_cons, List.not_mem_nil, or_false] at there
      rcases there with rfl | rfl | rfl | rfl | rfl
      · exact other rfl
      all_goals exact absurd glyph (by decide)

end WidthRun

end FontSubset
