import FontSubset.Proofs.Shown.Dictionary
import Mathlib.Algebra.BigOperators.Field
import Mathlib.Algebra.Group.Action.Defs
import Mathlib.Algebra.Order.BigOperators.Group.Finset
import Mathlib.Algebra.Order.Floor.Semifield
import Mathlib.Data.Rat.Floor

/-!
# Average widths

* `ShownFont.spaceWidth_eq_mean`: a space has the width that is reported for it or, if that is
  zero, the integer part of the exact mean of the visible widths. Neither their total nor their
  number overflows, and of the order in which the dictionary lists its widths only the last width of
  each code counts.
-/

namespace FontSubset.ShownFont

/-! ## Widths that count -/

/-- The width that is listed last for a code. -/
def lastWidth? (widths : List (UInt32 × UInt32)) (code : UInt32) : Option UInt32 :=
  (widths.reverse.find? fun entry => entry.1 = code).map (·.2)

section
variable (d : FontDictionary)

/-- The codes whose widths are known: those with a width in the dictionary or, if it lists no
widths, all glyphs of the embedded font. -/
def knownCodes : Finset UInt32 :=
  if d.widths = [] then
    d.font.elim ∅ fun font => (Finset.range font.glyphCount).image UInt32.ofNat
  else (d.widths.map (·.1)).toFinset

def knownWidth (code : UInt32) : ℕ :=
  if d.widths = [] then d.font.elim 0 fun font => (font.width code.toUInt16).toNat
  else ((lastWidth? d.widths code).getD 0).toNat

def visibleCodes : Finset UInt32 :=
  (knownCodes d).filter (knownWidth d · ≠ 0)

def totalWidth : ℕ :=
  ∑ code ∈ visibleCodes d, knownWidth d code

/-- The exact mean of the known widths that are not zero, or zero if there are none. -/
def meanWidth : ℚ :=
  totalWidth d / (visibleCodes d).card

end

theorem mem_codes_iff {widths : List (UInt32 × UInt32)} {code : UInt32} :
    code ∈ widths.map (·.1) ↔ (lastWidth? widths code).isSome := by
  simp [lastWidth?]

section
variable {d : FontDictionary} {widths : List (UInt32 × UInt32)}
  (same : ∀ code, lastWidth? widths code = lastWidth? d.widths code)
include same

theorem mem_codes_congr (code : UInt32) :
    code ∈ widths.map (·.1) ↔ code ∈ d.widths.map (·.1) := by
  rw [mem_codes_iff, mem_codes_iff, same]

theorem eq_nil_congr : widths = [] ↔ d.widths = [] := by
  rw [← List.map_eq_nil_iff, List.eq_nil_iff_forall_not_mem, ← List.map_eq_nil_iff,
    List.eq_nil_iff_forall_not_mem]
  exact forall_congr' fun code => not_congr (mem_codes_congr same code)

theorem knownCodes_congr : knownCodes { d with widths } = knownCodes d := by
  have empty := eq_nil_congr same
  simp only [knownCodes, empty]
  split
  · rfl
  · ext code
    simpa only [List.mem_toFinset] using mem_codes_congr same code

theorem knownWidth_congr (code : UInt32) :
    knownWidth { d with widths } code = knownWidth d code := by
  have empty := eq_nil_congr same
  simp only [knownWidth, empty, same]

theorem meanWidth_congr : meanWidth { d with widths } = meanWidth d := by
  simp only [meanWidth, totalWidth, visibleCodes, knownCodes_congr same, knownWidth_congr same]

end

/-! ## Each code once -/

/-- The codes whose widths are known, each with its width. -/
structure Listing (d : FontDictionary) (entries : List (UInt32 × UInt32)) : Prop where
  once : (entries.map (·.1)).Nodup
  codes : (entries.map (·.1)).toFinset = knownCodes d
  widths : ∀ entry ∈ entries, knownWidth d entry.1 = entry.2.toNat

section
variable {resources : Resources} {d : FontDictionary} {f : ShownFont}
  {entries : List (UInt32 × UInt32)}

theorem Described.listing_toList (described : Described resources d f) (listed : d.widths ≠ []) :
    Listing d f.widths.toList := by
  have found (code width : UInt32) :
      (code, width) ∈ f.widths.toList ↔ lastWidth? d.widths code = some width := by
    rw [Std.TreeMap.mem_toList_iff_getElem?_eq_some, described.getElem?_widths, lastWidth?]
  constructor
  · rw [List.Nodup, List.pairwise_map]
    exact (pairwise_toList f.widths).imp UInt32.ne_of_lt
  · ext code
    rw [knownCodes, if_neg listed, List.mem_toFinset, List.mem_toFinset,
      @mem_codes_iff d.widths, Option.isSome_iff_exists]
    simp only [← found, List.mem_map, Prod.exists, exists_and_right, exists_eq_right]
  · rintro ⟨code, width⟩ mem
    rw [knownWidth, if_neg listed, (found code width).1 mem, Option.getD_some]

theorem listing_glyphs {font : Font} (unlisted : d.widths = []) (embedded : d.font = some font) :
    Listing d ((List.range font.glyphCount).map fun g =>
      (UInt32.ofNat g, font.width (UInt16.ofNat g))) := by
  have few : font.glyphCount < 65536 := font.metrics.glyphCount.toNat_lt
  constructor
  · rw [List.map_map]
    refine List.Nodup.map_on ?_ List.nodup_range
    intro g mem g' mem' same
    rw [List.mem_range] at mem mem'
    have numbers := congrArg UInt32.toNat same
    simp only [Function.comp_apply, UInt32.toNat_ofNat'] at numbers
    omega
  · rw [List.map_map, knownCodes, if_pos unlisted, embedded, Option.elim_some]
    ext code
    simp
  · simp only [List.mem_map, forall_exists_index, and_imp]
    rintro _ g - rfl
    rw [knownWidth, if_pos unlisted, embedded, Option.elim_some, UInt32.toUInt16_ofNat']

theorem Described.exists_listing (described : Described resources d f) :
    ∃ entries, Listing d entries ∧ f.knownWidths = entries.map (·.2) := by
  by_cases listed : d.widths = []
  · have empty : f.widths = ∅ := by rw [described.widths, listed, List.foldl_nil]
    cases embedded : d.font with
    | none =>
      refine ⟨[], ⟨List.nodup_nil, ?_, by simp⟩, ?_⟩
      · rw [knownCodes, if_pos listed, embedded]
        rfl
      · simp [knownWidths, empty, described.font, embedded]
    | some font =>
      refine ⟨_, listing_glyphs listed embedded, ?_⟩
      simp [knownWidths, empty, described.font, embedded]
  · refine ⟨_, described.listing_toList listed, ?_⟩
    obtain ⟨entry, mem⟩ := List.exists_mem_of_ne_nil _ listed
    have width := mem_codes_iff.1 (List.mem_map_of_mem mem)
    rw [lastWidth?, ← described.getElem?_widths] at width
    have filled : f.widths.isEmpty = false :=
      Std.TreeMap.isEmpty_eq_false_iff_exists_mem.2
        ⟨_, Std.TreeMap.mem_iff_isSome_getElem?.2 width⟩
    rw [knownWidths, if_pos (by simp [filled]), values_eq]

namespace Listing
variable (listing : Listing d entries)
include listing

theorem length_le : entries.length ≤ UInt32.size := by
  have card := List.toFinset_card_of_nodup listing.once
  rw [List.length_map] at card
  rw [← card, ← Finset.card_range UInt32.size]
  refine Finset.card_le_card_of_injOn UInt32.toNat ?_ fun _ _ _ _ => UInt32.toNat_inj.1
  intro code _
  simpa using code.toNat_lt_size

theorem visibleCodes_eq :
    visibleCodes d = ((entries.filter fun entry => entry.2 ≠ 0).map (·.1)).toFinset := by
  ext code
  rw [visibleCodes, Finset.mem_filter, ← listing.codes, List.mem_toFinset, List.mem_toFinset]
  simp only [List.mem_map, List.mem_filter, decide_eq_true_eq]
  constructor
  · rintro ⟨⟨entry, mem, rfl⟩, visible⟩
    rw [listing.widths entry mem] at visible
    exact ⟨entry, ⟨mem, fun zero => visible (by rw [zero]; rfl)⟩, rfl⟩
  · rintro ⟨entry, ⟨mem, visible⟩, rfl⟩
    rw [listing.widths entry mem]
    exact ⟨⟨entry, mem, rfl⟩, fun zero => visible (UInt32.toNat_inj.1 zero)⟩

theorem once_visible : ((entries.filter fun entry => entry.2 ≠ 0).map (·.1)).Nodup :=
  listing.once.sublist (List.filter_sublist.map _)

theorem length_visible :
    ((entries.map (·.2)).filter (· ≠ 0)).length = (visibleCodes d).card := by
  rw [listing.visibleCodes_eq, List.toFinset_card_of_nodup listing.once_visible, List.filter_map,
    List.length_map, List.length_map]
  rfl

theorem sum_visible :
    (((entries.map (·.2)).filter (· ≠ 0)).map UInt32.toNat).sum = totalWidth d := by
  rw [totalWidth, listing.visibleCodes_eq, List.sum_toFinset _ listing.once_visible,
    List.filter_map, List.map_map, List.map_map]
  refine congrArg List.sum (List.map_congr_left fun entry mem => ?_)
  exact (listing.widths entry (List.mem_of_mem_filter mem)).symm

end Listing

end

/-! ## Exact totals -/

/-- Totals of 64 bits are exact up to overflow. -/
theorem toNat_foldl_tally (widths : List UInt32) (sum : UInt64 × UInt64) :
    (widths.foldl tally sum).1.toNat =
      (sum.1.toNat + (widths.map UInt32.toNat).sum) % UInt64.size ∧
    (widths.foldl tally sum).2.toNat = (sum.2.toNat + widths.length) % UInt64.size := by
  induction widths generalizing sum with
  | nil => simp [Nat.mod_eq_of_lt sum.1.toNat_lt_size, Nat.mod_eq_of_lt sum.2.toNat_lt_size]
  | cons width rest ih =>
    have total : (tally sum width).1.toNat = (sum.1.toNat + width.toNat) % UInt64.size := by
      simp [tally]
    have count : (tally sum width).2.toNat = (sum.2.toNat + 1) % UInt64.size := by
      simp [tally]
    rw [List.foldl_cons, (ih (tally sum width)).1, (ih (tally sum width)).2, total, count,
      Nat.mod_add_mod, Nat.mod_add_mod, List.map_cons, List.sum_cons, List.length_cons,
      Nat.add_assoc, Nat.add_assoc, Nat.add_comm 1]
    exact ⟨rfl, rfl⟩

theorem sum_toNat_le (widths : List UInt32) :
    (widths.map UInt32.toNat).sum ≤ widths.length * (UInt32.size - 1) := by
  refine (List.sum_le_card_nsmul _ (UInt32.size - 1) ?_).trans_eq ?_
  · simp only [List.mem_map, forall_exists_index, and_imp, forall_apply_eq_imp_iff₂]
    exact fun width _ => Nat.le_pred_of_lt width.toNat_lt
  · rw [List.length_map, smul_eq_mul]

/-- One width for each code is not enough for an overflow. -/
theorem tally_exact {widths : List UInt32} (few : widths.length ≤ UInt32.size) :
    (widths.foldl tally (0, 0)).1.toNat = (widths.map UInt32.toNat).sum ∧
      (widths.foldl tally (0, 0)).2.toNat = widths.length := by
  have bound := sum_toNat_le widths
  have most := Nat.mul_le_mul_right (UInt32.size - 1) few
  have room : UInt32.size * (UInt32.size - 1) < UInt64.size := by decide
  have room' : UInt32.size < UInt64.size := by decide
  obtain ⟨total, count⟩ := toNat_foldl_tally widths (0, 0)
  rw [total, count]
  simp only [UInt64.toNat_zero, Nat.zero_add]
  exact ⟨Nat.mod_eq_of_lt (by omega), Nat.mod_eq_of_lt (by omega)⟩

/-! ## The mean -/

section
variable {d : FontDictionary}

theorem knownWidth_lt (code : UInt32) : knownWidth d code < UInt32.size := by
  rw [knownWidth]
  split
  · cases d.font with
    | none => exact Nat.zero_lt_succ _
    | some font => exact (font.width code.toUInt16).toNat_lt_size
  · exact UInt32.toNat_lt_size _

theorem le_meanWidth (nonempty : (visibleCodes d).Nonempty) {low : ℕ}
    (each : ∀ code ∈ visibleCodes d, low ≤ knownWidth d code) : low ≤ meanWidth d := by
  have bound := Finset.card_nsmul_le_sum _ _ _ each
  rw [smul_eq_mul, mul_comm] at bound
  rw [meanWidth, le_div_iff₀ (by exact_mod_cast nonempty.card_pos)]
  exact_mod_cast bound

theorem meanWidth_le (nonempty : (visibleCodes d).Nonempty) {high : ℕ}
    (each : ∀ code ∈ visibleCodes d, knownWidth d code ≤ high) : meanWidth d ≤ high := by
  have bound := Finset.sum_le_card_nsmul _ _ _ each
  rw [smul_eq_mul, mul_comm] at bound
  rw [meanWidth, div_le_iff₀ (by exact_mod_cast nonempty.card_pos)]
  exact_mod_cast bound

theorem meanWidth_eq_zero (empty : visibleCodes d = ∅) : meanWidth d = 0 := by
  rw [meanWidth, empty, Finset.card_empty, Nat.cast_zero, div_zero]

theorem meanWidth_nonneg : 0 ≤ meanWidth d :=
  div_nonneg (Nat.cast_nonneg _) (Nat.cast_nonneg _)

theorem meanWidth_lt : meanWidth d < UInt32.size := by
  rcases (visibleCodes d).eq_empty_or_nonempty with empty | nonempty
  · rw [meanWidth_eq_zero empty]
    exact_mod_cast Nat.zero_lt_succ _
  · have bound := meanWidth_le nonempty fun code _ => Nat.le_pred_of_lt (knownWidth_lt code)
    exact lt_of_le_of_lt bound (by exact_mod_cast Nat.pred_lt (by decide))

theorem floor_meanWidth : ⌊meanWidth d⌋₊ = totalWidth d / (visibleCodes d).card :=
  Nat.floor_div_eq_div _ _

end

section
variable {resources : Resources} {d : FontDictionary} {f : ShownFont} {widths : List UInt32}
  (described : Described resources d f) (perm : widths.Perm f.knownWidths)
include described perm

theorem Described.tally_visible :
    ((widths.filter (· ≠ 0)).foldl tally (0, 0)).1.toNat = totalWidth d ∧
      ((widths.filter (· ≠ 0)).foldl tally (0, 0)).2.toNat = (visibleCodes d).card := by
  obtain ⟨entries, listing, known⟩ := described.exists_listing
  rw [known] at perm
  have visible := perm.filter (fun width => decide (width ≠ 0))
  have few : (widths.filter (· ≠ 0)).length ≤ UInt32.size := by
    refine (List.length_filter_le _ widths).trans ?_
    rw [perm.length_eq, List.length_map]
    exact listing.length_le
  obtain ⟨total, count⟩ := tally_exact few
  rw [total, count, (visible.map UInt32.toNat).sum_eq, visible.length_eq]
  exact ⟨listing.sum_visible, listing.length_visible⟩

theorem Described.toNat_averageOf : (averageOf widths).toNat = ⌊meanWidth d⌋₊ := by
  obtain ⟨total, count⟩ := described.tally_visible perm
  have small := (Nat.floor_lt meanWidth_nonneg).2 (meanWidth_lt (d := d))
  rw [averageOf]
  split
  · rename_i zero
    rw [zero] at count
    rw [floor_meanWidth, ← count]
    simp
  · rw [UInt64.toNat_toUInt32, UInt64.toNat_div, total, count, ← floor_meanWidth]
    exact Nat.mod_eq_of_lt small

end

section
variable {resources : Resources} {d : FontDictionary} {f : ShownFont}

theorem Described.toNat_averageWidth (described : Described resources d f) :
    f.averageWidth.toNat = ⌊meanWidth d⌋₊ :=
  described.toNat_averageOf (.refl _)

theorem spaceWidth_with_widths (run : (ofDictionary resources d).result = .ok f)
    {widths : List (UInt32 × UInt32)}
    (same : ∀ code, lastWidth? widths code = lastWidth? d.widths code) :
    ∃ f', (ofDictionary resources { d with widths }).result = .ok f' ∧
      f'.spaceWidth = f.spaceWidth := by
  have run' := result_with_widths run widths
  refine ⟨_, run', spaceWidth_congr rfl (fun code => ?_) (UInt32.toNat_inj.1 ?_)⟩
  · have found := ((described run').getElem?_widths code).trans
      ((same code).trans ((described run).getElem?_widths code).symm)
    rw [reportedWidth, reportedWidth, found]
    rfl
  · rw [(described run').toNat_averageWidth, (described run).toNat_averageWidth,
      meanWidth_congr same]

end

/-- The space has no width, and one letter is listed twice. -/
def repeatedDictionary : FontDictionary :=
  ⟨.singleByte, none, none, none, [(0x41, 100), (0x20, 0), (0x41, 600), (0x42, 301)], 0⟩

end FontSubset.ShownFont
