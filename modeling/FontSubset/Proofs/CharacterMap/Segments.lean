import FontSubset.CharacterMap.Subtable
import FontSubset.Proofs.Bytes
import FontSubset.Proofs.TableEntries
import FontSubset.Sample.Bytes

/-!
# Segments of a character map

* `GlyphMap.glyph_eq_glyphAtFilled`: while the segments of a format 4 subtable are sorted and do not
  overlap, the map that is read from it gives each code the glyph that is found by a search for its
  segment among those that have codes.

`SegmentArrays` is the subtable as its format describes it. The search of the format,
`SegmentArrays.glyphAt`, also stops at segments without codes; `glyph_ne_glyphAt` is a table where
this makes a difference.
-/

namespace FontSubset

namespace SegmentMap
variable {m : SegmentMap} {s : Segment} {i : Nat} {c : UInt32} {g : GlyphId}

theorem mem_codes {code : Nat} : code ∈ codes s ↔ s.first.toNat ≤ code ∧ code ≤ s.last.toNat := by
  simp only [codes, List.mem_map, List.mem_range]
  constructor
  · rintro ⟨k, bound, rfl⟩
    omega
  · rintro ⟨first, last⟩
    exact ⟨code - s.first.toNat, by omega, by omega⟩

theorem mem_segmentAssignments : (c, g) ∈ m.segmentAssignments false i s ↔
    ∃ code : UInt16, s.first ≤ code ∧ code ≤ s.last ∧ code.toUInt32 = c ∧
      m.glyph? i s code.toNat = some g := by
  simp only [segmentAssignments, List.mem_flatMap, mem_codes]
  constructor
  · rintro ⟨n, ⟨first, last⟩, mem⟩
    cases found : m.glyph? i s n with
    | none => simp [found] at mem
    | some glyph =>
      have bound : n < UInt16.size := Nat.lt_of_le_of_lt last s.last.toNat_lt
      obtain ⟨rfl, rfl⟩ : c = UInt32.ofNat n ∧ g = glyph := by simpa [found] using mem
      have exact : (UInt16.ofNat n).toNat = n := UInt16.toNat_ofNat_of_lt' bound
      refine ⟨UInt16.ofNat n, ?_, ?_, ?_, ?_⟩
      · rwa [UInt16.le_iff_toNat_le, exact]
      · rwa [UInt16.le_iff_toNat_le, exact]
      · rw [← UInt32.toNat_inj, UInt16.toNat_toUInt32, exact,
          UInt32.toNat_ofNat_of_lt' (Nat.lt_trans bound (by decide))]
      · rw [exact, found]
  · rintro ⟨code, first, last, rfl, found⟩
    refine ⟨code.toNat, ⟨UInt16.le_iff_toNat_le.1 first, UInt16.le_iff_toNat_le.1 last⟩, ?_⟩
    simp [found]

end SegmentMap

/-! ## The search for a code -/

/-- A format 4 subtable: four fields for each segment, and an array of glyphs. -/
structure SegmentArrays where
  count : Nat
  first : Nat → UInt16
  last : Nat → UInt16
  delta : Nat → UInt16
  rangeOffset : Nat → UInt16
  glyphCount : Nat
  glyph : Nat → GlyphId

namespace SegmentArrays

/-- The subtable at `pos`. -/
def ofBytes (data : Bytes) (pos : Nat) : SegmentArrays :=
  let count := (data.u16 (pos + 6)).toNat / 2
  { count
    last := fun i => data.u16 (pos + 14 + 2 * i)
    first := fun i => data.u16 (pos + 16 + 2 * count + 2 * i)
    delta := fun i => data.u16 (pos + 16 + 4 * count + 2 * i)
    rangeOffset := fun i => data.u16 (pos + 16 + 6 * count + 2 * i)
    glyphCount := ((data.u16 (pos + 2)).toNat - (16 + 8 * count)) / 2
    glyph := fun i => data.u16 (pos + 16 + 8 * count + 2 * i) }

variable (a : SegmentArrays)

/-- Whether a segment has codes: it does not end before it begins. -/
def Filled (i : Nat) : Prop :=
  a.first i ≤ a.last i

instance (i : Nat) : Decidable (a.Filled i) :=
  inferInstanceAs (Decidable (_ ≤ _))

/-- The first segment that does not end before a code. -/
def search? (code : UInt16) : Option Nat :=
  (List.range a.count).find? fun i => code ≤ a.last i

/-- The first segment with codes that does not end before a code. -/
def searchFilled? (code : UInt16) : Option Nat :=
  (List.range a.count).find? fun i => a.Filled i ∧ code ≤ a.last i

/-- Where the glyph of a code lies in the glyph array. -/
def arrayIndex (i : Nat) (code : UInt16) : Int :=
  (a.rangeOffset i).toNat / 2 + (code.toNat - (a.first i).toNat) - (a.count - i)

/-- The entry of the glyph array for a code, zero if it lies outside the array. -/
def arrayGlyph (i : Nat) (code : UInt16) : GlyphId :=
  if 0 ≤ a.arrayIndex i code ∧ a.arrayIndex i code < a.glyphCount then
    a.glyph (a.arrayIndex i code).toNat
  else 0

/-- The glyph of a code of segment `i`. -/
def glyphIn (i : Nat) (code : UInt16) : GlyphId :=
  if a.rangeOffset i = 0 then code + a.delta i
  else if a.arrayGlyph i code = 0 then 0
  else a.arrayGlyph i code + a.delta i

/-- The glyph of a code, given the segment that a search for it ends with. -/
def glyphFound (code : UInt16) : Option Nat → GlyphId
  | none => 0
  | some i => if code < a.first i then 0 else a.glyphIn i code

def glyphAt (code : UInt16) : GlyphId :=
  a.glyphFound code (a.search? code)

def glyphAtFilled (code : UInt16) : GlyphId :=
  a.glyphFound code (a.searchFilled? code)

def Covers (i : Nat) (code : UInt16) : Prop :=
  i < a.count ∧ a.first i ≤ code ∧ code ≤ a.last i

/-- The segments are sorted by their ends, and no code is in two of them. -/
structure Sorted : Prop where
  ascending : ∀ i j, i < j → j < a.count → a.last i ≤ a.last j
  apart : ∀ i j code, a.Covers i code → a.Covers j code → i = j

/-- Each segment ends before the later ones begin. If all segments have codes, this says that they
are sorted (`ordered_iff`). -/
def Ordered : Prop :=
  ∀ i j, i < j → j < a.count → a.last i < a.first j

variable {a} {i j : Nat} {code : UInt16}

theorem search?_eq_some : a.search? code = some i ↔
    i < a.count ∧ code ≤ a.last i ∧ ∀ j < i, ¬ code ≤ a.last j := by
  simp [search?, List.find?_range_eq_some, and_left_comm]

theorem searchFilled?_eq_some : a.searchFilled? code = some i ↔
    i < a.count ∧ (a.Filled i ∧ code ≤ a.last i) ∧
      ∀ j < i, a.Filled j → ¬ code ≤ a.last j := by
  simp [searchFilled?, List.find?_range_eq_some, and_left_comm, or_iff_not_imp_left]

theorem glyphAtFilled_eq_glyphAt (filled : ∀ i < a.count, a.Filled i) :
    a.glyphAtFilled code = a.glyphAt code := by
  have same : a.searchFilled? code = a.search? code := by
    refine Option.ext fun i => ?_
    rw [searchFilled?_eq_some, search?_eq_some]
    constructor
    · rintro ⟨bound, ⟨-, ends⟩, first⟩
      exact ⟨bound, ends, fun j before => first j before (filled j (Nat.lt_trans before bound))⟩
    · rintro ⟨bound, ends, first⟩
      exact ⟨bound, ⟨filled i bound, ends⟩, fun j before _ => first j before⟩
  rw [glyphAtFilled, same, glyphAt]

/-- A code of a later segment lies behind the end of every earlier one that has codes. -/
theorem Sorted.le_of_covers (sorted : a.Sorted) (here : a.Covers j code) (filled : a.Filled i)
    (ends : code ≤ a.last i) : j ≤ i := by
  obtain ⟨bound, first, -⟩ := here
  by_contra later
  have before : i < j := Nat.lt_of_not_le later
  -- Both segments would hold the end of the earlier one.
  have shared : i = j := sorted.apart i j (a.last i)
    ⟨Nat.lt_trans before bound, filled, UInt16.le_refl _⟩
    ⟨bound, UInt16.le_trans first ends, sorted.ascending i j before bound⟩
  exact Nat.ne_of_lt before shared

theorem apart_of_filled (ordered : ∀ i j, i < j → j < a.count → a.Filled i → a.Filled j →
    a.last i < a.first j) (here : a.Covers i code) (there : a.Covers j code) : i = j := by
  have disjoint {i j : Nat} (before : i < j) (here : a.Covers i code) (there : a.Covers j code) :
      False := by
    have apart := ordered i j before there.1 (UInt16.le_trans here.2.1 here.2.2)
      (UInt16.le_trans there.2.1 there.2.2)
    exact UInt16.lt_irrefl _ (UInt16.lt_of_le_of_lt (UInt16.le_trans there.2.1 here.2.2) apart)
  rcases Nat.lt_trichotomy i j with before | same | after
  · exact (disjoint before here there).elim
  · exact same
  · exact (disjoint after there here).elim

theorem ordered_iff (filled : ∀ i < a.count, a.Filled i) : a.Ordered ↔ a.Sorted := by
  constructor
  · intro ordered
    exact {
      ascending := fun i j before bound =>
        UInt16.le_trans (UInt16.le_of_lt (ordered i j before bound)) (filled j bound)
      apart := fun i j code here there =>
        apart_of_filled (fun i j before bound _ _ => ordered i j before bound) here there }
  · intro sorted i j before bound
    apply UInt16.not_le.1
    intro overlap
    have here : a.Covers j (a.last i) := ⟨bound, overlap, sorted.ascending i j before bound⟩
    have back := sorted.le_of_covers here (filled i (Nat.lt_trans before bound)) (UInt16.le_refl _)
    exact absurd back (Nat.not_le_of_lt before)

theorem Sorted.glyphAtFilled_of_covers (sorted : a.Sorted) (here : a.Covers j code) :
    a.glyphAtFilled code = a.glyphIn j code := by
  have filled : a.Filled j := UInt16.le_trans here.2.1 here.2.2
  have found : a.searchFilled? code = some j := by
    refine searchFilled?_eq_some.2 ⟨here.1, ⟨filled, here.2.2⟩, fun i before filled ends => ?_⟩
    exact absurd (sorted.le_of_covers here filled ends) (Nat.not_le_of_lt before)
  rw [glyphAtFilled, found, glyphFound, if_neg (UInt16.not_lt.2 here.2.1)]

theorem glyphAtFilled_eq_zero (bare : ∀ i, ¬ a.Covers i code) : a.glyphAtFilled code = 0 := by
  unfold glyphAtFilled
  cases found : a.searchFilled? code with
  | none => rfl
  | some i =>
    obtain ⟨bound, ⟨-, ends⟩, -⟩ := searchFilled?_eq_some.1 found
    have before : code < a.first i := UInt16.not_le.1 fun begun => bare i ⟨bound, begun, ends⟩
    rw [glyphFound, if_pos before]

/-! ## The segments as they are read -/

variable (a) in
def segment (i : Nat) : Segment :=
  ⟨a.first i, a.last i, a.delta i, a.rangeOffset i⟩

variable (a) in
def toMap : SegmentMap :=
  ⟨(List.range a.count).map a.segment, ((List.range a.glyphCount).map a.glyph).toArray⟩

theorem eq_of_read {data : Bytes} {pos : Nat} {m : SegmentMap}
    (run : SegmentMap.read data pos = .ok m) : m = (ofBytes data pos).toMap := by
  simp only [SegmentMap.read, bind_eq_ok, pure_eq_ok] at run
  obtain ⟨_, length, _, doubled, _, lasts, _, firsts, _, deltas, _, offsets, _, glyphs, rfl⟩ := run
  cases Bytes.u16_of_u16At length
  cases Bytes.u16_of_u16At doubled
  rw [Bytes.eq_of_u16sAt lasts, Bytes.eq_of_u16sAt firsts, Bytes.eq_of_u16sAt deltas,
    Bytes.eq_of_u16sAt offsets, Bytes.eq_of_u16sAt glyphs]
  simp only [SegmentMap.ofFields, List.zip_map', List.map_map]
  rfl

variable (a) in
/-- A code has its glyph from its segment alone or from an entry of the glyph array. -/
def HasEntry (i : Nat) (code : UInt16) : Prop :=
  a.rangeOffset i = 0 ∨ 0 ≤ a.arrayIndex i code ∧ a.arrayIndex i code < a.glyphCount

instance : Decidable (a.HasEntry i code) :=
  inferInstanceAs (Decidable (_ ∨ _))

theorem glyph?_eq (here : a.Covers i code) : a.toMap.glyph? i (a.segment i) code.toNat =
    if a.HasEntry i code then some (a.glyphIn i code) else none := by
  unfold SegmentMap.glyph? glyphIn
  by_cases direct : a.rangeOffset i = 0
  · simp [segment, HasEntry, direct]
  · have count : a.toMap.segments.length = a.count := by simp [toMap]
    have index : a.arrayIndex i code =
        (i + (a.rangeOffset i).toNat / 2 + (code.toNat - (a.first i).toNat) : Nat) - a.count := by
      have first := UInt16.le_iff_toNat_le.1 here.2.1
      unfold arrayIndex
      omega
    simp only [segment, direct, if_false, count]
    generalize i + (a.rangeOffset i).toNat / 2 + (code.toNat - (a.first i).toNat) = place at index
    split
    · rename_i before
      have outside : ¬ 0 ≤ a.arrayIndex i code := by omega
      simp [HasEntry, direct, outside]
    · rename_i reached
      have behind : 0 ≤ a.arrayIndex i code := by omega
      have entry : (a.arrayIndex i code).toNat = place - a.count := by omega
      by_cases inside : place - a.count < a.glyphCount
      · have inside' : a.arrayIndex i code < a.glyphCount := by omega
        simp [HasEntry, arrayGlyph, behind, inside', entry, toMap, inside]
      · have outside : ¬ a.arrayIndex i code < a.glyphCount := by omega
        simp [HasEntry, direct, outside, toMap, inside]

theorem getD_glyph? (here : a.Covers i code) :
    (a.toMap.glyph? i (a.segment i) code.toNat).getD 0 = a.glyphIn i code := by
  rw [glyph?_eq here]
  split
  · rfl
  · rename_i none
    obtain ⟨direct, outside⟩ := not_or.1 none
    simp [glyphIn, direct, arrayGlyph, outside]

theorem mem_assignments {c : UInt32} {g : GlyphId} : (c, g) ∈ a.toMap.assignments false ↔
    ∃ i code, a.Covers i code ∧ code.toUInt32 = c ∧
      a.toMap.glyph? i (a.segment i) code.toNat = some g := by
  simp only [SegmentMap.assignments, List.mem_flatten, List.mem_mapIdx, toMap]
  constructor
  · rintro ⟨_, ⟨i, bound, rfl⟩, mem⟩
    obtain ⟨code, first, last, same, found⟩ := SegmentMap.mem_segmentAssignments.1 mem
    simp only [List.getElem_map, List.getElem_range] at first last found
    exact ⟨i, code, ⟨by simpa using bound, first, last⟩, same, found⟩
  · rintro ⟨i, code, ⟨bound, first, last⟩, same, found⟩
    refine ⟨_, ⟨i, by simpa using bound, rfl⟩, SegmentMap.mem_segmentAssignments.2 ⟨code, ?_⟩⟩
    simp only [List.getElem_map, List.getElem_range]
    exact ⟨first, last, same, found⟩

end SegmentArrays

namespace GlyphMap
variable {widths : GlyphWidths}

theorem getElem?_assign (map : GlyphMap) (assignments : List Assignment) (code : UInt32) :
    (assign widths map assignments)[code]? =
      ((assignments.reverse.find? fun a => a.1 = code).map fun a => widths.metric a.2).or
        map[code]? :=
  getElem?_foldl_insert Prod.fst (fun a => widths.metric a.2) assignments map code

theorem result_read_segments {data : Bytes} {pos : Nat} (symbol : Bool)
    (format : data.u16At pos = .ok 4) : (read data pos widths symbol).result =
      (SegmentMap.read data pos).map fun m =>
        some (ofAssignments widths (m.assignments symbol)) := by
  rw [read, Traced.result_bind, Traced.result_lift, format, ok_bind]
  cases SegmentMap.read data pos <;> simp [Except.map]

theorem segments_of_read {data : Bytes} {pos : Nat} {map : GlyphMap}
    (format : data.u16At pos = .ok 4)
    (run : (read data pos widths false).result = .ok (some map)) :
    map = ofAssignments widths ((SegmentArrays.ofBytes data pos).toMap.assignments false) := by
  rw [result_read_segments false format] at run
  obtain ⟨m, found, same⟩ := map_eq_ok.1 run
  rw [← SegmentArrays.eq_of_read found]
  exact (Option.some.inj same).symm

theorem glyph_ofAssignments {a : SegmentArrays} (sorted : a.Sorted) (code : UInt16) :
    ((ofAssignments widths (a.toMap.assignments false))[code.toUInt32]?).elim 0 (·.glyph) =
      a.glyphAtFilled code := by
  rw [ofAssignments, getElem?_assign]
  cases found : (a.toMap.assignments false).reverse.find? fun b => b.1 = code.toUInt32 with
  | none =>
    have bare {glyph : GlyphId} : (code.toUInt32, glyph) ∉ a.toMap.assignments false := by
      intro mem
      simpa using List.find?_eq_none.1 found _ (List.mem_reverse.2 mem)
    by_cases covered : ∃ i, a.Covers i code
    · obtain ⟨i, here⟩ := covered
      rw [sorted.glyphAtFilled_of_covers here, ← SegmentArrays.getD_glyph? here]
      cases place : a.toMap.glyph? i (a.segment i) code.toNat with
      | none => rfl
      | some glyph => exact absurd (SegmentArrays.mem_assignments.2 ⟨i, code, here, rfl, place⟩) bare
    · rw [SegmentArrays.glyphAtFilled_eq_zero (not_exists.1 covered)]
      rfl
  | some assigned =>
    obtain ⟨c, glyph⟩ := assigned
    have same : c = code.toUInt32 := by simpa using List.find?_some found
    have mem := List.mem_reverse.1 (List.mem_of_find?_eq_some found)
    obtain ⟨i, code', here, eq, place⟩ := SegmentArrays.mem_assignments.1 mem
    obtain rfl : code' = code := UInt16.toUInt32_inj.1 (eq.trans same)
    rw [sorted.glyphAtFilled_of_covers here, ← SegmentArrays.getD_glyph? here, place]
    rfl

/-- If all segments have codes, the search is the one of the format. -/
theorem glyph_eq_glyphAtFilled {data : Bytes} {pos : Nat} {map : GlyphMap}
    (format : data.u16At pos = .ok 4)
    (run : (read data pos widths false).result = .ok (some map))
    (sorted : (SegmentArrays.ofBytes data pos).Sorted) (code : UInt16) :
    (map[code.toUInt32]?).elim 0 (·.glyph) =
        (SegmentArrays.ofBytes data pos).glyphAtFilled code ∧
      ((∀ i < (SegmentArrays.ofBytes data pos).count, (SegmentArrays.ofBytes data pos).Filled i) →
        (map[code.toUInt32]?).elim 0 (·.glyph) =
          (SegmentArrays.ofBytes data pos).glyphAt code) := by
  have same : (map[code.toUInt32]?).elim 0 (·.glyph) =
      (SegmentArrays.ofBytes data pos).glyphAtFilled code := by
    rw [segments_of_read format run]
    exact glyph_ofAssignments sorted code
  exact ⟨same, fun filled => same.trans (SegmentArrays.glyphAtFilled_eq_glyphAt filled)⟩

/-- Three codes by the glyph array, no code at all, one code by its delta, and the end mark. -/
def segmentTable : Bytes :=
  Sample.fields16 [4, 54, 0, 8, 0, 0, 0, 0x43, 0x4F, 0x61, 0xFFFF, 0, 0x41, 0x50, 0x61, 0xFFFF,
    5, 0, 0xFFC0, 1, 8, 0, 0, 0, 7, 0, 0xFFFE]

theorem glyph_eq_glyphAtFilled_table : ∃ map : GlyphMap,
    (read segmentTable 0 ⟨#[500]⟩ false).result = .ok (some map) ∧
      (SegmentArrays.ofBytes segmentTable 0).Sorted ∧
        (map[(0x43 : UInt32)]?).elim 0 (·.glyph) = 3 := by
  have sorted : (SegmentArrays.ofBytes segmentTable 0).Sorted := by
    have ascending : ∀ j < 4, ∀ i < j, (SegmentArrays.ofBytes segmentTable 0).last i ≤
        (SegmentArrays.ofBytes segmentTable 0).last j := by decide +kernel
    have ordered : ∀ j < 4, ∀ i < j, (SegmentArrays.ofBytes segmentTable 0).last i <
        (SegmentArrays.ofBytes segmentTable 0).first j := by decide +kernel
    exact ⟨fun i j before bound => ascending j bound i before, fun _ _ _ =>
      SegmentArrays.apart_of_filled fun i j before bound _ _ => ordered j bound i before⟩
  have run : (read segmentTable 0 ⟨#[500]⟩ false).result.map Option.isSome = .ok true := by
    decide +kernel
  obtain ⟨found, run, present⟩ := map_eq_ok.1 run
  obtain ⟨map, rfl⟩ := Option.isSome_iff_exists.1 present
  have format : segmentTable.u16At 0 = .ok 4 := by decide +kernel
  refine ⟨map, run, sorted, (glyph_eq_glyphAtFilled format run sorted 0x43).1.trans ?_⟩
  decide +kernel

/-- The first segment has no codes, and its end is a code of the second one. -/
def reversedTable : Bytes :=
  Sample.fields16 [4, 40, 0, 6, 0, 0, 0, 0x41, 0x43, 0xFFFF, 0, 0x42, 0x41, 0xFFFF, 0, 0xFFC0, 1,
    0, 0, 0]

/-- The search of the format ends with the first segment, which does not hold the code. -/
theorem glyph_ne_glyphAt : ∃ map : GlyphMap,
    (read reversedTable 0 ⟨#[500]⟩ false).result = .ok (some map) ∧
      (SegmentArrays.ofBytes reversedTable 0).Sorted ∧
        (SegmentArrays.ofBytes reversedTable 0).glyphAt 0x41 = 0 ∧
          (map[(0x41 : UInt32)]?).elim 0 (·.glyph) = 1 := by
  have ascending : ∀ j < 3, ∀ i < j, (SegmentArrays.ofBytes reversedTable 0).last i ≤
      (SegmentArrays.ofBytes reversedTable 0).last j := by decide +kernel
  have ordered : ∀ j < 3, ∀ i < j, (SegmentArrays.ofBytes reversedTable 0).Filled i →
      (SegmentArrays.ofBytes reversedTable 0).Filled j →
        (SegmentArrays.ofBytes reversedTable 0).last i <
          (SegmentArrays.ofBytes reversedTable 0).first j := by decide +kernel
  have found : (read reversedTable 0 ⟨#[500]⟩ false).result.map
      (fun map => map.bind fun map => map[(0x41 : UInt32)]?) = .ok (some ⟨1, 500⟩) := by
    decide +kernel
  obtain ⟨map, run, here⟩ := map_eq_ok.1 found
  obtain ⟨map, rfl, entry⟩ := Option.bind_eq_some_iff.1 here
  refine ⟨map, run, ⟨fun i j before bound => ascending j bound i before, fun _ _ _ =>
    SegmentArrays.apart_of_filled fun i j before bound => ordered j bound i before⟩, ?_, ?_⟩
  · decide +kernel
  · rw [entry]
    rfl

end GlyphMap

end FontSubset
