import FontSubset.Proofs.Sfnt.ReadBack

/-!
# The layout of a font file

* `read_assemble`: the directory of an assembled file leads to its tables, whose regions are
  aligned, filled up with zeros, and apart from one another and from the directory.
-/

namespace FontSubset

/-! ## Filling -/

theorem mod_paddedLength (length : Nat) : paddedLength length % 4 = 0 :=
  Nat.mul_mod_left _ _

theorem Checksum.addWords_fill (sum : UInt32) (bytes : List UInt8) :
    addWords sum (bytes ++ List.replicate (paddedLength bytes.length - bytes.length) 0) =
      addWords sum bytes := by
  fun_induction addWords sum bytes with
  | case1 sum a b c d rest ih =>
    have step : paddedLength (rest.length + 4) - (rest.length + 4) =
        paddedLength rest.length - rest.length := by
      unfold paddedLength
      omega
    rw [← ih]
    simp only [List.length_cons, Nat.add_assoc, Nat.reduceAdd, step, List.cons_append, addWords]
  | case2 => simp [paddedLength, addWords]
  | case3 => simp [paddedLength, addWords, List.replicate]
  | case4 => simp [paddedLength, addWords, List.replicate]
  | case5 => simp [paddedLength, addWords]

theorem Table.checksum_padded (t : Table) :
    FontSubset.checksum t.padded = FontSubset.checksum t.body := by
  have fill := Checksum.addWords_fill 0 t.body.toList
  rw [Array.length_toList] at fill
  rwa [FontSubset.checksum, padded, Array.toList_append, Array.toList_replicate]

theorem Table.getElem?_padded (t : Table) {i : Nat} (behind : t.body.size ≤ i)
    (bound : i < paddedLength t.body.size) : t.padded[i]? = some 0 := by
  rw [padded, Array.getElem?_append_right behind, Array.getElem?_replicate, if_pos (by omega)]

/-! ## Regions -/

/-- Where the zeros behind a table end. -/
def TableRecord.paddedStop (r : TableRecord) : Nat := r.start + paddedLength r.length.toNat

/-- The record leads to the table, which begins at a whole word and is filled up with zeros. -/
structure Placed (data : Bytes) (t : Table) (r : TableRecord) : Prop extends Listed data t r where
  aligned : r.start % 4 = 0
  inside : r.paddedStop ≤ data.size
  filled : ∀ i, r.stop ≤ i → i < r.paddedStop → data[i]? = some 0
  summed : t = .ofBody t.tag t.body →
    r.checksum = FontSubset.checksum (data.extract r.start r.paddedStop)

theorem Listed.placed {data : Bytes} {t : Table} {r : TableRecord} (listed : Listed data t r)
    (aligned : r.start % 4 = 0) : Placed data t r := by
  have size : r.paddedStop = r.start + t.padded.size := by
    rw [TableRecord.paddedStop, listed.length, size_padded]
  refine ⟨listed, aligned, size ▸ listed.body.size_le, fun i behind before => ?_, fun own => ?_⟩
  · obtain ⟨k, rfl⟩ := Nat.exists_eq_add_of_le (Nat.le_trans (Nat.le_add_right _ _) behind)
    have body : t.body.size ≤ k := listed.length ▸ Nat.le_of_add_le_add_left behind
    have bound : k < t.padded.size := by
      rw [size] at before
      exact Nat.lt_of_add_lt_add_left before
    exact (listed.body.getElem? bound).trans (t.getElem?_padded body (size_padded t ▸ bound))
  · rw [listed.checksum, size, listed.body.extract_eq, Table.checksum_padded, own]
    rfl

theorem place_padded_aligned (tables : List Table) (index : Nat) :
    Bytes.place (tables.map Table.padded) index % 4 = 0 := by
  induction tables generalizing index with
  | nil => simp [Bytes.place, Bytes.concat_nil]
  | cons t rest ih =>
    cases index with
    | zero => rfl
    | succ index =>
      rw [List.map_cons, Bytes.place_cons, size_padded, Nat.add_mod, mod_paddedLength, ih]

section
variable {tables : List Table} {index : Nat}

theorem bodyOffset_aligned : bodyOffset tables index % 4 = 0 := by
  have := place_padded_aligned (sortedTables tables) index
  unfold bodyOffset directorySize
  omega

theorem directorySize_le_bodyOffset : directorySize tables.length ≤ bodyOffset tables index := by
  rw [bodyOffset, (sortedTables_perm tables).length_eq]
  exact Nat.le_add_right _ _

theorem bodyOffset_apart {t : Table} (found : (sortedTables tables)[index]? = some t)
    {later : Nat} (lt : index < later) :
    bodyOffset tables index + paddedLength t.body.size ≤ bodyOffset tables later := by
  have part : ((sortedTables tables).map Table.padded)[index]? = some t.padded := by simp [found]
  have next := Bytes.place_succ part
  have behind : index + 1 ≤ later := lt
  have mono := Bytes.place_mono ((sortedTables tables).map Table.padded) behind
  rw [size_padded] at next
  unfold bodyOffset
  omega

variable (small : (assemble tables).size < UInt32.size)
include small

theorem start_recordsOf {r : TableRecord} (found : (recordsOf tables)[index]? = some r) :
    r.start = bodyOffset tables index := by
  rw [recordsOf, List.getElem?_mapIdx, Option.map_eq_some_iff] at found
  obtain ⟨t, found, rfl⟩ := found
  exact toNat_bodyOffset small found

theorem placed_recordsOf :
    List.Forall₂ (Placed (assemble tables)) (sortedTables tables) (recordsOf tables) := by
  have listed := List.forall₂_iff_get.1 (listed_recordsOf small)
  refine List.forall₂_iff_get.2 ⟨listed.1, fun i bound bound' => ?_⟩
  refine (listed.2 i bound bound').placed ?_
  rw [List.get_eq_getElem, start_recordsOf small (List.getElem?_eq_getElem bound')]
  exact bodyOffset_aligned

theorem recordsOf_apart :
    (recordsOf tables).Pairwise fun r r' => r.paddedStop ≤ r'.start := by
  have listed := List.forall₂_iff_get.1 (listed_recordsOf small)
  refine List.pairwise_iff_getElem.2 fun i j boundI boundJ lt => ?_
  have boundT : i < (sortedTables tables).length := listed.1 ▸ boundI
  have length := (listed.2 i boundT boundI).length
  rw [List.get_eq_getElem, List.get_eq_getElem] at length
  rw [TableRecord.paddedStop, length, start_recordsOf small (List.getElem?_eq_getElem boundI),
    start_recordsOf small (List.getElem?_eq_getElem boundJ)]
  exact bodyOffset_apart (List.getElem?_eq_getElem boundT) lt

theorem directorySize_le_recordsOf {r : TableRecord} (mem : r ∈ recordsOf tables) :
    directorySize tables.length ≤ r.start := by
  obtain ⟨i, bound, rfl⟩ := List.getElem_of_mem mem
  rw [start_recordsOf small (List.getElem?_eq_getElem bound)]
  exact directorySize_le_bodyOffset

end

theorem sortedTables_pairwise (tables : List Table) :
    (sortedTables tables).Pairwise fun t t' => t.tag.code ≤ t'.tag.code := by
  have sorted : (sortedTables tables).Pairwise fun t t' => decide (t.tag.code ≤ t'.tag.code) := by
    apply List.pairwise_mergeSort
    · intro a b c
      simpa using UInt32.le_trans
    · intro a b
      simpa using UInt32.le_total a.tag.code b.tag.code
  simpa using sorted

/-- Each table of an assembled file has a record, and under its tag the last table with that tag is
found. -/
theorem read_assemble {tables : List Table} (few : tables.length < UInt16.size)
    (small : (assemble tables).size < UInt32.size) : ∃ sorted records,
      sorted.Perm tables ∧ sorted.Pairwise (fun t t' => t.tag.code ≤ t'.tag.code) ∧
      (List.range tables.length).mapM
        (fun i => TableRecord.read (assemble tables) (12 + 16 * i)) = .ok records ∧
      List.Forall₂ (Placed (assemble tables)) sorted records ∧
      (∀ r ∈ records, directorySize tables.length ≤ r.start) ∧
      records.Pairwise (fun r r' => r.paddedStop ≤ r'.start) ∧
      ∃ d, (Directory.read (assemble tables) 0).result = .ok d ∧
        d = .ofRecords .trueType 0 records ∧
        ∀ tag, Option.Rel (Placed (assemble tables)) (tables.reverse.find? (·.tag = tag))
          (d.table? tag) := by
  refine ⟨sortedTables tables, recordsOf tables, sortedTables_perm tables,
    sortedTables_pairwise tables, ?_, placed_recordsOf small,
    fun r => directorySize_le_recordsOf small, recordsOf_apart small, _, ?_, rfl, ?_⟩
  · rw [← (sortedTables_perm tables).length_eq]
    exact read_records tables
  · rw [Directory.result_read, parse_assemble_eq few]
  · exact table?_recordsOf (fun _ _ placed => placed.tag) (placed_recordsOf small)

/-- Two tables have the same tag, and none fills a whole number of words. -/
def repeatedTables : List Table :=
  [.ofBody .locations #[0, 0, 0, 4, 0], .ofBody .outlines #[1, 2, 3], ⟨.locations, 7, #[9]⟩]

theorem read_assemble_repeated : ∃ d r r',
    (Directory.read (assemble repeatedTables) 0).result = .ok d ∧
      d.table? .locations = some r ∧ r.checksum = 7 ∧
      r.body (assemble repeatedTables) = .ok #[9] ∧
      d.table? .outlines = some r' ∧ r'.body (assemble repeatedTables) = .ok #[1, 2, 3] ∧
      r'.checksum = checksum ((assemble repeatedTables).extract r'.start r'.paddedStop) := by
  have small : (assemble repeatedTables).size < UInt32.size := by
    rw [size_assemble]
    decide
  obtain ⟨_, _, -, -, -, -, -, -, d, read, -, found⟩ := read_assemble (by decide) small
  obtain ⟨r, listed, placed⟩ := rel_some_left.1 (found .locations)
  obtain ⟨r', listed', placed'⟩ := rel_some_left.1 (found .outlines)
  exact ⟨d, r, r', read, listed, placed.checksum, placed.body_eq, listed', placed'.body_eq,
    placed'.summed rfl⟩

end FontSubset
