import FontSubset.Proofs.Bytes
import FontSubset.Proofs.TableEntries
import FontSubset.Sfnt.Assembly
import FontSubset.Sfnt.Collection

/-!
# Reading back a font file

* `parse_assemble`: the directory of an assembled file is read back, and `table?` finds for each
  tag the last of the tables with that tag (`Listed`), or nothing.

Tables are found by their place in the file: the record of table `i` lies at `12 + 16 * i`
(`holds_record`), its body at `bodyOffset` (`holds_padded`).
-/

namespace FontSubset

/-! ## Lookup in a directory -/

@[simp] theorem Directory.result_read (data : Bytes) (offset : Nat) :
    (Directory.read data offset).result = Directory.parse data offset := by
  cases h : Directory.parse data offset <;> simp [Directory.read, h, Except.map]

theorem Directory.parse_eq_ok {data : Bytes} {offset : Nat} {d : Directory} :
    parse data offset = .ok d ↔ ∃ version flavor count records,
      data.Holds offset (be32 version) ∧ Flavor.ofVersion? version = some flavor ∧
      data.Holds (offset + 4) (be16 count) ∧
      (List.range count.toNat).mapM (fun i => TableRecord.read data (offset + 12 + 16 * i)) =
        .ok records ∧ d = ofRecords flavor offset records := by
  simp only [parse, bind_eq_ok, Bytes.u32At_eq_ok]
  constructor
  · rintro ⟨version, found, rest⟩
    cases known : Flavor.ofVersion? version with
    | none =>
      rw [known] at rest
      cases rest
    | some flavor =>
      simp only [known, bind_eq_ok, pure_eq_ok, Bytes.u16At_eq_ok] at rest
      obtain ⟨count, counted, records, listed, rfl⟩ := rest
      exact ⟨version, flavor, count, records, found, known, counted, listed, rfl⟩
  · rintro ⟨version, flavor, count, records, found, known, counted, listed, rfl⟩
    refine ⟨version, found, ?_⟩
    simp only [known, bind_eq_ok, pure_eq_ok, Bytes.u16At_eq_ok]
    exact ⟨count, counted, records, listed, rfl⟩

theorem Directory.offset_of_parse {data : Bytes} {offset : Nat} {d : Directory}
    (run : parse data offset = .ok d) : d.offset = offset := by
  obtain ⟨_, _, _, _, _, _, _, _, rfl⟩ := parse_eq_ok.1 run
  rfl

theorem Tag.code_inj {t t' : Tag} : t.code = t'.code ↔ t = t' := by
  cases t
  cases t'
  simp

theorem Directory.table?_ofRecords (flavor : Flavor) (offset : Nat) (records : List TableRecord)
    (tag : Tag) : (ofRecords flavor offset records).table? tag =
      records.reverse.find? (·.tag = tag) := by
  refine (getElem?_foldl_insert (·.tag.code) id records ∅ tag.code).trans ?_
  simp [Tag.code_inj]

theorem find?_rel {α β : Type} {R : α → β → Prop} {p : α → Bool} {q : β → Bool} {as : List α}
    {bs : List β} (same : ∀ a b, R a b → p a = q b) (h : List.Forall₂ R as bs) :
    Option.Rel R (as.find? p) (bs.find? q) := by
  induction h with
  | nil => exact .none
  | cons first _ ih =>
    rw [List.find?_cons, List.find?_cons, same _ _ first]
    split
    · exact .some first
    · exact ih

/-! ## The layout of a file -/

/-- The record leads to the table. -/
structure Listed (data : Bytes) (t : Table) (r : TableRecord) : Prop where
  tag : r.tag = t.tag
  checksum : r.checksum = t.checksum
  length : r.length.toNat = t.body.size
  body : data.Holds r.start t.padded

theorem Listed.holds {data : Bytes} {t : Table} {r : TableRecord} (listed : Listed data t r) :
    data.Holds r.start t.body :=
  listed.body.trans (Bytes.holds_append_left _ _)

theorem Listed.body_eq {data : Bytes} {t : Table} {r : TableRecord} (listed : Listed data t r) :
    r.body data = .ok t.body :=
  Bytes.slice_eq_ok.2 ⟨listed.holds, listed.length.symm⟩

/-- The tables in the order in which they are written. -/
def sortedTables (tables : List Table) : List Table :=
  tables.mergeSort fun a b => a.tag.code ≤ b.tag.code

theorem sortedTables_perm (tables : List Table) : (sortedTables tables).Perm tables :=
  List.mergeSort_perm tables _

theorem filter_tag_sortedTables (tables : List Table) (tag : Tag) :
    (sortedTables tables).filter (·.tag = tag) = tables.filter (·.tag = tag) := by
  have sub : (tables.filter (·.tag = tag)).Sublist (sortedTables tables) := by
    refine List.sublist_mergeSort ?_ ?_ ?_ List.filter_sublist
    · intro a b c
      simpa using UInt32.le_trans
    · intro a b
      simpa using UInt32.le_total a.tag.code b.tag.code
    · refine List.pairwise_of_forall_mem_list fun a memA b memB => ?_
      simp only [List.mem_filter, decide_eq_true_eq] at memA memB
      simp [memA.2, memB.2]
  have sub' := sub.filter (·.tag = tag)
  rw [List.filter_filter] at sub'
  refine (List.Sublist.eq_of_length (by simpa using sub') ?_).symm
  exact ((sortedTables_perm tables).filter (·.tag = tag)).length_eq.symm

theorem find?_tag_sortedTables (tables : List Table) (tag : Tag) :
    (sortedTables tables).reverse.find? (·.tag = tag) = tables.reverse.find? (·.tag = tag) := by
  rw [← List.head?_filter, ← List.head?_filter, List.filter_reverse, List.filter_reverse,
    filter_tag_sortedTables]

/-- The place of the body of table `index` in the file. -/
def bodyOffset (tables : List Table) (index : Nat) : Nat :=
  directorySize (sortedTables tables).length +
    Bytes.place ((sortedTables tables).map Table.padded) index

theorem getElem?_place (offset : Nat) (tables : List Table) (index : Nat) :
    (Table.place offset tables)[index]? = tables[index]?.map fun t =>
      (offset + Bytes.place (tables.map Table.padded) index, t) := by
  induction tables generalizing offset index with
  | nil => simp [Table.place]
  | cons t rest ih =>
    cases index with
    | zero => simp [Table.place]
    | succ index =>
      rw [Table.place, List.getElem?_cons_succ, ih, List.getElem?_cons_succ]
      simp only [List.map_cons, Bytes.place_cons, size_padded, Nat.add_assoc]

@[simp] theorem length_place (offset : Nat) (tables : List Table) :
    (Table.place offset tables).length = tables.length := by
  induction tables generalizing offset with
  | nil => rfl
  | cons t rest ih => rw [Table.place, List.length_cons, ih, List.length_cons]

/-- The records in the order in which they are written. -/
def recordBytes (tables : List Table) : List Bytes :=
  (Table.place (directorySize (sortedTables tables).length) (sortedTables tables)).map
    fun (offset, t) => t.record offset

theorem assemble_eq (tables : List Table) : assemble tables =
    Bytes.concat (fileHeader (sortedTables tables).length ::
      (recordBytes tables ++ (sortedTables tables).map Table.padded)) := rfl

@[simp] theorem size_fileHeader (count : Nat) : (fileHeader count).size = 12 := by
  simp [fileHeader, Bytes.concat_cons, Bytes.concat_nil]

@[simp] theorem size_record (t : Table) (offset : Nat) : (t.record offset).size = 16 := by
  simp [Table.record, Bytes.concat_cons, Bytes.concat_nil]

@[simp] theorem length_recordBytes (tables : List Table) :
    (recordBytes tables).length = (sortedTables tables).length := by
  simp [recordBytes]

theorem size_of_mem_recordBytes {tables : List Table} {part : Bytes}
    (mem : part ∈ recordBytes tables) : part.size = 16 := by
  obtain ⟨_, -, rfl⟩ := List.mem_map.1 mem
  exact size_record _ _

theorem size_assemble (tables : List Table) : (assemble tables).size =
    directorySize tables.length + (Bytes.concat (tables.map Table.padded)).size := by
  rw [assemble_eq, Bytes.concat_cons, Bytes.concat_append, Array.size_append, Array.size_append,
    size_fileHeader, Bytes.size_concat fun _ => size_of_mem_recordBytes, length_recordBytes,
    Bytes.size_concat_perm ((sortedTables_perm tables).map Table.padded),
    (sortedTables_perm tables).length_eq, ← Nat.add_assoc, directorySize]

theorem place_recordBytes {tables : List Table} {index : Nat}
    (bound : index ≤ (sortedTables tables).length) :
    Bytes.place (recordBytes tables) index = 16 * index := by
  exact Bytes.place_of_even (fun _ => size_of_mem_recordBytes) (by simpa using bound)

theorem holds_fileHeader (tables : List Table) :
    (assemble tables).Holds 0 (fileHeader (sortedTables tables).length) := by
  rw [assemble_eq]
  exact Bytes.holds_concat (List.getElem?_cons_zero)

section
variable {tables : List Table} {index : Nat} {t : Table}

theorem holds_record (found : (sortedTables tables)[index]? = some t) :
    (assemble tables).Holds (12 + 16 * index) (t.record (bodyOffset tables index)) := by
  have bound := (List.getElem?_eq_some_iff.1 found).1
  have record : (recordBytes tables)[index]? = some (t.record (bodyOffset tables index)) := by
    rw [recordBytes, List.getElem?_map, getElem?_place, found]
    rfl
  have part : (fileHeader (sortedTables tables).length ::
      (recordBytes tables ++ (sortedTables tables).map Table.padded))[index + 1]? =
        some (t.record (bodyOffset tables index)) := by
    rw [List.getElem?_cons_succ, List.getElem?_append_left (by simpa using bound), record]
  have here := Bytes.holds_concat part
  rwa [Bytes.place_cons, size_fileHeader,
    Bytes.place_append_left (by simpa using Nat.le_of_lt bound),
    place_recordBytes (Nat.le_of_lt bound), ← assemble_eq] at here

theorem holds_padded (found : (sortedTables tables)[index]? = some t) :
    (assemble tables).Holds (bodyOffset tables index) t.padded := by
  have part : (fileHeader (sortedTables tables).length ::
      (recordBytes tables ++ (sortedTables tables).map Table.padded))[
        (recordBytes tables).length + index + 1]? = some t.padded := by
    rw [List.getElem?_cons_succ, List.getElem?_append_right (Nat.le_add_right _ _)]
    simp [found]
  have here := Bytes.holds_concat part
  have records := place_recordBytes (Nat.le_refl (sortedTables tables).length)
  rw [Bytes.place, List.take_of_length_le (by simp)] at records
  rw [Bytes.place_cons, size_fileHeader, Bytes.place_append_right, records, ← assemble_eq,
    ← Nat.add_assoc] at here
  exact here

theorem holds_body (found : (sortedTables tables)[index]? = some t) :
    (assemble tables).Holds (bodyOffset tables index) t.body := by
  simpa using (holds_padded found).trans (Bytes.holds_append_left _ _)

end

/-! ## The directory of a file -/

theorem read_record {data : Bytes} {pos offset : Nat} {t : Table}
    (h : data.Holds pos (t.record offset)) : TableRecord.read data pos =
      .ok ⟨t.tag, t.checksum, UInt32.ofNat offset, UInt32.ofNat t.body.size⟩ := by
  have field (i : Nat) (bound : i < 4) : data.Holds (pos + 4 * i) [be32 t.tag.code,
      be32 t.checksum, be32 (UInt32.ofNat offset), be32 (UInt32.ofNat t.body.size)][i] := by
    have here := h.trans (Bytes.holds_concat (List.getElem?_eq_getElem bound))
    have place : Bytes.place [be32 t.tag.code, be32 t.checksum, be32 (UInt32.ofNat offset),
        be32 (UInt32.ofNat t.body.size)] i = 4 * i :=
      Bytes.place_of_even (by simp) (Nat.le_of_lt bound)
    rwa [place] at here
  have tag : data.tagAt pos = .ok t.tag := Bytes.tagAt_eq_ok.2 (field 0 (by decide))
  have checksum : data.u32At (pos + 4) = .ok t.checksum :=
    Bytes.u32At_eq_ok.2 (field 1 (by decide))
  have start : data.u32At (pos + 8) = .ok (UInt32.ofNat offset) :=
    Bytes.u32At_eq_ok.2 (field 2 (by decide))
  have length : data.u32At (pos + 12) = .ok (UInt32.ofNat t.body.size) :=
    Bytes.u32At_eq_ok.2 (field 3 (by decide))
  simp [TableRecord.read, tag, checksum, start, length]

theorem read_fileHeader {data : Bytes} {count : Nat} (h : data.Holds 0 (fileHeader count)) :
    data.u32At 0 = .ok Flavor.trueTypeVersion ∧ data.u16At 4 = .ok (UInt16.ofNat count) := by
  constructor
  · simpa using Bytes.u32At_eq_ok.2 (h.trans (Bytes.holds_concat List.getElem?_cons_zero))
  · have second := h.trans (Bytes.holds_concat
      (List.getElem?_cons_succ.trans List.getElem?_cons_zero))
    rw [Bytes.place_cons, Bytes.place_zero, Bytes.size_be32] at second
    exact Bytes.u16At_eq_ok.2 second

def recordsOf (tables : List Table) : List TableRecord :=
  (sortedTables tables).mapIdx fun index t =>
    ⟨t.tag, t.checksum, UInt32.ofNat (bodyOffset tables index), UInt32.ofNat t.body.size⟩

theorem read_records (tables : List Table) :
    (List.range (sortedTables tables).length).mapM
      (fun i => TableRecord.read (assemble tables) (12 + 16 * i)) = .ok (recordsOf tables) := by
  refine mapM_eq_ok.2 (List.forall₂_iff_get.2 ⟨by simp [recordsOf], fun i bound _ => ?_⟩)
  rw [List.length_range] at bound
  simpa [recordsOf] using read_record (holds_record (List.getElem?_eq_getElem bound))

theorem toNat_bodyOffset {tables : List Table} {index : Nat} {t : Table}
    (small : (assemble tables).size < UInt32.size)
    (found : (sortedTables tables)[index]? = some t) :
    (UInt32.ofNat (bodyOffset tables index)).toNat = bodyOffset tables index := by
  have fits := (holds_body found).size_le
  exact UInt32.toNat_ofNat_of_lt' (by omega)

theorem listed_recordsOf {tables : List Table}
    (small : (assemble tables).size < UInt32.size) :
    List.Forall₂ (Listed (assemble tables)) (sortedTables tables) (recordsOf tables) := by
  refine List.forall₂_iff_get.2 ⟨by simp [recordsOf], fun i bound _ => ?_⟩
  have padded := holds_padded (List.getElem?_eq_getElem bound)
  have fits := (holds_body (List.getElem?_eq_getElem bound)).size_le
  have offset := toNat_bodyOffset small (List.getElem?_eq_getElem bound)
  have length : (UInt32.ofNat (sortedTables tables)[i].body.size).toNat =
      (sortedTables tables)[i].body.size := UInt32.toNat_ofNat_of_lt' (by omega)
  simp only [recordsOf, List.get_eq_getElem, List.getElem_mapIdx]
  exact ⟨rfl, rfl, length, by rwa [TableRecord.start, offset]⟩

theorem parse_assemble_eq {tables : List Table} (few : tables.length < UInt16.size) :
    Directory.parse (assemble tables) 0 = .ok (.ofRecords .trueType 0 (recordsOf tables)) := by
  have length := (sortedTables_perm tables).length_eq
  have count : (UInt16.ofNat (sortedTables tables).length).toNat = (sortedTables tables).length :=
    UInt16.toNat_ofNat_of_lt' (length ▸ few)
  obtain ⟨version, number⟩ := read_fileHeader (holds_fileHeader tables)
  simp only [Directory.parse, version, number, ok_bind, Nat.zero_add, count, read_records]
  rfl

theorem directoryOffset_assemble (tables : List Table) :
    Collection.directoryOffset (assemble tables) none = .ok 0 := by
  have version := (read_fileHeader (holds_fileHeader tables)).1
  have plain : Collection.isCollection (assemble tables) = .ok false := by
    rw [Collection.isCollection, Bytes.tagAt, version]
    rfl
  rw [Collection.directoryOffset, plain]
  rfl

/-- What each table has in common with its record, the last one of each tag has with the one that
is found. -/
theorem table?_recordsOf {tables : List Table} {R : Table → TableRecord → Prop}
    (same : ∀ t r, R t r → r.tag = t.tag)
    (related : List.Forall₂ R (sortedTables tables) (recordsOf tables)) (tag : Tag) :
    Option.Rel R (tables.reverse.find? (·.tag = tag))
      ((Directory.ofRecords .trueType 0 (recordsOf tables)).table? tag) := by
  rw [Directory.table?_ofRecords, ← find?_tag_sortedTables]
  refine find?_rel (fun t r here => by rw [same t r here]) ?_
  exact List.forall₂_reverse_iff.2 related

/-- The directory of an assembled file lists its tables; of several tables with one tag, the last
one is found. -/
theorem parse_assemble {tables : List Table} (few : tables.length < UInt16.size)
    (small : (assemble tables).size < UInt32.size) :
    ∃ d, Directory.parse (assemble tables) 0 = .ok d ∧ d.flavor = .trueType ∧
      ∀ tag, Option.Rel (Listed (assemble tables)) (tables.reverse.find? (·.tag = tag))
        (d.table? tag) :=
  ⟨_, parse_assemble_eq few, rfl,
    table?_recordsOf (fun _ _ listed => listed.tag) (listed_recordsOf small)⟩

end FontSubset
