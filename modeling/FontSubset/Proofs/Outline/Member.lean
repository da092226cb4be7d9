import FontSubset.Proofs.Outline.Resubset
import FontSubset.Proofs.Sfnt.Layout

/-!
# Members of a collection

* `ofFile_member`: a member of a collection has the subsets that it has as a file of its own,
  whatever else the collection holds.

The collection has the bytes of the member but for the offsets in its directory, which count from
the start of the collection (`Contains`). What is read behind the directory is therefore found
`base` bytes further on (`MovedTo`), where the records of the tables lead (`TableRecord.Moved`).
-/

namespace FontSubset

namespace Bytes
variable {data data' part : Bytes} {start base pos : Nat}

/-! ## Parts that are moved -/

/-- What the first file holds from `start` on, the second one holds `base` bytes further on. -/
def MovedTo (data data' : Bytes) (start base : Nat) : Prop :=
  ∀ pos part, start ≤ pos → data.Holds pos part → data'.Holds (base + pos) part

namespace MovedTo
variable (moved : MovedTo data data' start base) (behind : start ≤ pos)
include moved behind

theorem slice {length : Nat} (run : data.slice pos length = .ok part) :
    data'.slice (base + pos) length = .ok part := by
  obtain ⟨holds, size⟩ := slice_eq_ok.1 run
  exact slice_eq_ok.2 ⟨moved _ _ behind holds, size⟩

theorem number_eq {width : Nat} (bound : pos + width ≤ data.size) :
    data'.number (base + pos) width = data.number pos width := by
  have there := moved _ _ behind (holds_extract bound)
  have size : (data.extract pos (pos + width)).size = width := by simp; omega
  have equal := there.extract_eq
  rw [size] at equal
  rw [number, equal, number]

theorem numbersAt {width count : Nat} {numbers : List Nat}
    (run : data.numbersAt pos width count = .ok numbers) :
    data'.numbersAt (base + pos) width count = .ok numbers := by
  unfold Bytes.numbersAt at run ⊢
  dsimp only at run ⊢
  split at run
  · rename_i fits
    -- Without numbers to read, `pos` may lie behind the end of the first file.
    rcases Nat.eq_zero_or_pos count with rfl | some
    · simpa using run
    · have positive : 0 < width := by
        rcases Nat.eq_zero_or_pos width with rfl | positive
        · simp at fits
          omega
        · exact positive
      have total : count * width ≤ data.size - pos := (Nat.le_div_iff_mul_le positive).1 fits
      have first : 1 * width ≤ count * width := Nat.mul_le_mul_right width some
      have bound : pos + count * width ≤ data.size := by omega
      have inside := (moved _ _ behind (holds_extract bound)).size_le
      rw [Array.size_extract] at inside
      rw [if_pos ((Nat.le_div_iff_mul_le positive).2 (by omega)), ← Except.ok.inj run]
      congr 1
      apply List.map_congr_left
      intro i mem
      have below := Nat.mul_le_mul_left width (Nat.succ_le_of_lt (List.mem_range.1 mem))
      rw [Nat.mul_comm width count, Nat.mul_succ] at below
      rw [Nat.add_assoc, number_eq moved (by omega) (by omega)]
  · cases run

theorem u16sAt {count : Nat} {fields : List UInt16} (run : data.u16sAt pos count = .ok fields) :
    data'.u16sAt (base + pos) count = .ok fields := by
  obtain ⟨numbers, found, rfl⟩ := map_eq_ok.1 run
  exact map_eq_ok.2 ⟨numbers, numbersAt moved behind found, rfl⟩

theorem u32sAt {count : Nat} {fields : List UInt32} (run : data.u32sAt pos count = .ok fields) :
    data'.u32sAt (base + pos) count = .ok fields := by
  obtain ⟨numbers, found, rfl⟩ := map_eq_ok.1 run
  exact map_eq_ok.2 ⟨numbers, numbersAt moved behind found, rfl⟩

end MovedTo

end Bytes

open Bytes

/-! ## Outlines that are moved -/

section
variable {data data' : Bytes} {start base pos : Nat} (moves : MovedTo data data' start base)
include moves

theorem Glyph.readAt_moved {g : GlyphId} {glyph : Glyph} (run : readAt data g pos = .ok glyph)
    (behind : start ≤ pos) : readAt data' g (base + pos) = .ok glyph := by
  refine readAt_transfer run fun offset field _ here => ?_
  rw [Nat.add_assoc]
  exact moves _ _ (by omega) here

theorem Glyph.read_moved {l : Locations} {g : GlyphId} {glyph : Glyph}
    (run : read data pos l g = .ok glyph) (behind : start ≤ pos) :
    read data' (base + pos) l g = .ok glyph := by
  unfold Glyph.read at run ⊢
  split at run
  · cases run
  · split at run
    · rename_i empty
      rwa [if_pos empty]
    · rename_i filled
      rw [if_neg filled]
      split at run
      · cases run
      · rename_i ordered
        rw [if_neg ordered, Nat.add_assoc]
        exact readAt_moved moves run (by omega)

theorem Locations.entries_moved {format : LocationFormat} {count : Nat} {offsets : List UInt32}
    (run : entries data format pos count = .ok offsets) (behind : start ≤ pos) :
    entries data' format (base + pos) count = .ok offsets := by
  cases format with
  | short =>
    obtain ⟨halves, found, rfl⟩ := map_eq_ok.1 run
    exact map_eq_ok.2 ⟨halves, moves.u16sAt behind found, rfl⟩
  | long => exact moves.u32sAt behind run

end

/-! ## Directories that are moved -/

namespace TableRecord

theorem read_eq_ok {data : Bytes} {pos : Nat} {r : TableRecord} :
    read data pos = .ok r ↔ data.Holds pos (be32 r.tag.code) ∧
      data.Holds (pos + 4) (be32 r.checksum) ∧ data.Holds (pos + 8) (be32 r.offset) ∧
        data.Holds (pos + 12) (be32 r.length) := by
  simp only [read, bind_eq_ok, pure_eq_ok, tagAt_eq_ok, u32At_eq_ok]
  constructor
  · rintro ⟨tag, first, checksum, second, offset, third, length, fourth, rfl⟩
    exact ⟨first, second, third, fourth⟩
  · rintro ⟨first, second, third, fourth⟩
    exact ⟨_, first, _, second, _, third, _, fourth, rfl⟩

/-- The records lead to the same table, which lies behind `start` in the first file. -/
structure Moved (start base : Nat) (r r' : TableRecord) : Prop where
  tag : r'.tag = r.tag
  checksum : r'.checksum = r.checksum
  length : r'.length = r.length
  behind : start ≤ r.start
  start : r'.start = base + r.start

end TableRecord

namespace Collection

/-- The number of tables that the directory at the start of a file announces. -/
def tableCount (font : Bytes) : Nat := (font.u16 4).toNat

/-- Where such a directory has the offset of a table. -/
def offsetField (index : Nat) : Nat := 12 + 16 * index + 8

/-- A font file all of whose tables lie behind its directory. -/
structure Plain (font : Bytes) : Prop where
  single : isCollection font = .ok false
  behind : ∀ i < tableCount font, directorySize (tableCount font) ≤ (font.u32 (offsetField i)).toNat

/-- The file has the bytes of the font at `base`, where the offsets of its tables count from the
start of the file. -/
structure Contains (file : Bytes) (base : Nat) (font : Bytes) : Prop where
  inside : base + font.size ≤ file.size
  copied : ∀ pos < font.size,
    (∀ i < tableCount font, pos < offsetField i ∨ offsetField i + 4 ≤ pos) →
      file[base + pos]? = font[pos]?
  offsets : ∀ i < tableCount font,
    (file.u32 (base + offsetField i)).toNat = base + (font.u32 (offsetField i)).toNat

/-- The file is a collection that has a directory at `base` for one of its members. -/
structure HasMember (file : Bytes) (index base : UInt32) : Prop where
  collection : isCollection file = .ok true
  counted : ∃ count, file.u32At 8 = .ok count ∧ index < count
  place : file.u32At (12 + 4 * index.toNat) = .ok base

theorem directoryOffset_plain {font : Bytes} (plain : Plain font) :
    directoryOffset font none = .ok 0 := by
  rw [directoryOffset, plain.single]
  rfl

theorem directoryOffset_member {file : Bytes} {index base : UInt32}
    (member : HasMember file index base) :
    directoryOffset file (some index) = .ok base.toNat := by
  obtain ⟨count, counted, below⟩ := member.counted
  simp [directoryOffset, member.collection, counted, UInt32.not_le.2 below, member.place]

section
variable {file font : Bytes} {base pos : Nat} (contains : Contains file base font)
include contains

/-- What lies between the offsets is copied. -/
theorem Contains.holds {part : Bytes} (holds : font.Holds pos part)
    (apart : ∀ i < tableCount font, pos + part.size ≤ offsetField i ∨ offsetField i + 4 ≤ pos) :
    file.Holds (base + pos) part := by
  have inside := contains.inside
  have bound := holds.size_le
  refine holds_of_getElem? (by omega) fun i below => ?_
  rw [← holds.getElem? below, Nat.add_assoc]
  refine contains.copied _ (by omega) fun j listed => ?_
  have := apart j listed
  omega

theorem Contains.movedTo : MovedTo font file (directorySize (tableCount font)) base := by
  intro pos part behind holds
  refine contains.holds holds fun i listed => .inr ?_
  unfold directorySize at behind
  unfold offsetField
  omega

theorem Contains.read_record {i : Nat} (listed : i < tableCount font) {r : TableRecord}
    (plain : Plain font) (run : TableRecord.read font (12 + 16 * i) = .ok r) :
    ∃ r', TableRecord.read file (base + (12 + 16 * i)) = .ok r' ∧
      r.Moved (directorySize (tableCount font)) base r' := by
  obtain ⟨tag, checksum, offset, length⟩ := TableRecord.read_eq_ok.1 run
  have apart (k : Nat) (part : k + 4 ≤ 8 ∨ 12 ≤ k ∧ k + 4 ≤ 16) : ∀ j < tableCount font,
      12 + 16 * i + k + 4 ≤ offsetField j ∨ offsetField j + 4 ≤ 12 + 16 * i + k := by
    intro j _
    unfold offsetField
    omega
  have fits := offset.size_le
  have inside := contains.inside
  rw [size_be32] at fits
  have old : font.u32 (offsetField i) = r.offset := by
    have here := u32At_eq_ok.2 offset
    rw [u32At_of_le fits] at here
    exact Except.ok.inj here
  have new := contains.offsets i listed
  have behind := plain.behind i listed
  rw [old] at new behind
  have offset' : file.Holds (base + offsetField i) (be32 (file.u32 (base + offsetField i))) :=
    u32At_eq_ok.1 (u32At_of_le (by unfold offsetField; omega))
  refine ⟨⟨r.tag, r.checksum, _, r.length⟩, TableRecord.read_eq_ok.2 ⟨?_, ?_, offset', ?_⟩,
    rfl, rfl, rfl, behind, new⟩
  · exact contains.holds tag (apart 0 (by omega))
  · exact contains.holds checksum (apart 4 (by omega))
  · exact contains.holds length (apart 12 (by omega))

theorem Contains.read_records {indices : List Nat} {records : List TableRecord}
    (plain : Plain font) (listed : ∀ i ∈ indices, i < tableCount font)
    (run : indices.mapM (fun i => TableRecord.read font (12 + 16 * i)) = .ok records) :
    ∃ records', indices.mapM (fun i => TableRecord.read file (base + (12 + 16 * i))) =
        .ok records' ∧
      List.Forall₂ (TableRecord.Moved (directorySize (tableCount font)) base) records records' := by
  rw [mapM_eq_ok] at run
  induction run with
  | nil => exact ⟨[], rfl, .nil⟩
  | cons first _ ih =>
    obtain ⟨here, others⟩ := List.forall_mem_cons.1 listed
    obtain ⟨r', read, moved⟩ := contains.read_record here plain first
    obtain ⟨records', reads, rest⟩ := ih others
    exact ⟨r' :: records', by simp [read, reads], .cons moved rest⟩

theorem Contains.parse {d : Directory} (plain : Plain font)
    (parsed : Directory.parse font 0 = .ok d) :
    ∃ d', Directory.parse file base = .ok d' ∧ d'.flavor = d.flavor ∧ ∀ tag,
      Option.Rel (TableRecord.Moved (directorySize (tableCount font)) base)
        (d.table? tag) (d'.table? tag) := by
  obtain ⟨version, flavor, count, records, found, known, counted, listed, rfl⟩ :=
    Directory.parse_eq_ok.1 parsed
  have early (i : Nat) : 12 ≤ offsetField i := by
    unfold offsetField
    omega
  have total : count.toNat = tableCount font := by
    have here := u16At_eq_ok.2 counted
    rw [u16At_of_le counted.size_le] at here
    exact congrArg UInt16.toNat (Except.ok.inj here).symm
  rw [total, Nat.zero_add] at listed
  obtain ⟨records', listed', moved⟩ :=
    contains.read_records plain (fun i mem => List.mem_range.1 mem) listed
  refine ⟨.ofRecords flavor base records', Directory.parse_eq_ok.2
    ⟨version, flavor, count, records', ?_, known, ?_, ?_, rfl⟩, rfl, fun tag => ?_⟩
  · refine contains.holds found fun i _ => .inl ?_
    rw [size_be32]
    exact Nat.le_trans (by decide) (early i)
  · rw [Nat.zero_add] at counted
    refine contains.holds counted fun i _ => .inl ?_
    rw [size_be16]
    exact Nat.le_trans (by decide) (early i)
  · simpa only [total, Nat.add_assoc] using listed'
  · rw [Directory.table?_ofRecords, Directory.table?_ofRecords]
    exact find?_rel (fun r r' same => by rw [same.tag]) (List.forall₂_reverse_iff.2 moved)

end

end Collection

/-! ## Subsets of a member -/

namespace Subset

section
variable {data data' : Bytes} {d d' : Directory} {start base offset : Nat}
  (moves : MovedTo data data' start base)
include moves

theorem copy_moved {tag : Tag} {r r' : TableRecord} {t : Table} (moved : r.Moved start base r')
    (run : copy data (tag, r) = .ok t) : copy data' (tag, r') = .ok t := by
  obtain ⟨body, bytes, rfl⟩ := map_eq_ok.1 run
  have there := moves.slice moved.behind bytes
  rw [← moved.start, ← moved.length] at there
  refine map_eq_ok.2 ⟨body, there, ?_⟩
  rw [moved.checksum]

variable (tables : ∀ tag, Option.Rel (TableRecord.Moved start base) (d.table? tag) (d'.table? tag))
include tables

theorem parse_moved {l : Locations} (located : Locations.parse data d = .ok l) :
    Locations.parse data' d' = .ok l := by
  obtain ⟨format, table, tabled, read⟩ := Locations.parse_eq_ok.1 located
  obtain ⟨header, flag, listed, holds, kind⟩ := Locations.format_eq_ok.1 format
  rw [Directory.require_eq_ok] at tabled listed
  have headers := tables .header
  have places := tables .locations
  rw [listed, rel_some_left] at headers
  rw [tabled, rel_some_left] at places
  obtain ⟨header', listed', movedHeader⟩ := headers
  obtain ⟨table', tabled', movedTable⟩ := places
  refine Locations.parse_eq_ok.2 ⟨Locations.format_eq_ok.2 ⟨header', flag,
    Directory.require_eq_ok.2 listed', ?_, kind⟩, table', Directory.require_eq_ok.2 tabled', ?_⟩
  · rw [movedHeader.start, Nat.add_assoc]
    exact moves _ _ (Nat.le_add_right_of_le movedHeader.behind) holds
  · rw [movedTable.start, movedTable.length]
    exact Locations.entries_moved moves read movedTable.behind

theorem preserves_moved {l : Locations} {table table' : TableRecord} {glyphs : GlyphSet}
    {options : SubsetOptions} {copied : List Table} (moved : table.Moved start base table')
    (located : ∀ g ∈ glyphs, ∃ outline, l.Locates data table g outline)
    (copying : (copyTables data d (options.tables.filter fun tag => ¬ isRebuilt tag)).result =
      .ok copied) :
    Preserves data d l table data' d' l table' glyphs options := by
  refine ⟨rfl, rfl, fun g mem => ?_, fun tag mem kept => ?_⟩
  · obtain ⟨outline, here⟩ := located g mem
    obtain ⟨start', stop, span, size, inside, holds⟩ := here
    refine ⟨outline, ⟨start', stop, span, size, inside, holds⟩, start', stop, span, size, ?_, ?_⟩
    · rwa [moved.length]
    · rw [moved.start, Nat.add_assoc]
      exact moves _ _ (Nat.le_add_right_of_le moved.behind) holds
  · have copy := find?_copied copying tag
    have records := tables tag
    rw [if_pos (by simp [mem, kept])] at copy
    rw [SameTable]
    cases found : d.table? tag with
    | none =>
      rw [found, rel_none_left] at records
      rw [records]
      exact .none
    | some r =>
      rw [found, rel_some_left] at copy records
      obtain ⟨t, -, copied⟩ := copy
      obtain ⟨r', found', moved'⟩ := records
      rw [found', rel_some_left]
      exact ⟨r', rfl, by rw [copied, copy_moved moves moved' copied]⟩

end

theorem Opened.member {font file : Bytes} {base : Nat} {d : Directory} {l : Locations}
    {table : TableRecord} (opened : Opened font 0 d l table) (plain : Collection.Plain font)
    (contains : Collection.Contains file base font) :
    ∃ d' table', Opened file base d' l table' ∧
      table.Moved (directorySize (Collection.tableCount font)) base table' ∧
      ∀ tag, Option.Rel (TableRecord.Moved (directorySize (Collection.tableCount font)) base)
        (d.table? tag) (d'.table? tag) := by
  obtain ⟨d', parsed', flavor', tables⟩ := contains.parse plain opened.parsed
  obtain ⟨header, listed⟩ := Option.isSome_iff_exists.1 opened.header
  have headers := tables .header
  have outlines := tables .outlines
  rw [listed, rel_some_left] at headers
  rw [opened.tabled, rel_some_left] at outlines
  obtain ⟨header', listed', -⟩ := headers
  obtain ⟨table', tabled', moved⟩ := outlines
  have located' := parse_moved contains.movedTo tables opened.located
  exact ⟨d', table', ⟨parsed', flavor' ▸ opened.flavor, by rw [listed']; rfl, located', tabled'⟩,
    moved, tables⟩

theorem ofFontAt_member {font file : Bytes} {base : Nat} {used : GlyphSet}
    {options : SubsetOptions} {s : Subset} (plain : Collection.Plain font)
    (contains : Collection.Contains file base font)
    (run : (ofFontAt font 0 used options).result = .ok s) :
    (ofFontAt file base used options).result = .ok s := by
  obtain ⟨d, header, l, table, rebuilt, parsed, flavor, listed, located, tabled, closed, built,
    written, -⟩ := ofFontAt_eq_ok.1 run
  have opened : Opened font 0 d l table := ⟨parsed, flavor, by rw [listed]; rfl, located, tabled⟩
  obtain ⟨d', table', opened', moved, tables⟩ := opened.member plain contains
  obtain ⟨copied, copying, -⟩ := write_eq_ok.1 written
  obtain ⟨pieces, made, -⟩ := RebuiltOutlines.rebuildOutlines_eq_ok.1 built
  have outline (g : GlyphId) (mem : g ∈ s.retained) :
      ∃ outline, l.Locates font table g outline := by
    have bound := lt_count_of_mem_closure closed mem
    obtain ⟨bytes, -, piece⟩ := made.getElem? (Nat.lt_of_lt_of_le bound (Nat.sub_le _ _))
    exact ⟨bytes, RebuiltOutlines.locates_of_piece mem piece⟩
  have preserves := preserves_moved contains.movedTo tables moved outline copying
  -- The member preserves the font for the very glyphs that were used, so the subset is the same.
  obtain ⟨s', here, there⟩ := preserves.ofFontAt_ok_of_read opened opened' run
    (fun g _ glyph read => by
      rw [moved.start]
      exact Glyph.read_moved contains.movedTo read moved.behind)
    (fun g bound mem => (glyphClosure_closed closed).1.seeds g bound (.inr mem))
  cases run.symm.trans here
  exact there

theorem ofFile_member {font file : Bytes} {index base : UInt32} {used : GlyphSet}
    {options : SubsetOptions} {s : Subset} (plain : Collection.Plain font)
    (run : (ofFile font none used options).result = .ok s)
    (member : Collection.HasMember file index base)
    (contains : Collection.Contains file base.toNat font) :
    (ofFile file (some index) used options).result = .ok s := by
  simp only [ofFile, Traced.result_bind, Traced.result_lift, ok_bind,
    Collection.directoryOffset_plain plain, Collection.directoryOffset_member member] at run ⊢
  exact ofFontAt_member plain contains run

/-! ## A member of a sample collection -/

theorem nestedFont_plain : Collection.Plain Sample.nestedFont :=
  ⟨by decide +kernel, by decide +kernel⟩

theorem nestedCollection_hasMember : Collection.HasMember Sample.nestedCollection 1 24 :=
  ⟨by decide +kernel, ⟨2, by decide +kernel⟩, by decide +kernel⟩

theorem nestedCollection_contains :
    Collection.Contains Sample.nestedCollection 24 Sample.nestedFont :=
  ⟨by decide +kernel, by decide +kernel, by decide +kernel⟩

theorem nestedCollection_member : ∃ s,
    (ofFile Sample.nestedFont none nestedUsed .minimal).result = .ok s ∧
      (ofFile Sample.nestedCollection (some 1) nestedUsed .minimal).result = .ok s := by
  obtain ⟨_, _, _, _, _, _, run, -⟩ := nestedFont_ofFile
  exact ⟨_, run, ofFile_member nestedFont_plain run nestedCollection_hasMember
    nestedCollection_contains⟩

end Subset

end FontSubset
