import FontSubset.CharacterMap.Basic
import FontSubset.Proofs.CharacterMap.Segments
import FontSubset.Sample.CharacterMap

/-!
# Symbol encodings

A symbol font has its glyphs at the codes from F000 to F0FF, and text reaches them by their low byte
as well.

* `CharacterMaps.lookup_symbol_iff`: both codes of a byte are shown with the same glyph, which is the
  assigned one if the subtable has format 4. Formats 6 and 12 are read without the low bytes, and
  their symbols are not found at all.
-/

namespace FontSubset

/-- The code of a byte in a symbol font. -/
def symbolCode (byte : UInt8) : UInt32 :=
  0xF000 + byte.toUInt32

theorem toNat_symbolCode (byte : UInt8) : (symbolCode byte).toNat = 0xF000 + byte.toNat := by
  have bound := byte.toNat_lt
  simp only [symbolCode, UInt32.toNat_add, UInt8.toNat_toUInt32, UInt32.reduceToNat]
  omega

theorem toNat_eq_of_symbolCode {code : UInt16} {byte : UInt8}
    (same : code.toUInt32 = symbolCode byte) : code.toNat = 0xF000 + byte.toNat := by
  rw [← toNat_symbolCode, ← same, UInt16.toNat_toUInt32]

theorem lowByte_ne (byte byte' : UInt8) : byte.toUInt32 ≠ symbolCode byte' := by
  intro same
  have := congrArg UInt32.toNat same
  rw [toNat_symbolCode, UInt8.toNat_toUInt32] at this
  have := byte.toNat_lt
  omega

/-! ## Subtables as their formats describe them -/

/-- The formats of a subtable that can hold symbols. -/
inductive SymbolFormat
  | segments
  | trimmed
  | groups
  deriving DecidableEq

def SymbolFormat.number : SymbolFormat → UInt16
  | segments => 4
  | trimmed => 6
  | groups => 12

/-- The subtable at `pos` gives the code `c` the glyph `g`. -/
inductive Assigns (data : Bytes) (pos : Nat) (c : UInt32) (g : GlyphId) : SymbolFormat → Prop
  | segments {i : Nat} {code : UInt16} (covers : (SegmentArrays.ofBytes data pos).Covers i code)
      (entry : (SegmentArrays.ofBytes data pos).HasEntry i code) (same : code.toUInt32 = c)
      (glyph : (SegmentArrays.ofBytes data pos).glyphIn i code = g) : Assigns data pos c g .segments
  | trimmed {k : Nat} (bound : k < (data.u16 (pos + 8)).toNat)
      (same : (data.u16 (pos + 6)).toUInt32 + UInt32.ofNat k = c)
      (glyph : data.u16 (pos + 10 + 2 * k) = g) : Assigns data pos c g .trimmed
  | groups {i k : Nat} (bound : i < (data.u32 (pos + 12)).toNat)
      (inside : (data.u32 (pos + 16 + 12 * i)).toNat + k ≤
        (data.u32 (pos + 16 + 12 * i + 4)).toNat)
      (same : data.u32 (pos + 16 + 12 * i) + UInt32.ofNat k = c)
      (glyph : UInt16.ofNat ((data.u32 (pos + 16 + 12 * i + 8)).toNat + k) = g) :
      Assigns data pos c g .groups

/-- The fields of the subtable at `pos` lie within the data, and segments follow one another. -/
inductive WellFormed (data : Bytes) (pos : Nat) : SymbolFormat → Prop
  | segments (fields : 16 + 8 * (SegmentArrays.ofBytes data pos).count ≤ (data.u16 (pos + 2)).toNat)
      (inside : pos + (data.u16 (pos + 2)).toNat ≤ data.size)
      (ordered : (SegmentArrays.ofBytes data pos).Ordered) : WellFormed data pos .segments
  | trimmed (inside : pos + 10 + 2 * (data.u16 (pos + 8)).toNat ≤ data.size) :
      WellFormed data pos .trimmed
  | groups (inside : pos + 16 + 12 * (data.u32 (pos + 12)).toNat ≤ data.size) :
      WellFormed data pos .groups

/-- The subtable at `pos` assigns glyphs to the codes of bytes, and to no others but FFFF, which
marks the end of segments. Codes in between may be given glyph 0. -/
structure SymbolEncoding (data : Bytes) (pos : Nat) (format : SymbolFormat)
    (assigned : UInt8 → Option GlyphId) : Prop where
  number : data.u16At pos = .ok format.number
  wellFormed : WellFormed data pos format
  assigns : ∀ byte glyph, assigned byte = some glyph →
    Assigns data pos (symbolCode byte) glyph format
  only : ∀ c glyph, Assigns data pos c glyph format →
    c = 0xFFFF ∨ ∃ byte, c = symbolCode byte ∧ (assigned byte).getD 0 = glyph

/-! ## Segments that stand for low bytes -/

namespace SegmentArrays
variable {a : SegmentArrays} {i : Nat}

variable (a) in
/-- The codes of all segments, each with its segment, in the order in which they are read. -/
def visits : List (Nat × Nat) :=
  (List.range a.count).flatMap fun i => (SegmentMap.codes (a.segment i)).map (i, ·)

variable (a) in
/-- What a symbol font assigns for a code that is read. -/
def emitted (visit : Nat × Nat) : List Assignment :=
  match a.toMap.glyph? visit.1 (a.segment visit.1) visit.2 with
  | none => []
  | some glyph =>
    let low := if visit.2 / 256 = 0xF0 then [(UInt32.ofNat (visit.2 % 256), glyph)] else []
    low ++ [(UInt32.ofNat visit.2, glyph)]

theorem assignments_eq : a.toMap.assignments true = a.visits.flatMap a.emitted := by
  have segments : a.toMap.segments.mapIdx (a.toMap.segmentAssignments true) =
      (List.range a.count).map fun i => a.toMap.segmentAssignments true i (a.segment i) := by
    apply List.ext_getElem
    · simp [toMap]
    · simp [toMap]
  -- Both sides go through the segments, and through the codes of each.
  rw [SegmentMap.assignments, segments, ← List.flatMap_def, visits, List.flatMap_assoc]
  apply List.flatMap_congr
  intro i _
  rw [List.flatMap_map]
  apply List.flatMap_congr
  intro code _
  unfold emitted
  cases a.toMap.glyph? i (a.segment i) code <;> simp

theorem mem_visits {code : Nat} : (i, code) ∈ a.visits ↔
    i < a.count ∧ (a.first i).toNat ≤ code ∧ code ≤ (a.last i).toNat := by
  simp [visits, SegmentMap.mem_codes, segment]

theorem lt_size_of_mem_visits {visit : Nat × Nat} (mem : visit ∈ a.visits) :
    visit.2 < UInt16.size := by
  obtain ⟨i, code⟩ := visit
  exact Nat.lt_of_le_of_lt (mem_visits.1 mem).2.2 (a.last i).toNat_lt

theorem Ordered.pairwise_visits (ordered : a.Ordered) :
    a.visits.Pairwise fun v w => v.2 < w.2 := by
  rw [visits, List.pairwise_flatMap]
  constructor
  · intro i _
    simp only [SegmentMap.codes, List.pairwise_map]
    exact List.pairwise_lt_range.imp fun before => Nat.add_lt_add_left before _
  · apply List.pairwise_lt_range.imp_of_mem
    intro i j _ bound before v here w there
    have apart := UInt16.lt_iff_toNat_lt.1 (ordered i j before (List.mem_range.1 bound))
    obtain ⟨code, inside, rfl⟩ := List.mem_map.1 here
    obtain ⟨code', inside', rfl⟩ := List.mem_map.1 there
    have ends := (SegmentMap.mem_codes.1 inside).2
    have begins := (SegmentMap.mem_codes.1 inside').1
    exact Nat.lt_of_le_of_lt ends (Nat.lt_of_lt_of_le apart begins)

theorem code_of_mem_emitted {visit : Nat × Nat} {c : UInt32} {g : GlyphId}
    (bound : visit.2 < UInt16.size) (mem : (c, g) ∈ a.emitted visit) :
    c.toNat = visit.2 ∨ c.toNat < 256 ∧ 0xF000 + c.toNat = visit.2 := by
  unfold emitted at mem
  split at mem
  · cases mem
  · rcases List.mem_append.1 mem with low | whole
    · split at low
      · rename_i high
        cases List.mem_singleton.1 low
        right
        rw [UInt32.toNat_ofNat_of_lt' (by unfold UInt32.size; omega)]
        omega
      · cases low
    · cases List.mem_singleton.1 whole
      left
      exact UInt32.toNat_ofNat_of_lt' (Nat.lt_trans bound (by decide))

theorem toNat_ne_of_later {visit : Nat × Nat} {byte : UInt8} {c : UInt32} {g : GlyphId}
    (bound : visit.2 < UInt16.size) (later : 0xF000 + byte.toNat < visit.2)
    (mem : (c, g) ∈ a.emitted visit) :
    c.toNat ≠ byte.toNat ∧ c.toNat ≠ 0xF000 + byte.toNat := by
  have := code_of_mem_emitted bound mem
  omega

theorem emitted_symbol {code : UInt16} {byte : UInt8} (here : a.Covers i code)
    (entry : a.HasEntry i code) (same : code.toUInt32 = symbolCode byte) :
    a.emitted (i, code.toNat) =
      [(byte.toUInt32, a.glyphIn i code), (symbolCode byte, a.glyphIn i code)] := by
  have number := toNat_eq_of_symbolCode same
  have bound := byte.toNat_lt
  have high : code.toNat / 256 = 0xF0 := by omega
  have low : code.toNat % 256 = byte.toNat := by omega
  have lowCode : UInt32.ofNat byte.toNat = byte.toUInt32 := by
    rw [← UInt8.toNat_toUInt32, UInt32.ofNat_toNat]
  have wholeCode : UInt32.ofNat code.toNat = symbolCode byte := by
    rw [← same, ← UInt16.toNat_toUInt32, UInt32.ofNat_toNat]
  simp [emitted, glyph?_eq here, entry, high, low, lowCode, wholeCode]

/-- What is read later does not touch the two codes of a byte. -/
theorem Ordered.exists_split (ordered : a.Ordered) {code : UInt16} {byte : UInt8}
    (here : a.Covers i code) (entry : a.HasEntry i code)
    (same : code.toUInt32 = symbolCode byte) :
    ∃ front back, a.toMap.assignments true = front ++
        [(byte.toUInt32, a.glyphIn i code), (symbolCode byte, a.glyphIn i code)] ++ back ∧
      ∀ g, (byte.toUInt32, g) ∉ back ∧ (symbolCode byte, g) ∉ back := by
  have visit : (i, code.toNat) ∈ a.visits := mem_visits.2
    ⟨here.1, UInt16.le_iff_toNat_le.1 here.2.1, UInt16.le_iff_toNat_le.1 here.2.2⟩
  obtain ⟨before, behind, split⟩ := List.append_of_mem visit
  refine ⟨before.flatMap a.emitted, behind.flatMap a.emitted, ?_, ?_⟩
  · rw [assignments_eq, split, List.flatMap_append, List.flatMap_cons,
      emitted_symbol here entry same, List.append_assoc]
  · -- What comes behind has greater codes, so neither they nor their low bytes are the two codes.
    have ascending := ordered.pairwise_visits
    rw [split, List.pairwise_append, List.pairwise_cons] at ascending
    obtain ⟨-, ⟨later, -⟩, -⟩ := ascending
    have outside {c : UInt32} {g : GlyphId} (mem : (c, g) ∈ behind.flatMap a.emitted) :
        c.toNat ≠ byte.toNat ∧ c.toNat ≠ 0xF000 + byte.toNat := by
      obtain ⟨visit, there, mem⟩ := List.mem_flatMap.1 mem
      have visited : visit ∈ a.visits := by simp [split, there]
      have after : 0xF000 + byte.toNat < visit.2 := toNat_eq_of_symbolCode same ▸ later visit there
      exact toNat_ne_of_later (lt_size_of_mem_visits visited) after mem
    intro g
    constructor
    · intro mem
      exact (outside mem).1 (UInt8.toNat_toUInt32 byte)
    · intro mem
      exact (outside mem).2 (toNat_symbolCode byte)

end SegmentArrays

/-! ## Subtables as they are read -/

namespace GlyphMap
variable {data : Bytes} {pos : Nat} {widths : GlyphWidths} {assignments : List Assignment}

theorem getElem?_of_last {front back : List Assignment} {c : UInt32} {g : GlyphId}
    (last : ∀ g', (c, g') ∉ back) :
    (ofAssignments widths (front ++ (c, g) :: back))[c]? = some (widths.metric g) := by
  have bare : back.reverse.find? (fun a => a.1 = c) = none := by
    rw [List.find?_eq_none]
    rintro ⟨c', g'⟩ mem same
    cases of_decide_eq_true same
    exact last g' (List.mem_reverse.1 mem)
  rw [ofAssignments, getElem?_assign]
  simp [bare]

theorem mem_of_getElem?_assign {map : GlyphMap} {c : UInt32} {metric : GlyphMetric}
    (found : (assign widths map assignments)[c]? = some metric) :
    (∃ g, (c, g) ∈ assignments) ∨ map[c]? = some metric := by
  rw [getElem?_assign, Option.or_eq_some_iff, Option.map_eq_some_iff] at found
  rcases found with ⟨⟨c', g⟩, last, -⟩ | ⟨-, before⟩
  · have same : c' = c := by simpa using List.find?_some last
    subst same
    exact .inl ⟨g, List.mem_reverse.1 (List.mem_of_find?_eq_some last)⟩
  · exact .inr before

theorem read_segments (number : data.u16At pos = .ok 4)
    (fields : 16 + 8 * (SegmentArrays.ofBytes data pos).count ≤ (data.u16 (pos + 2)).toNat)
    (inside : pos + (data.u16 (pos + 2)).toNat ≤ data.size) (symbol : Bool) :
    (read data pos widths symbol).result =
      .ok (some (ofAssignments widths
        ((SegmentArrays.ofBytes data pos).toMap.assignments symbol))) := by
  have readable : ∃ m, SegmentMap.read data pos = .ok m := by
    have count : (SegmentArrays.ofBytes data pos).count = (data.u16 (pos + 6)).toNat / 2 := rfl
    rw [count] at fields
    unfold SegmentMap.read
    rw [Bytes.u16At_of_le (by omega), ok_bind, Bytes.u16At_of_le (by omega), ok_bind]
    dsimp only
    rw [Bytes.u16sAt_of_le (by omega), ok_bind, Bytes.u16sAt_of_le (by omega), ok_bind,
      Bytes.u16sAt_of_le (by omega), ok_bind, Bytes.u16sAt_of_le (by omega), ok_bind,
      Bytes.u16sAt_of_le (by omega), ok_bind]
    exact ⟨_, rfl⟩
  obtain ⟨m, run⟩ := readable
  rw [result_read_segments symbol number, run, SegmentArrays.eq_of_read run]
  rfl

theorem read_trimmed (number : data.u16At pos = .ok 6)
    (run : TrimmedMap.read data pos = .ok assignments) (symbol : Bool) :
    (read data pos widths symbol).result = .ok (some (ofAssignments widths assignments)) := by
  simp [read, number, run, Except.map]

theorem exists_read_trimmed (number : data.u16At pos = .ok 6)
    (inside : pos + 10 + 2 * (data.u16 (pos + 8)).toNat ≤ data.size) (symbol : Bool) :
    ∃ map, (read data pos widths symbol).result = .ok (some map) ∧
      ∀ c metric, map[c]? = some metric → ∃ g, Assigns data pos c g .trimmed := by
  have run : TrimmedMap.read data pos = .ok (consecutive (data.u16 (pos + 6)).toUInt32
      ((List.range (data.u16 (pos + 8)).toNat).map fun k => data.u16 (pos + 10 + 2 * k))) := by
    unfold TrimmedMap.read
    rw [Bytes.u16At_of_le (by omega), ok_bind, Bytes.u16At_of_le (by omega), ok_bind,
      Bytes.u16sAt_of_le inside, ok_bind]
    rfl
  refine ⟨_, read_trimmed number run symbol, ?_⟩
  intro c metric found
  obtain ⟨g, mem⟩ | none := mem_of_getElem?_assign found
  · obtain ⟨k, bound, same⟩ := List.mem_mapIdx.1 mem
    rw [List.length_map, List.length_range] at bound
    simp only [List.getElem_map, List.getElem_range, Prod.mk.injEq] at same
    exact ⟨g, .trimmed bound same.1 same.2⟩
  · simp at none

theorem readGroup_of_le {p : Nat} (bound : p + 12 ≤ data.size) :
    Group.read data p = .ok ⟨data.u32 p, data.u32 (p + 4), data.u32 (p + 8)⟩ := by
  unfold Group.read
  rw [Bytes.u32At_of_le (by omega), ok_bind, Bytes.u32At_of_le (by omega), ok_bind,
    Bytes.u32At_of_le (by omega), ok_bind]
  rfl

theorem mem_of_getElem?_addTo {g : Group} {map : GlyphMap} {c : UInt32} {metric : GlyphMetric}
    (found : (g.addTo widths map).value[c]? = some metric) :
    (∃ k, g.first.toNat + k ≤ g.last.toNat ∧ g.first + UInt32.ofNat k = c) ∨
      map[c]? = some metric := by
  have value : (g.addTo widths map).value = map ∨
      (g.addTo widths map).value = map.assign widths g.assignments := by
    unfold Group.addTo
    split
    · exact .inl rfl
    · right
      dsimp only
      split <;> rfl
  rcases value with same | same
  · rw [same] at found
    exact .inr found
  · rw [same] at found
    refine (mem_of_getElem?_assign found).imp_left ?_
    rintro ⟨glyph, mem⟩
    obtain ⟨k, bound, same⟩ := List.mem_map.1 mem
    have below := Nat.lt_of_lt_of_le (List.mem_range.1 bound) (Nat.min_le_left _ _)
    rw [Group.size] at below
    exact ⟨k, by omega, (Prod.mk.inj same).1⟩

theorem exists_readMap (widths : GlyphWidths)
    (inside : pos + 16 + 12 * (data.u32 (pos + 12)).toNat ≤ data.size) :
    ∃ map, (Group.readMap data pos widths).result = .ok map ∧
      ∀ c metric, map[c]? = some metric → ∃ g, Assigns data pos c g .groups := by
  unfold Group.readMap
  rw [Traced.result_bind, Traced.result_lift, Bytes.u32At_of_le (by omega), ok_bind]
  apply Traced.exists_loop_eq_ok fun map : GlyphMap =>
    ∀ c metric, map[c]? = some metric → ∃ g, Assigns data pos c g .groups
  · intro c metric found
    simp at found
  · intro map i bound kept
    rw [Traced.result_bind, Traced.result_lift, readGroup_of_le (by omega), ok_bind]
    refine ⟨_, rfl, ?_⟩
    intro c metric found
    rcases mem_of_getElem?_addTo found with ⟨k, covered, same⟩ | before
    · exact ⟨_, .groups bound covered same rfl⟩
    · exact kept c metric before

theorem exists_read_groups (number : data.u16At pos = .ok 12)
    (inside : pos + 16 + 12 * (data.u32 (pos + 12)).toNat ≤ data.size) (symbol : Bool) :
    ∃ map, (read data pos widths symbol).result = .ok (some map) ∧
      ∀ c metric, map[c]? = some metric → ∃ g, Assigns data pos c g .groups := by
  obtain ⟨map, run, kept⟩ := exists_readMap widths inside
  exact ⟨map, by simp [read, number, run, Except.map], kept⟩

end GlyphMap

/-! ## The glyphs of symbols -/

namespace SymbolEncoding
variable {data : Bytes} {pos : Nat} {format : SymbolFormat}
  {assigned : UInt8 → Option GlyphId}

theorem lowByte_unassigned (encoding : SymbolEncoding data pos format assigned) (byte : UInt8)
    (g : GlyphId) : ¬ Assigns data pos byte.toUInt32 g format := by
  intro given
  rcases encoding.only _ _ given with endMark | ⟨byte', same, -⟩
  · have := congrArg UInt32.toNat endMark
    rw [UInt8.toNat_toUInt32] at this
    have := byte.toNat_lt
    simp only [UInt32.reduceToNat] at *
    omega
  · exact lowByte_ne byte byte' same

/-- The map that is read has the low bytes of the symbols if they are in segments, and no code of
a single byte otherwise. -/
theorem exists_read (encoding : SymbolEncoding data pos format assigned) (widths : GlyphWidths) :
    ∃ map, (GlyphMap.read data pos widths true).result = .ok (some map) ∧
      ∀ byte : UInt8, if format = .segments then
          ∀ glyph, assigned byte = some glyph → map[byte.toUInt32]? = some (widths.metric glyph)
        else map[byte.toUInt32]? = none := by
  have bare {map : GlyphMap} (kept : ∀ c metric, map[c]? = some metric →
      ∃ g, Assigns data pos c g format) (byte : UInt8) : map[byte.toUInt32]? = none := by
    cases found : map[byte.toUInt32]? with
    | none => rfl
    | some metric =>
      obtain ⟨g, given⟩ := kept _ _ found
      exact absurd given (encoding.lowByte_unassigned byte g)
  have number := encoding.number
  cases encoding.wellFormed with
  | segments fields inside ordered =>
    refine ⟨_, GlyphMap.read_segments number fields inside true, ?_⟩
    intro byte
    rw [if_pos rfl]
    intro glyph given
    cases encoding.assigns byte glyph given with
    | segments covers entry same known =>
      obtain ⟨front, back, split, last⟩ := ordered.exists_split covers entry same
      rw [split, known, List.append_assoc]
      apply GlyphMap.getElem?_of_last
      intro g mem
      rcases List.mem_cons.1 mem with here | there
      · exact lowByte_ne byte byte (Prod.mk.inj here).1
      · exact (last g).1 there
  | trimmed inside =>
    obtain ⟨map, run, kept⟩ := GlyphMap.exists_read_trimmed number inside true
    exact ⟨map, run, bare kept⟩
  | groups inside =>
    obtain ⟨map, run, kept⟩ := GlyphMap.exists_read_groups number inside true
    exact ⟨map, run, bare kept⟩

end SymbolEncoding

namespace CharacterMaps

theorem byteOf?_lowByte (byte : UInt8) : byteOf? byte.toUInt32 = some byte.toUInt32 := by
  have each : ∀ n : Fin 256, byteOf? (UInt8.ofFin n).toUInt32 = some (UInt8.ofFin n).toUInt32 := by
    decide +kernel
  exact each byte.toFin

theorem byteOf?_symbolCode (byte : UInt8) : byteOf? (symbolCode byte) = some byte.toUInt32 := by
  have each : ∀ n : Fin 256,
      byteOf? (symbolCode (UInt8.ofFin n)) = some (UInt8.ofFin n).toUInt32 := by
    decide +kernel
  exact each byte.toFin

/-- The maps of a font with a symbol subtable. -/
def ofSymbols (map : GlyphMap) (unicode : Option GlyphMap) : CharacterMaps :=
  ⟨some map, unicode, none, true, false⟩

@[simp] theorem lookup_lowByte (map : GlyphMap) (unicode : Option GlyphMap) (byte : UInt8) :
    (ofSymbols map unicode).lookup byte.toUInt32 = map[byte.toUInt32]? := by
  simp [ofSymbols, lookup, byteOf?_lowByte]

@[simp] theorem lookup_symbolCode (map : GlyphMap) (unicode : Option GlyphMap) (byte : UInt8) :
    (ofSymbols map unicode).lookup (symbolCode byte) = map[byte.toUInt32]? := by
  simp [ofSymbols, lookup, byteOf?_symbolCode]

section
variable {data : Bytes} {directory : Directory} {widths : GlyphWidths} {table : TableRecord}
  {records : List EncodingRecord} {offset : Nat} {romanMap unicode : Option GlyphMap}
  (present : directory.require .characterMap = .ok table)
  (listed : EncodingRecord.readAll data table.start = .ok records)
  (roman : (readEncoding data table.start widths false
    (EncodingRecord.offset? records 1 0)).result = .ok romanMap)
  (plane : (readEncoding data table.start widths false
    (EncodingRecord.offset? records 3 1)).result = .ok unicode)
  (symbol : EncodingRecord.offset? records 3 0 = some offset)
  (full : (readEncoding data table.start widths false
    (EncodingRecord.offset? records 3 10)).result = .ok none)
include present listed roman plane symbol full

theorem read_symbol {map : GlyphMap}
    (run : (GlyphMap.read data (table.start + offset) widths true).result = .ok (some map)) :
    (read data directory widths).result = .ok (ofSymbols map unicode) := by
  have here : (readEncoding data table.start widths true (some offset)).result =
      .ok (some map) := run
  simp only [read, Traced.result_bind, Traced.result_lift, present, listed, symbol, ok_bind, roman,
    plane, full, here]
  simp [ofSymbols]

theorem lookup_symbol_iff {format : SymbolFormat} {assigned : UInt8 → Option GlyphId}
    (encoding : SymbolEncoding data (table.start + offset) format assigned) :
    ∃ m, (read data directory widths).result = .ok m ∧
      (∀ byte : UInt8, m.lookup byte.toUInt32 = m.lookup (symbolCode byte)) ∧
      (format ≠ .segments → ∀ byte : UInt8, m.lookup byte.toUInt32 = none) ∧
      ((∀ (byte : UInt8) (glyph : GlyphId), assigned byte = some glyph →
          m.lookup byte.toUInt32 = some (widths.metric glyph)) ↔
        format = .segments ∨ ∀ byte, assigned byte = none) := by
  obtain ⟨map, run, found⟩ := encoding.exists_read widths
  refine ⟨_, read_symbol present listed roman plane symbol full run, ?_, ?_, ?_⟩
  · intro byte
    simp
  · intro other byte
    have bare := found byte
    rw [if_neg other] at bare
    simp [bare]
  · constructor
    · intro known
      by_cases segments : format = .segments
      · exact .inl segments
      · right
        intro byte
        have bare := found byte
        rw [if_neg segments] at bare
        cases given : assigned byte with
        | none => rfl
        | some glyph => simpa [bare] using known byte glyph given
    · rintro (segments | unassigned)
      · intro byte glyph given
        have known := found byte
        rw [if_pos segments] at known
        simpa using known glyph given
      · intro byte glyph given
        simp [unassigned] at given

end

/-- A font with one symbol, for the byte 41, in segments. -/
def segmentFont : Bytes :=
  Sample.characterMap [(3, 0, Sample.segmentMap [(0xF041, 2)])]

def trimmedFont : Bytes :=
  Sample.characterMap [(3, 0, Sample.trimmedMap 0xF041 [2])]

def symbolDirectory : Directory :=
  .ofRecords .trueType 0 [⟨.characterMap, 0, 0, 0⟩]

def letter (byte : UInt8) : Option GlyphId :=
  if byte = 0x41 then some 2 else none

theorem letter_eq_some {byte : UInt8} {glyph : GlyphId} :
    letter byte = some glyph ↔ byte = 0x41 ∧ glyph = 2 := by
  simp [letter, eq_comm]

theorem encodes_segments : SymbolEncoding segmentFont 12 .segments letter := by
  have count : (SegmentArrays.ofBytes segmentFont 12).count = 2 := by decide +kernel
  have first : (SegmentArrays.ofBytes segmentFont 12).first 0 = 0xF041 ∧
      (SegmentArrays.ofBytes segmentFont 12).first 1 = 0xFFFF := by decide +kernel
  have last : (SegmentArrays.ofBytes segmentFont 12).last 0 = 0xF041 ∧
      (SegmentArrays.ofBytes segmentFont 12).last 1 = 0xFFFF := by decide +kernel
  refine ⟨by decide +kernel, .segments (by decide +kernel) (by decide +kernel) ?_, ?_, ?_⟩
  · intro i j before bound
    obtain ⟨rfl, rfl⟩ : i = 0 ∧ j = 1 := by omega
    rw [last.1, first.2]
    decide
  · intro byte glyph given
    obtain ⟨rfl, rfl⟩ := letter_eq_some.1 given
    have covers : (SegmentArrays.ofBytes segmentFont 12).Covers 0 0xF041 :=
      ⟨by decide +kernel, by decide +kernel, by decide +kernel⟩
    exact .segments covers (by decide +kernel) (by decide +kernel) (by decide +kernel)
  · intro c glyph given
    cases given with
    | @segments i code covers entry same found =>
      obtain ⟨bound, begun, ends⟩ := covers
      obtain rfl | rfl : i = 0 ∨ i = 1 := by omega
      · obtain rfl : code = 0xF041 := UInt16.le_antisymm (last.1 ▸ ends) (first.1 ▸ begun)
        refine .inr ⟨0x41, same.symm.trans (by decide), Eq.trans ?_ found⟩
        decide +kernel
      · obtain rfl : code = 0xFFFF := UInt16.le_antisymm (last.2 ▸ ends) (first.2 ▸ begun)
        exact .inl (same.symm.trans (by decide))

theorem encodes_trimmed : SymbolEncoding trimmedFont 12 .trimmed letter := by
  have count : (trimmedFont.u16 (12 + 8)).toNat = 1 := by decide +kernel
  refine ⟨by decide +kernel, .trimmed (by decide +kernel), ?_, ?_⟩
  · intro byte glyph given
    obtain ⟨rfl, rfl⟩ := letter_eq_some.1 given
    exact .trimmed (k := 0) (by decide +kernel) (by decide +kernel) (by decide +kernel)
  · intro c glyph given
    cases given with
    | @trimmed k bound same found =>
      obtain rfl : k = 0 := by omega
      refine .inr ⟨0x41, same.symm.trans ?_, Eq.trans ?_ found⟩
      · decide +kernel
      · decide +kernel

theorem lookup_symbol_iff_letter :
    (∃ m, (read segmentFont symbolDirectory ⟨#[0, 250, 600]⟩).result = .ok m ∧
      m.lookup 0x41 = some ⟨2, 600⟩) ∧
    ∃ m, (read trimmedFont symbolDirectory ⟨#[0, 250, 600]⟩).result = .ok m ∧
      m.lookup 0x41 = none := by
  have present : symbolDirectory.require .characterMap = .ok ⟨.characterMap, 0, 0, 0⟩ := rfl
  have listed : EncodingRecord.readAll segmentFont 0 = .ok [⟨3, 0, 12⟩] := by decide +kernel
  have listed' : EncodingRecord.readAll trimmedFont 0 = .ok [⟨3, 0, 12⟩] := by decide +kernel
  constructor
  · obtain ⟨m, run, -, -, found⟩ := lookup_symbol_iff present listed rfl rfl rfl rfl
      encodes_segments
    exact ⟨m, run, found.2 (.inl rfl) 0x41 2 rfl⟩
  · obtain ⟨m, run, -, bare, -⟩ := lookup_symbol_iff present listed' rfl rfl rfl rfl
      encodes_trimmed
    exact ⟨m, run, bare (by decide) 0x41⟩

end CharacterMaps

end FontSubset
