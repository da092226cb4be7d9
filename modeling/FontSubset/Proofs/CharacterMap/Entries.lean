import FontSubset.Proofs.CharacterMap.Encodings
import FontSubset.Proofs.CharacterMap.Segments

/-!
# Entries of subtables

The formats store glyphs for codes in four ways. `entries` lists what the bytes of a subtable say,
code by code, glyph 0 included.

* `GlyphMap.eq_of_read`: the map that is read has the entries of the subtable, of which the last one
  for a code counts.
* `CharacterMaps.lookup_eq_stored`: a code is looked up as the bytes of the table say.
-/

namespace FontSubset

namespace Group

/-- The group with number `i` of the subtable at `pos`. -/
def ofBytes (data : Bytes) (pos i : Nat) : Group :=
  ⟨data.u32 (pos + 16 + 12 * i), data.u32 (pos + 16 + 12 * i + 4),
    data.u32 (pos + 16 + 12 * i + 8)⟩

def entries (g : Group) : List Assignment :=
  if g.valid then g.assignments else []

theorem eq_of_read {data : Bytes} {pos : Nat} {g : Group} (run : read data pos = .ok g) :
    g = ⟨data.u32 pos, data.u32 (pos + 4), data.u32 (pos + 8)⟩ := by
  simp only [read, bind_eq_ok, pure_eq_ok] at run
  obtain ⟨_, first, _, last, _, glyph, rfl⟩ := run
  rw [Bytes.u32_of_u32At first, Bytes.u32_of_u32At last, Bytes.u32_of_u32At glyph]

theorem value_addTo (widths : GlyphWidths) (map : GlyphMap) (g : Group) :
    (g.addTo widths map).value = map.assign widths g.entries := by
  unfold addTo entries
  by_cases valid : g.valid
  · rw [if_neg (not_not_intro valid), if_pos valid]
    dsimp only
    split <;> rfl
  · rw [if_pos valid, if_neg valid]
    rfl

end Group

namespace GlyphMap
variable {data : Bytes} {pos : Nat} {widths : GlyphWidths} {symbol : Bool} {map : GlyphMap}

/-- The glyphs that the subtable at `pos` stores for codes, in order. -/
def entries (data : Bytes) (pos : Nat) (symbol : Bool) : List Assignment :=
  match data.u16 pos with
  | 0 => consecutive 0 ((List.range 256).map fun i => UInt16.ofNat (data.number (pos + 6 + i) 1))
  | 4 => (SegmentArrays.ofBytes data pos).toMap.assignments symbol
  | 6 => consecutive (data.u16 (pos + 6)).toUInt32
      ((List.range (data.u16 (pos + 8)).toNat).map fun k => data.u16 (pos + 10 + 2 * k))
  | 12 => (List.range (data.u32 (pos + 12)).toNat).flatMap fun i =>
      (Group.ofBytes data pos i).entries
  | _ => []

theorem bytes_of_read {assignments : List Assignment}
    (run : ByteArrayMap.read data pos = .ok assignments) : assignments =
      consecutive 0 ((List.range 256).map fun i => UInt16.ofNat (data.number (pos + 6 + i) 1)) := by
  obtain ⟨_, numbers, run⟩ := bind_eq_ok.1 run
  rw [← pure_eq_ok.1 run, Bytes.eq_of_numbersAt numbers, List.map_map]
  simp only [Function.comp_def, Nat.one_mul]

theorem trimmed_of_read {assignments : List Assignment}
    (run : TrimmedMap.read data pos = .ok assignments) : assignments =
      consecutive (data.u16 (pos + 6)).toUInt32
        ((List.range (data.u16 (pos + 8)).toNat).map fun k => data.u16 (pos + 10 + 2 * k)) := by
  simp only [TrimmedMap.read, bind_eq_ok, pure_eq_ok] at run
  obtain ⟨_, first, _, count, _, glyphs, rfl⟩ := run
  rw [Bytes.u16_of_u16At first, Bytes.u16_of_u16At count, Bytes.eq_of_u16sAt glyphs]

theorem groups_of_readMap (run : (Group.readMap data pos widths).result = .ok map) :
    map = ofAssignments widths ((List.range (data.u32 (pos + 12)).toNat).flatMap fun i =>
      (Group.ofBytes data pos i).entries) := by
  rw [Group.readMap, Traced.result_bind, Traced.result_lift] at run
  obtain ⟨count, counted, run⟩ := bind_eq_ok.1 run
  rw [Traced.result_loop] at run
  rw [Bytes.u32_of_u32At counted, ofAssignments, assign, List.foldl_flatMap]
  refine eq_foldl_of_foldlM (fun map i map' step => ?_) run
  simp only [Traced.result_bind, Traced.result_lift, Traced.result_ofLogged, bind_eq_ok,
    Except.ok.injEq] at step
  obtain ⟨g, read, rfl⟩ := step
  rw [Group.eq_of_read read]
  exact Group.value_addTo widths map _

/-- A subtable is read as its entries, if it is in one of the four formats. -/
theorem eq_of_read {found : Option GlyphMap}
    (run : (read data pos widths symbol).result = .ok found) :
    found = if data.u16 pos ∈ [0, 4, 6, 12] then
      some (ofAssignments widths (entries data pos symbol)) else none := by
  rw [read, Traced.result_bind] at run
  obtain ⟨format, here, run⟩ := bind_eq_ok.1 run
  have same : data.u16 pos = format := Bytes.u16_of_u16At here
  unfold entries
  rw [same]
  split at run <;> simp only [Functor.map_map, bind_pure_comp, bind_map_left, pure_bind,
    Traced.result_bind, Traced.result_lift, Traced.result_map, Traced.result_report, bind_eq_ok,
    map_eq_ok, true_and, exists_const] at run
  case h_1 =>
    obtain ⟨_, read, rfl⟩ := run
    exact congrArg (fun a => some (ofAssignments widths a)) (bytes_of_read read)
  case h_2 =>
    obtain ⟨_, read, rfl⟩ := run
    exact congrArg (fun m => some (ofAssignments widths (m.assignments symbol)))
      (SegmentArrays.eq_of_read read)
  case h_3 =>
    obtain ⟨_, read, rfl⟩ := run
    exact congrArg (fun a => some (ofAssignments widths a)) (trimmed_of_read read)
  case h_4 =>
    obtain ⟨_, read, rfl⟩ := run
    exact congrArg some (groups_of_readMap read)
  case h_5 bytes segments trimmed groups =>
    rw [if_neg]
    · exact run.symm
    · simpa using ⟨bytes, segments, trimmed, groups⟩

/-- The glyph in the last entry of a code. -/
def listed? (data : Bytes) (pos : Nat) (symbol : Bool) (code : UInt32) : Option GlyphId :=
  ((entries data pos symbol).reverse.find? fun a => a.1 = code).map (·.2)

theorem listed?_of_unsupported (unsupported : data.u16 pos ∉ [0, 4, 6, 12]) (code : UInt32) :
    listed? data pos symbol code = none := by
  have bare : entries data pos symbol = [] := by
    unfold entries
    split
    case h_5 => rfl
    all_goals simp_all
  rw [listed?, bare]
  rfl

theorem getElem?_ofEntries (code : UInt32) :
    (ofAssignments widths (entries data pos symbol))[code]? =
      (listed? data pos symbol code).map widths.metric := by
  rw [ofAssignments, getElem?_assign, listed?, Option.map_map]
  simp [Function.comp_def]

end GlyphMap

/-! ## Tables -/

namespace KeptEncoding
variable {data : Bytes} {start : Nat} {records : List EncodingRecord} {widths : GlyphWidths}
  {e : KeptEncoding} {slot : Slot}

/-- The encoding has a subtable that is read, or it is that of symbols. -/
def isDecisive (data : Bytes) (start : Nat) (records : List EncodingRecord) (e : KeptEncoding) :
    Bool :=
  (e.offset? records).any fun offset =>
    e = symbol ∨ data.u16 (start + offset) ∈ [0, 4, 6, 12]

/-- The glyph that the subtable of the encoding stores for a code. -/
def stored? (data : Bytes) (start : Nat) (records : List EncodingRecord) (code : UInt32)
    (e : KeptEncoding) : Option GlyphId := do
  GlyphMap.listed? data (start + (← e.offset? records)) (e = symbol) (← e.key? code)

theorem eq_of_slot (run : e.slot data start widths (e.offset? records) = .ok slot) :
    slot = match e.offset? records with
      | none => .absent
      | some offset =>
        if data.u16 (start + offset) ∈ [0, 4, 6, 12] then
          .readable (.ofAssignments widths (GlyphMap.entries data (start + offset) (e = symbol)))
        else .skipped := by
  obtain ⟨map, read, rfl⟩ := map_eq_ok.1 run
  cases recorded : e.offset? records with
  | none =>
    rw [recorded] at read
    cases read
    rfl
  | some offset =>
    rw [recorded] at read
    rw [GlyphMap.eq_of_read read]
    dsimp only
    split <;> rfl

end KeptEncoding

namespace CharacterMaps
variable {data : Bytes} {start : Nat} {records : List EncodingRecord} {widths : GlyphWidths}
  {slots : KeptEncoding → Slot}

/-- The glyph that the table stores for a code. -/
def stored? (data : Bytes) (directory : Directory) (code : UInt32) : Option GlyphId := do
  let table ← (directory.require .characterMap).toOption
  let records ← (EncodingRecord.readAll data table.start).toOption
  let e ← KeptEncoding.ranking.find? (KeptEncoding.isDecisive data table.start records)
  e.stored? data table.start records code

theorem find_eq (each : ∀ e : KeptEncoding,
      e.slot data start widths (e.offset? records) = .ok (slots e))
    (encodings : List KeptEncoding) (code : UInt32) :
    find slots encodings code =
      ((encodings.find? (KeptEncoding.isDecisive data start records)).bind
        (KeptEncoding.stored? data start records code)).map widths.metric := by
  induction encodings with
  | nil => rfl
  | cons e rest ih =>
    have here := KeptEncoding.eq_of_slot (each e)
    rw [find, List.find?_cons]
    cases recorded : e.offset? records with
    | none =>
      have passes : e.isDecisive data start records = false := by
        rw [KeptEncoding.isDecisive, recorded, Option.any_none]
      rw [recorded] at here
      rw [here, passes]
      exact ih
    | some offset =>
      rw [recorded] at here
      dsimp only at here
      by_cases supported : data.u16 (start + offset) ∈ [0, 4, 6, 12]
      · have decides : e.isDecisive data start records = true := by
          rw [KeptEncoding.isDecisive, recorded]
          exact decide_eq_true (.inr supported)
        rw [if_pos supported] at here
        rw [here, decides]
        cases key : e.key? code <;>
          simp [KeptEncoding.stored?, recorded, key, GlyphMap.getElem?_ofEntries]
      · rw [if_neg supported] at here
        rw [here]
        by_cases symbol : e = .symbol
        · have decides : e.isDecisive data start records = true := by
            rw [KeptEncoding.isDecisive, recorded]
            exact decide_eq_true (.inl symbol)
          have bare : e.stored? data start records code = none := by
            cases key : e.key? code <;>
              simp [KeptEncoding.stored?, recorded, key, GlyphMap.listed?_of_unsupported supported]
          rw [decides]
          exact (if_pos symbol).trans (by rw [Option.bind_some, bare, Option.map_none])
        · have passes : e.isDecisive data start records = false := by
            rw [KeptEncoding.isDecisive, recorded]
            exact decide_eq_false (not_or.2 ⟨symbol, supported⟩)
          rw [passes]
          exact (if_neg symbol).trans ih

theorem lookup_eq_stored {directory : Directory} {m : CharacterMaps}
    (run : (read data directory widths).result = .ok m) (code : UInt32) :
    m.lookup code = (stored? data directory code).map widths.metric := by
  obtain ⟨table, records, slots, present, listed, each, rfl⟩ := read_eq_ok.1 run
  rw [lookup_ofSlots, find_eq each]
  simp [stored?, present, listed, Except.toOption]

end CharacterMaps

end FontSubset
