import FontSubset.Proofs.CharacterMap.Encodings
import FontSubset.Proofs.CharacterMap.Symbol
import FontSubset.Proofs.Sfnt.ReadBack

/-!
# Subtables that are skipped

A subtable in a format that is not read is skipped with a warning.

* `CharacterMaps.lookup_skipped`: codes are then looked up as if the encoding had no record, unless
  it is that of symbols. A symbol subtable that is skipped still makes the font a symbol font, and
  hides all subtables but the one for the full repertoire.
-/

namespace FontSubset

/-- Two records of one encoding, in two files, whose subtables are read alike. -/
structure SameSubtable (data data' : Bytes) (start start' : Nat) (widths : GlyphWidths)
    (r r' : EncodingRecord) : Prop where
  platform : r.platform = r'.platform
  encoding : r.encoding = r'.encoding
  read : ∀ symbol, (GlyphMap.read data (start + r.offset.toNat) widths symbol).result =
    (GlyphMap.read data' (start' + r'.offset.toNat) widths symbol).result

theorem GlyphMap.read_unsupported {data : Bytes} {pos : Nat} {format : UInt16}
    (here : data.u16At pos = .ok format) (unsupported : format ∉ [0, 4, 6, 12])
    (widths : GlyphWidths) (symbol : Bool) : (read data pos widths symbol).result = .ok none := by
  rw [read, Traced.result_bind, Traced.result_lift, here, ok_bind]
  split
  case h_5 => rfl
  all_goals exact absurd (by decide) unsupported

namespace KeptEncoding
variable {e : KeptEncoding} {r : EncodingRecord} {front back records records' : List EncodingRecord}

theorem offset?_of_last (names : e.Names r) (last : ∀ s ∈ back, ¬ e.Names s) :
    e.offset? (front ++ r :: back) = some r.offset.toNat := by
  have bare : back.reverse.find? (fun s => s.platform = e.platform ∧ s.encoding = e.number) =
      none := by
    rw [List.find?_eq_none]
    intro s mem
    simpa [Names] using last s (List.mem_reverse.1 mem)
  have here : decide (r.platform = e.platform ∧ r.encoding = e.number) = true :=
    decide_eq_true names
  simp only [offset?, EncodingRecord.offset?, List.reverse_append, List.reverse_cons,
    List.append_assoc, List.find?_append, bare, Option.none_or, List.singleton_append,
    List.find?_cons, here, Option.map_some]

theorem offset?_of_other (other : ¬ e.Names r) :
    e.offset? (front ++ r :: back) = e.offset? (front ++ back) := by
  have here : decide (r.platform = e.platform ∧ r.encoding = e.number) = false :=
    decide_eq_false other
  simp only [offset?, EncodingRecord.offset?, List.reverse_append, List.reverse_cons,
    List.append_assoc, List.find?_append, List.singleton_append, List.find?_cons, here]

/-- The last record counts in both files, and what it leads to is the same. -/
theorem slot_congr {data data' : Bytes} {start start' : Nat} {widths : GlyphWidths}
    (same : List.Forall₂ (SameSubtable data data' start start' widths) records records') :
    e.slot data start widths (e.offset? records) =
      e.slot data' start' widths (e.offset? records') := by
  have last := find?_rel (p := fun r => r.platform = e.platform ∧ r.encoding = e.number)
    (q := fun r => r.platform = e.platform ∧ r.encoding = e.number)
    (fun r r' same => by rw [same.platform, same.encoding]) (List.forall₂_reverse_iff.2 same)
  unfold offset? EncodingRecord.offset?
  generalize records.reverse.find? _ = r at last
  generalize records'.reverse.find? _ = r' at last
  cases last with
  | none => rfl
  | some same => exact congrArg (Except.map (Slot.ofRead (some 0))) (same.read _)

/-- The encodings in which a code is looked up when the subtable of `e` is skipped. -/
def considered (e : KeptEncoding) : List KeptEncoding :=
  if e = symbol then [full] else ranking.erase e

theorem not_mem_considered (e : KeptEncoding) : e ∉ e.considered := by
  cases e <;> decide

end KeptEncoding

namespace CharacterMaps

theorem find_considered {slots : KeptEncoding → Slot} {e : KeptEncoding}
    (skipped : slots e = .skipped) (code : UInt32) :
    find slots KeptEncoding.ranking code = find slots e.considered code := by
  by_cases symbol : e = .symbol
  · subst symbol
    have decides : Decides .symbol (slots .symbol) := skipped ▸ rfl
    have bare (rest : List KeptEncoding) : find slots (.symbol :: rest) code = none := by
      rw [find_cons_of_decides decides, find, skipped]
      rfl
    by_cases full : Decides .full (slots .full)
    · exact find_cons_of_decides full _ code
    · refine (find_cons_of_not_decides full _ code).trans ?_
      refine (bare _).trans ?_
      exact (find_cons_of_not_decides full [] code).symm
  · have passes : ¬ Decides e (slots e) := skipped ▸ symbol
    rw [KeptEncoding.considered, if_neg symbol, find_erase passes]

/-- Without the symbols, codes are looked up in the full repertoire alone just when it is there or
nothing else has any code. -/
theorem find_full_iff (slots : KeptEncoding → Slot) (rest : List KeptEncoding) :
    (∀ code, find slots [.full] code = find slots (.full :: rest) code) ↔
      (slots .full).map?.isSome ∨ ∀ code, find slots (.full :: rest) code = none := by
  have decides : Decides .full (slots .full) ↔ (slots .full).map?.isSome := decides_iff (by decide)
  rw [← decides]
  by_cases full : Decides .full (slots .full)
  · simp only [full, true_or, iff_true]
    exact fun code => (find_cons_of_decides full rest code).symm
  · have bare (code : UInt32) : find slots [.full] code = none := by
      rw [find_cons_of_not_decides full]
      rfl
    simp only [full, false_or, bare, eq_comm]

section
variable {data data' : Bytes} {directory directory' : Directory} {widths : GlyphWidths}
  {table table' : TableRecord} {front back rest : List EncodingRecord} {r : EncodingRecord}
  {e : KeptEncoding} {format : UInt16} {m : CharacterMaps} {slot : Slot}
  (present : directory.require .characterMap = .ok table)
  (listed : EncodingRecord.readAll data table.start = .ok (front ++ r :: back))
  (present' : directory'.require .characterMap = .ok table')
  (listed' : EncodingRecord.readAll data' table'.start = .ok rest)
  (same : List.Forall₂ (SameSubtable data data' table.start table'.start widths) (front ++ back)
    rest)
  (names : e.Names r) (last : ∀ s ∈ back, ¬ e.Names s)
  (here : data.u16At (table.start + r.offset.toNat) = .ok format)
  (unsupported : format ∉ [0, 4, 6, 12])
  (run : (read data directory widths).result = .ok m)
  (standIn : e.slot data' table'.start widths (e.offset? rest) = .ok slot)
include present listed present' listed' same names last here unsupported run standIn

/-- The table without the record is read in the same way, apart from the encoding of the record. -/
theorem exists_slots : ∃ slots, m = ofSlots slots ∧ slots e = .skipped ∧
    (read data' directory' widths).result = .ok (ofSlots (Function.update slots e slot)) := by
  obtain ⟨_, _, slots, present₀, listed₀, each, rfl⟩ := read_eq_ok.1 run
  cases present.symm.trans present₀
  cases listed.symm.trans listed₀
  refine ⟨slots, rfl, ?_, read_eq_ok.2 ⟨table', rest, _, present', listed', ?_, rfl⟩⟩
  · have run := each e
    rw [KeptEncoding.offset?_of_last names last] at run
    obtain ⟨map, read, filled⟩ := map_eq_ok.1 run
    cases read.symm.trans (GlyphMap.read_unsupported here unsupported widths _)
    exact filled.symm
  · intro e'
    by_cases this : e' = e
    · subst this
      rw [Function.update_self, standIn]
    · have other : ¬ e'.Names r := fun names' => this (names'.unique names)
      rw [Function.update_of_ne this, ← KeptEncoding.slot_congr same,
        ← KeptEncoding.offset?_of_other other, each e']

/-- `rest` are the records without `r`, which is the last one of its encoding; `slot` is what there
is of the encoding without it. -/
theorem lookup_skipped : ∃ slots m', (read data' directory' widths).result = .ok m' ∧
    m' = ofSlots slots ∧ slots e = slot ∧
    (∀ code, m.lookup code = find slots e.considered code) ∧
    (e ≠ .symbol → slot.map? = none → ∀ code, m.lookup code = m'.lookup code) ∧
    (e = .symbol → ((∀ code, m.lookup code = m'.lookup code) ↔
      m'.unicodeFull.isSome ∨ ∀ code, m'.lookup code = none)) := by
  obtain ⟨slots, rfl, skipped, run'⟩ := exists_slots present listed present' listed' same names last
    here unsupported run standIn
  have lookup (code : UInt32) : (ofSlots slots).lookup code =
      find (Function.update slots e slot) e.considered code := by
    rw [lookup_ofSlots, find_considered skipped]
    refine find_congr (fun e' mem => ?_) code
    have other : e' ≠ e := fun this => e.not_mem_considered (this ▸ mem)
    rw [Function.update_of_ne other]
  have emptied : Function.update slots e slot e = slot := Function.update_self e slot slots
  refine ⟨_, _, run', rfl, emptied, lookup, ?_, ?_⟩
  · intro other bare code
    have passes : ¬ Decides e (Function.update slots e slot e) := by
      rw [emptied, decides_iff other, bare]
      exact Bool.false_ne_true
    rw [lookup, lookup_ofSlots, KeptEncoding.considered, if_neg other, find_erase passes]
  · intro symbol
    have considered : e.considered = [.full] := if_pos symbol
    simp only [lookup, lookup_ofSlots, considered]
    exact find_full_iff _ _

end

/-- A Mac Roman subtable with a letter, and a symbol subtable of format 2. -/
def hiddenFont : Bytes :=
  Sample.characterMap [(1, 0, Sample.trimmedMap 0x41 [2]), (3, 0, Sample.fields16 [2, 6, 0])]

/-- The Mac Roman subtable alone. -/
def romanFont : Bytes :=
  Sample.characterMap [(1, 0, Sample.trimmedMap 0x41 [2])]

theorem lookup_skipped_symbol : ∃ m m',
    (read hiddenFont symbolDirectory ⟨#[0, 250, 600]⟩).result = .ok m ∧
      (read romanFont symbolDirectory ⟨#[0, 250, 600]⟩).result = .ok m' ∧
      m'.lookup 0x41 = some ⟨2, 600⟩ ∧ ¬ ∀ code, m.lookup code = m'.lookup code := by
  have present : symbolDirectory.require .characterMap = .ok ⟨.characterMap, 0, 0, 0⟩ := rfl
  have listed : EncodingRecord.readAll hiddenFont 0 = .ok ([⟨1, 0, 20⟩] ++ ⟨3, 0, 32⟩ :: []) := by
    decide +kernel
  have listed' : EncodingRecord.readAll romanFont 0 = .ok [⟨1, 0, 12⟩] := by decide +kernel
  have letter : TrimmedMap.read hiddenFont 20 = .ok [(0x41, 2)] := by decide +kernel
  have letter' : TrimmedMap.read romanFont 12 = .ok [(0x41, 2)] := by decide +kernel
  have same : SameSubtable hiddenFont romanFont 0 0 ⟨#[0, 250, 600]⟩ ⟨1, 0, 20⟩ ⟨1, 0, 12⟩ := by
    refine ⟨rfl, rfl, fun symbol => ?_⟩
    exact (GlyphMap.read_trimmed (by decide +kernel) letter symbol).trans
      (GlyphMap.read_trimmed (by decide +kernel) letter' symbol).symm
  have format : hiddenFont.u16At 32 = .ok 2 := by decide +kernel
  have readable : (read hiddenFont symbolDirectory ⟨#[0, 250, 600]⟩).result.map
      (·.fontSpecific) = .ok true := by
    decide +kernel
  have found : (read romanFont symbolDirectory ⟨#[0, 250, 600]⟩).result.map
      (fun m => (m.unicodeFull.isSome, m.lookup 0x41)) = .ok (false, some ⟨2, 600⟩) := by
    decide +kernel
  have absent : KeptEncoding.symbol.slot romanFont 0 ⟨#[0, 250, 600]⟩
      (KeptEncoding.symbol.offset? [⟨1, 0, 12⟩]) = .ok .absent := rfl
  obtain ⟨m, run, -⟩ := map_eq_ok.1 readable
  obtain ⟨_, m', run', -, -, -, -, unchanged⟩ := lookup_skipped present listed present listed'
    (.cons same .nil) (by decide) (by simp) format (by decide) run absent
  rw [run'] at found
  obtain ⟨full, letter⟩ := Prod.mk.inj (Except.ok.inj found)
  refine ⟨m, m', run, run', letter, ?_⟩
  rw [unchanged rfl]
  rintro (some | bare)
  · exact absurd some (by rw [full]; decide)
  · exact absurd (bare 0x41) (by rw [letter]; decide)

end CharacterMaps

end FontSubset
