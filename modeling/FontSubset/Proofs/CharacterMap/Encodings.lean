import FontSubset.CharacterMap.Basic
import FontSubset.Proofs.Result

/-!
# Encodings of a character map

* `CharacterMaps.read_eq_ok`: a table is read as what the last record of each kept encoding leads to.
* `CharacterMaps.lookup_ofSlots`: a code is looked up in one encoding after another. The first one
  with a subtable that has been read decides, and so does a symbol encoding that has been skipped.
-/

namespace FontSubset

/-- The encodings whose subtables are read. -/
inductive KeptEncoding
  | full
  | symbol
  | unicode
  | roman
  deriving DecidableEq

/-- What there is of an encoding: no record, a record of a subtable in a format that is not read,
or a subtable. -/
inductive Slot
  | absent
  | skipped
  | readable (map : GlyphMap)

namespace Slot

def map? : Slot → Option GlyphMap
  | readable map => some map
  | _ => none

def recorded : Slot → Bool
  | absent => false
  | _ => true

/-- What there is of an encoding whose record has that offset and whose subtable is read as that. -/
def ofRead (offset : Option Nat) : Option GlyphMap → Slot
  | some map => readable map
  | none => if offset.isSome then skipped else absent

@[simp] theorem map?_ofRead (offset : Option Nat) (map : Option GlyphMap) :
    (ofRead offset map).map? = map := by
  cases map with
  | some map => rfl
  | none => cases offset <;> rfl

@[simp] theorem recorded_ofRead_some (offset : Nat) (map : Option GlyphMap) :
    (ofRead (some offset) map).recorded = true := by
  cases map <;> rfl

end Slot

namespace KeptEncoding

def platform : KeptEncoding → UInt16
  | roman => 1
  | _ => 3

def number : KeptEncoding → UInt16
  | full => 10
  | unicode => 1
  | symbol | roman => 0

/-- The record is one of the encoding. -/
def Names (e : KeptEncoding) (r : EncodingRecord) : Prop :=
  r.platform = e.platform ∧ r.encoding = e.number

instance (e : KeptEncoding) (r : EncodingRecord) : Decidable (e.Names r) :=
  inferInstanceAs (Decidable (_ ∧ _))

theorem Names.unique {e e' : KeptEncoding} {r : EncodingRecord} (here : e.Names r)
    (there : e'.Names r) : e = e' := by
  have platform := here.1.symm.trans there.1
  have number := here.2.symm.trans there.2
  revert platform number
  cases e <;> cases e' <;> decide

/-- The record that counts for the encoding, of which only the offset is used. -/
def offset? (e : KeptEncoding) (records : List EncodingRecord) : Option Nat :=
  EncodingRecord.offset? records e.platform e.number

/-- The code under which a subtable of the encoding has the glyph of a character code. -/
def key? : KeptEncoding → UInt32 → Option UInt32
  | full, code | unicode, code => some code
  | symbol, code | roman, code => CharacterMaps.byteOf? code

/-- What there is of the encoding, if its record has that offset. -/
def slot (e : KeptEncoding) (data : Bytes) (start : Nat) (widths : GlyphWidths)
    (offset : Option Nat) : Except FontError Slot :=
  (CharacterMaps.readEncoding data start widths (e = symbol) offset).result.map
    (Slot.ofRead offset)

/-- The encodings in the order in which a code is looked up in them. -/
def ranking : List KeptEncoding :=
  [full, symbol, unicode, roman]

end KeptEncoding

namespace CharacterMaps

/-- The byte encoding is that of the symbols, even if their subtable has been skipped. -/
def byteEncodingOf (slots : KeptEncoding → Slot) : Option GlyphMap :=
  if (slots .symbol).recorded then (slots .symbol).map? else (slots .roman).map?

/-- The character maps of what there is of each encoding. -/
def ofSlots (slots : KeptEncoding → Slot) : CharacterMaps where
  byteEncoding := byteEncodingOf slots
  unicode := (slots .unicode).map?
  unicodeFull := (slots .full).map?
  fontSpecific := (slots .symbol).recorded || ((slots .unicode).map?.isNone &&
    (slots .full).map?.isNone && (byteEncodingOf slots).isSome)
  macRoman := (slots .roman).recorded && !(slots .symbol).recorded

section
variable {data : Bytes} {directory : Directory} {widths : GlyphWidths} {m : CharacterMaps}

theorem recorded_of_readEncoding {start : Nat} {symbol : Bool} {offset : Option Nat}
    {map : Option GlyphMap} (run : (readEncoding data start widths symbol offset).result = .ok map) :
    (Slot.ofRead offset map).recorded = offset.isSome := by
  cases offset with
  | none =>
    cases run
    rfl
  | some offset => exact Slot.recorded_ofRead_some offset map

theorem read_eq_ok : (read data directory widths).result = .ok m ↔
    ∃ table records slots, directory.require .characterMap = .ok table ∧
      EncodingRecord.readAll data table.start = .ok records ∧
      (∀ e : KeptEncoding, e.slot data table.start widths (e.offset? records) = .ok (slots e)) ∧
      m = ofSlots slots := by
  simp only [read, Traced.result_bind, bind_eq_ok, Traced.result_pure, Traced.result_lift,
    Except.ok.injEq]
  constructor
  · rintro ⟨table, present, records, listed, romanMap, roman, unicodeMap, unicode, symbolMap, symbol,
      fullMap, full, rfl⟩
    let maps : KeptEncoding → Option GlyphMap
      | .full => fullMap
      | .symbol => symbolMap
      | .unicode => unicodeMap
      | .roman => romanMap
    refine ⟨table, records, fun e => .ofRead (e.offset? records) (maps e), present, listed, ?_, ?_⟩
    · intro e
      refine map_eq_ok.2 ⟨maps e, ?_, rfl⟩
      cases e with
      | full => exact full
      | symbol => exact symbol
      | unicode => exact unicode
      | roman => exact roman
    · have roman' := recorded_of_readEncoding roman
      have symbol' := recorded_of_readEncoding symbol
      simp [ofSlots, byteEncodingOf, maps, KeptEncoding.offset?, KeptEncoding.platform,
        KeptEncoding.number, roman', symbol']
  · rintro ⟨table, records, slots, present, listed, each, rfl⟩
    have read (e : KeptEncoding) : (readEncoding data table.start widths (e = .symbol)
        (e.offset? records)).result = .ok (slots e).map? ∧
          (slots e).recorded = (e.offset? records).isSome := by
      obtain ⟨map, run, same⟩ := map_eq_ok.1 (each e)
      rw [← same, recorded_of_readEncoding run, Slot.map?_ofRead]
      exact ⟨run, rfl⟩
    refine ⟨table, present, records, listed, _, (read .roman).1, _, (read .unicode).1, _,
      (read .symbol).1, _, (read .full).1, ?_⟩
    simp [ofSlots, byteEncodingOf, (read .roman).2, (read .symbol).2, KeptEncoding.offset?,
      KeptEncoding.platform, KeptEncoding.number]

/-! ## Looking up a code -/

/-- The slot settles what is found. -/
def Decides (e : KeptEncoding) : Slot → Prop
  | .absent => False
  | .skipped => e = .symbol
  | .readable _ => True

theorem decides_iff {e : KeptEncoding} (other : e ≠ .symbol) {slot : Slot} :
    Decides e slot ↔ slot.map?.isSome := by
  cases slot <;> simp [Decides, Slot.map?, other]

/-- What the first of the encodings that decides has for a code. -/
def find (slots : KeptEncoding → Slot) : List KeptEncoding → UInt32 → Option GlyphMetric
  | [], _ => none
  | e :: rest, code =>
    match slots e with
    | .absent => find slots rest code
    | .skipped => if e = .symbol then none else find slots rest code
    | .readable map => do map[← e.key? code]?

theorem lookup_ofSlots (slots : KeptEncoding → Slot) (code : UInt32) :
    (ofSlots slots).lookup code = find slots KeptEncoding.ranking code := by
  unfold lookup ofSlots byteEncodingOf
  simp only [KeptEncoding.ranking, find]
  cases slots .full <;> cases slots .symbol <;> cases slots .unicode <;> cases slots .roman <;>
    simp [Slot.map?, Slot.recorded, KeptEncoding.key?]

theorem find_cons_of_not_decides {slots : KeptEncoding → Slot} {e : KeptEncoding}
    (passes : ¬ Decides e (slots e)) (rest : List KeptEncoding) (code : UInt32) :
    find slots (e :: rest) code = find slots rest code := by
  rw [find]
  cases here : slots e with
  | absent => rfl
  | skipped =>
    rw [here] at passes
    exact if_neg passes
  | readable map =>
    rw [here] at passes
    exact absurd trivial passes

theorem find_cons_of_decides {slots : KeptEncoding → Slot} {e : KeptEncoding}
    (decides : Decides e (slots e)) (rest : List KeptEncoding) (code : UInt32) :
    find slots (e :: rest) code = find slots [e] code := by
  rw [find, find]
  cases here : slots e with
  | absent =>
    rw [here] at decides
    exact decides.elim
  | skipped =>
    rw [here] at decides
    exact (if_pos decides).trans (if_pos decides).symm
  | readable map => rfl

theorem find_congr {slots slots' : KeptEncoding → Slot} {encodings : List KeptEncoding}
    (same : ∀ e ∈ encodings, slots e = slots' e) (code : UInt32) :
    find slots encodings code = find slots' encodings code := by
  induction encodings with
  | nil => rfl
  | cons e rest ih =>
    rw [find, find, same e List.mem_cons_self,
      ih fun e' mem => same e' (List.mem_cons_of_mem _ mem)]

/-- An encoding that does not decide may be left out. -/
theorem find_erase {slots : KeptEncoding → Slot} {e : KeptEncoding}
    (passes : ¬ Decides e (slots e)) (encodings : List KeptEncoding) (code : UInt32) :
    find slots (encodings.erase e) code = find slots encodings code := by
  induction encodings with
  | nil => rfl
  | cons e' rest ih =>
    by_cases here : e' = e
    · subst here
      rw [List.erase_cons_head, find_cons_of_not_decides passes]
    · rw [List.erase_cons_tail (by simpa using here), find, find, ih]

end

end CharacterMaps

end FontSubset
