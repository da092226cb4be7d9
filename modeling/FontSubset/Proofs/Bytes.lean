import FontSubset.Proofs.Result
import FontSubset.Bytes

/-!
# Parts of a file

`data.Holds pos part` says that the bytes of `part` lie in `data` at `pos`. A slice is what is held
(`slice_eq_ok`), a field is read where its spelling is held (`u16At_eq_ok`, `u32At_eq_ok`), and
parts of parts are found by adding positions (`Holds.trans`, `Holds.within`). `Words` are
16-bit fields one after another, and `Counted` ones have their number before them.
-/

namespace FontSubset.Bytes

def Holds (data : Bytes) (pos : Nat) (part : Bytes) : Prop :=
  ∃ front back : Bytes, data = front ++ part ++ back ∧ front.size = pos

section
variable {data part inner other : Bytes} {pos offset : Nat}

theorem Holds.size_le (h : data.Holds pos part) : pos + part.size ≤ data.size := by
  obtain ⟨front, back, rfl, rfl⟩ := h
  simp only [Array.size_append]
  omega

theorem Holds.extract_eq (h : data.Holds pos part) :
    data.extract pos (pos + part.size) = part := by
  obtain ⟨front, back, rfl, rfl⟩ := h
  apply Array.ext'
  simp

theorem holds_extract {length : Nat} (bound : pos + length ≤ data.size) :
    data.Holds pos (data.extract pos (pos + length)) := by
  refine ⟨data.extract 0 pos, data.extract (pos + length) data.size, ?_, ?_⟩
  · rw [Array.extract_append_extract, Nat.zero_min, Nat.max_eq_right (by omega),
      Array.extract_append_extract, Nat.zero_min, Nat.max_eq_right bound, Array.extract_size]
  · simp only [Array.size_extract]
    omega

theorem Holds.trans (outer : data.Holds pos part) (h : part.Holds offset inner) :
    data.Holds (pos + offset) inner := by
  obtain ⟨front, back, rfl, rfl⟩ := outer
  obtain ⟨front', back', rfl, rfl⟩ := h
  exact ⟨front ++ front', back' ++ back, by simp [Array.append_assoc], by simp⟩

theorem Holds.append (here : data.Holds pos part)
    (next : data.Holds (pos + part.size) other) : data.Holds pos (part ++ other) := by
  have bound := next.size_le
  have joined : part ++ other = data.extract pos (pos + (part.size + other.size)) := by
    rw [← here.extract_eq, ← next.extract_eq, Array.extract_append_extract, here.extract_eq,
      next.extract_eq, Nat.min_eq_left (by omega), Nat.max_eq_right (by omega), Nat.add_assoc]
  rw [joined]
  exact holds_extract (by omega)

theorem Holds.unique (h : data.Holds pos part) (h' : data.Holds pos other)
    (size : part.size = other.size) : part = other := by
  rw [← h.extract_eq, ← h'.extract_eq, size]

/-- What lies in the data within the bounds of a part lies in the part. -/
theorem Holds.within (outer : data.Holds pos part) (h : data.Holds (pos + offset) inner)
    (bound : offset + inner.size ≤ part.size) : part.Holds offset inner := by
  have here := holds_extract bound
  rwa [(outer.trans here).unique h (by simp only [Array.size_extract]; omega)] at here

theorem holds_self (data : Bytes) : data.Holds 0 data :=
  ⟨#[], #[], by simp, rfl⟩

theorem holds_append_left (front back : Bytes) : (front ++ back).Holds 0 front :=
  ⟨#[], back, by simp, rfl⟩

theorem holds_append_iff : data.Holds pos (part ++ other) ↔
    data.Holds pos part ∧ data.Holds (pos + part.size) other := by
  constructor
  · intro whole
    exact ⟨whole.trans (holds_append_left _ _), whole.trans ⟨part, #[], by simp, rfl⟩⟩
  · rintro ⟨here, next⟩
    exact here.append next

theorem Holds.getElem? {i : Nat} (h : data.Holds pos part) (bound : i < part.size) :
    data[pos + i]? = part[i]? := by
  obtain ⟨front, back, rfl, rfl⟩ := h
  rw [Array.append_assoc, Array.getElem?_append_right (Nat.le_add_right _ _),
    Nat.add_sub_cancel_left, Array.getElem?_append_left bound]

theorem holds_of_getElem? (bound : pos + part.size ≤ data.size)
    (same : ∀ i < part.size, data[pos + i]? = part[i]?) : data.Holds pos part := by
  have here := holds_extract bound
  have equal : data.extract pos (pos + part.size) = part := by
    apply Array.ext_getElem?
    intro i
    by_cases inside : i < part.size
    · rw [← here.getElem? (by simp; omega), same i inside]
    · rw [Array.getElem?_eq_none (by simp; omega), Array.getElem?_eq_none (by omega)]
  rwa [equal] at here

theorem slice_eq_ok {length : Nat} :
    data.slice pos length = .ok part ↔ data.Holds pos part ∧ part.size = length := by
  rw [slice]
  constructor
  · split
    · rename_i bound
      rintro ⟨⟩
      exact ⟨holds_extract bound, by simp only [Array.size_extract]; omega⟩
    · nofun
  · rintro ⟨h, rfl⟩
    rw [if_pos h.size_le, h.extract_eq]

end

/-! ## Fields -/

theorem bigEndian_be16 (n : UInt16) : bigEndian (be16 n).toList = n.toNat := by
  have := n.toNat_lt
  simp [be16, bigEndian, Nat.shiftRight_eq_div_pow]
  omega

theorem bigEndian_be32 (n : UInt32) : bigEndian (be32 n).toList = n.toNat := by
  have := n.toNat_lt
  simp [be32, bigEndian, Nat.shiftRight_eq_div_pow]
  omega

@[simp] theorem size_be16 (n : UInt16) : (be16 n).size = 2 := rfl

@[simp] theorem size_be32 (n : UInt32) : (be32 n).size = 4 := rfl

theorem be16_bigEndian {bytes : Bytes} (size : bytes.size = 2) :
    be16 (UInt16.ofNat (bigEndian bytes.toList)) = bytes := by
  obtain ⟨_ | ⟨a, _ | ⟨b, _ | _⟩⟩⟩ := bytes <;> simp at size
  have := a.toNat_lt
  have := b.toNat_lt
  simp [be16, bigEndian, ← UInt8.toNat_inj, Nat.shiftRight_eq_div_pow]
  omega

theorem be32_bigEndian {bytes : Bytes} (size : bytes.size = 4) :
    be32 (UInt32.ofNat (bigEndian bytes.toList)) = bytes := by
  obtain ⟨_ | ⟨a, _ | ⟨b, _ | ⟨c, _ | ⟨d, _ | _⟩⟩⟩⟩⟩ := bytes <;> simp at size
  have := a.toNat_lt
  have := b.toNat_lt
  have := c.toNat_lt
  have := d.toNat_lt
  simp [be32, bigEndian, ← UInt8.toNat_inj, Nat.shiftRight_eq_div_pow]
  omega

section
variable {data : Bytes} {pos : Nat}

theorem numberAt_eq_ok {width n : Nat} : data.numberAt pos width = .ok n ↔
    ∃ bytes, data.Holds pos bytes ∧ bytes.size = width ∧ bigEndian bytes.toList = n := by
  rw [numberAt, number]
  constructor
  · split
    · rename_i bound
      rintro ⟨⟩
      exact ⟨_, holds_extract bound, by simp only [Array.size_extract]; omega, rfl⟩
    · nofun
  · rintro ⟨bytes, h, rfl, rfl⟩
    rw [if_pos h.size_le, h.extract_eq]

theorem u8At_eq_ok {n : UInt8} : data.u8At pos = .ok n ↔ data.Holds pos #[n] := by
  simp only [u8At, map_eq_ok, numberAt_eq_ok]
  constructor
  · rintro ⟨_, ⟨bytes, h, size, rfl⟩, rfl⟩
    obtain ⟨_ | ⟨a, _ | _⟩⟩ := bytes <;> simp at size
    simpa [bigEndian] using h
  · exact fun h => ⟨_, ⟨_, h, rfl, rfl⟩, by simp [bigEndian]⟩

theorem u16At_eq_ok {n : UInt16} : data.u16At pos = .ok n ↔ data.Holds pos (be16 n) := by
  simp only [u16At, map_eq_ok, numberAt_eq_ok]
  constructor
  · rintro ⟨_, ⟨bytes, h, size, rfl⟩, rfl⟩
    rwa [be16_bigEndian size]
  · exact fun h => ⟨_, ⟨_, h, rfl, rfl⟩, by rw [bigEndian_be16, UInt16.ofNat_toNat]⟩

theorem u32At_eq_ok {n : UInt32} : data.u32At pos = .ok n ↔ data.Holds pos (be32 n) := by
  simp only [u32At, map_eq_ok, numberAt_eq_ok]
  constructor
  · rintro ⟨_, ⟨bytes, h, size, rfl⟩, rfl⟩
    rwa [be32_bigEndian size]
  · exact fun h => ⟨_, ⟨_, h, rfl, rfl⟩, by rw [bigEndian_be32, UInt32.ofNat_toNat]⟩

theorem tagAt_eq_ok {tag : Tag} : data.tagAt pos = .ok tag ↔ data.Holds pos (be32 tag.code) := by
  simp only [tagAt, map_eq_ok, u32At_eq_ok]
  constructor
  · rintro ⟨code, h, rfl⟩
    exact h
  · exact fun h => ⟨_, h, rfl⟩

theorem u16At_of_le (bound : pos + 2 ≤ data.size) : data.u16At pos = .ok (data.u16 pos) := by
  simp [u16At, numberAt, bound, u16, Except.map]

theorem u32At_of_le (bound : pos + 4 ≤ data.size) : data.u32At pos = .ok (data.u32 pos) := by
  simp [u32At, numberAt, bound, u32, Except.map]

theorem u16sAt_of_le {count : Nat} (bound : pos + 2 * count ≤ data.size) :
    data.u16sAt pos count = .ok ((List.range count).map fun i => data.u16 (pos + 2 * i)) := by
  have fits : count ≤ (data.size - pos) / 2 := by omega
  simp only [u16sAt, numbersAt, if_pos fits, Except.map, List.map_map]
  rfl

theorem eq_of_numberAt {width n : Nat} (run : data.numberAt pos width = .ok n) :
    n = data.number pos width := by
  rw [numberAt] at run
  split at run
  · exact (Except.ok.inj run).symm
  · cases run

theorem eq_of_numbersAt {width count : Nat} {numbers : List Nat}
    (run : data.numbersAt pos width count = .ok numbers) :
    numbers = (List.range count).map fun i => data.number (pos + width * i) width := by
  rw [numbersAt] at run
  split at run
  · exact (Except.ok.inj run).symm
  · cases run

theorem u16_of_u16At {n : UInt16} (run : data.u16At pos = .ok n) : data.u16 pos = n := by
  obtain ⟨_, number, rfl⟩ := map_eq_ok.1 run
  rw [eq_of_numberAt number, u16]

theorem u32_of_u32At {n : UInt32} (run : data.u32At pos = .ok n) : data.u32 pos = n := by
  obtain ⟨_, number, rfl⟩ := map_eq_ok.1 run
  rw [eq_of_numberAt number, u32]

theorem eq_of_u16sAt {count : Nat} {fields : List UInt16}
    (run : data.u16sAt pos count = .ok fields) :
    fields = (List.range count).map fun i => data.u16 (pos + 2 * i) := by
  obtain ⟨_, numbers, rfl⟩ := map_eq_ok.1 run
  rw [eq_of_numbersAt numbers, List.map_map]
  rfl

end

/-! ## Concatenations -/

theorem concat_nil : concat [] = #[] := rfl

theorem concat_cons (part : Bytes) (rest : List Bytes) :
    concat (part :: rest) = part ++ concat rest := by
  apply Array.ext'
  simp [toList_concat]

theorem concat_append (front back : List Bytes) :
    concat (front ++ back) = concat front ++ concat back := by
  apply Array.ext'
  simp [toList_concat]

theorem size_concat {parts : List Bytes} {width : Nat} (even : ∀ part ∈ parts, part.size = width) :
    (concat parts).size = width * parts.length := by
  induction parts with
  | nil => rfl
  | cons part rest ih =>
    obtain ⟨first, others⟩ := List.forall_mem_cons.1 even
    rw [concat_cons, Array.size_append, first, ih others, List.length_cons, Nat.mul_succ,
      Nat.add_comm]

theorem size_concat_perm {parts parts' : List Bytes} (perm : parts.Perm parts') :
    (concat parts).size = (concat parts').size := by
  induction perm with
  | nil => rfl
  | cons part _ ih => rw [concat_cons, concat_cons, Array.size_append, Array.size_append, ih]
  | swap first second rest =>
    simp only [concat_cons, Array.size_append]
    omega
  | trans _ _ ih ih' => exact ih.trans ih'

/-- Where part `index` of a concatenation begins. -/
def place (parts : List Bytes) (index : Nat) : Nat :=
  (concat (parts.take index)).size

theorem holds_concat {parts : List Bytes} {index : Nat} {part : Bytes}
    (found : parts[index]? = some part) : (concat parts).Holds (place parts index) part := by
  obtain ⟨bound, rfl⟩ := List.getElem?_eq_some_iff.1 found
  refine ⟨concat (parts.take index), concat (parts.drop (index + 1)), ?_, rfl⟩
  rw [Array.append_assoc, ← concat_cons, ← concat_append, ← List.drop_eq_getElem_cons bound,
    List.take_append_drop]

@[simp] theorem place_zero (parts : List Bytes) : place parts 0 = 0 := rfl

theorem place_cons (part : Bytes) (rest : List Bytes) (index : Nat) :
    place (part :: rest) (index + 1) = part.size + place rest index := by
  rw [place, List.take_succ_cons, concat_cons, Array.size_append, place]

theorem place_succ {parts : List Bytes} {index : Nat} {part : Bytes}
    (found : parts[index]? = some part) :
    place parts (index + 1) = place parts index + part.size := by
  rw [place, List.take_add_one, found, concat_append, Array.size_append, place]
  simp [concat]

theorem place_mono (parts : List Bytes) {i j : Nat} (le : i ≤ j) :
    place parts i ≤ place parts j := by
  obtain ⟨k, rfl⟩ := Nat.exists_eq_add_of_le le
  rw [place, place, List.take_add, concat_append, Array.size_append]
  exact Nat.le_add_right _ _

theorem place_length (parts : List Bytes) : place parts parts.length = (concat parts).size := by
  rw [place, List.take_length]

theorem place_le_size (parts : List Bytes) (index : Nat) :
    place parts index ≤ (concat parts).size := by
  have whole := congrArg (fun parts => (concat parts).size) (List.take_append_drop index parts)
  simp only [concat_append, Array.size_append] at whole
  rw [place]
  omega

theorem place_append_left {front : List Bytes} {index : Nat} (bound : index ≤ front.length)
    (back : List Bytes) : place (front ++ back) index = place front index := by
  rw [place, List.take_append_of_le_length bound, place]

theorem place_append_right (front back : List Bytes) (index : Nat) :
    place (front ++ back) (front.length + index) = (concat front).size + place back index := by
  rw [place, List.take_length_add_append, concat_append, Array.size_append, place]

/-- Parts that lie one after another are a part. -/
theorem holds_concat_of_parts {data : Bytes} {parts : List Bytes} {pos : Nat}
    (bound : pos ≤ data.size) (each : ∀ index part, parts[index]? = some part →
      data.Holds (pos + place parts index) part) : data.Holds pos (concat parts) := by
  induction parts generalizing pos with
  | nil => exact holds_of_getElem? bound nofun
  | cons part rest ih =>
    have first : data.Holds pos part := each 0 part rfl
    rw [concat_cons]
    refine first.append (ih first.size_le fun index next found => ?_)
    have here := each (index + 1) next found
    rwa [place_cons, ← Nat.add_assoc] at here

theorem place_of_even {parts : List Bytes} {width index : Nat}
    (even : ∀ part ∈ parts, part.size = width) (bound : index ≤ parts.length) :
    place parts index = width * index := by
  rw [place, size_concat fun part mem => even part (List.mem_of_mem_take mem),
    List.length_take_of_le bound]

theorem numbersAt_of_holds {data : Bytes} {pos width : Nat} {fields : List Bytes}
    (positive : 0 < width) (even : ∀ field ∈ fields, field.size = width)
    (h : data.Holds pos (concat fields)) : data.numbersAt pos width fields.length =
      .ok (fields.map fun field => bigEndian field.toList) := by
  have total := size_concat even
  have fits : fields.length ≤ (data.size - pos) / width := by
    rw [Nat.le_div_iff_mul_le positive, Nat.mul_comm, ← total]
    have := h.size_le
    omega
  rw [numbersAt, if_pos fits]
  congr 1
  apply List.ext_getElem (by simp)
  intro i _ bound
  rw [List.length_map] at bound
  have here := h.trans (holds_concat (List.getElem?_eq_getElem bound))
  rw [place_of_even even (Nat.le_of_lt bound)] at here
  have field := here.extract_eq
  rw [even _ (List.getElem_mem bound)] at field
  simp only [List.getElem_map, List.getElem_range, number]
  rw [field]

theorem u16sAt_of_holds {data : Bytes} {pos : Nat} {fields : List UInt16}
    (h : data.Holds pos (concat (fields.map be16))) :
    data.u16sAt pos fields.length = .ok fields := by
  have numbers := numbersAt_of_holds (by decide : 0 < 2) (by simp) h
  rw [List.length_map] at numbers
  simp [u16sAt, numbers, Except.map, Function.comp_def, bigEndian_be16]

theorem u32sAt_of_holds {data : Bytes} {pos : Nat} {fields : List UInt32}
    (h : data.Holds pos (concat (fields.map be32))) :
    data.u32sAt pos fields.length = .ok fields := by
  have numbers := numbersAt_of_holds (by decide : 0 < 4) (by simp) h
  rw [List.length_map] at numbers
  simp [u32sAt, numbers, Except.map, Function.comp_def, bigEndian_be32]

/-! ## Words -/

/-- The 16-bit fields that lie one after another from `pos` on. -/
def Words (data : Bytes) (pos : Nat) (words : List UInt16) : Prop :=
  data.Holds pos (concat (words.map be16))

/-- A count at `pos`, and behind it as many fields as it says. -/
def Counted (data : Bytes) (pos : Nat) (words : List UInt16) : Prop :=
  ∃ count, words.length = count.toNat ∧ data.Words pos (count :: words)

section
variable {data : Bytes} {pos : Nat} {word : UInt16} {words : List UInt16}

theorem words_nil : data.Words pos [] ↔ pos ≤ data.size := by
  constructor
  · exact Holds.size_le
  · exact fun bound => holds_of_getElem? bound (by simp [concat_nil])

theorem words_cons :
    data.Words pos (word :: words) ↔ data.u16At pos = .ok word ∧ data.Words (pos + 2) words := by
  simp only [Words, List.map_cons, concat_cons, holds_append_iff, u16At_eq_ok, size_be16]

theorem words_singleton : data.Words pos [word] ↔ data.u16At pos = .ok word := by
  rw [words_cons, words_nil, and_iff_left_iff_imp]
  intro here
  exact (u16At_eq_ok.1 here).size_le

theorem words_pair {other : UInt16} : data.Words pos [word, other] ↔
    data.u16At pos = .ok word ∧ data.u16At (pos + 2) = .ok other := by
  rw [words_cons, words_singleton]

theorem Words.start_le (h : data.Words pos words) : pos ≤ data.size :=
  Nat.le_trans (Nat.le_add_right _ _) h.size_le

theorem words_values {count : Nat} (bound : pos + 2 * count ≤ data.size) :
    data.Words pos ((List.range count).map fun i => data.u16 (pos + 2 * i)) := by
  induction count generalizing pos with
  | zero => exact words_nil.2 bound
  | succ count ih =>
    rw [List.range_succ_eq_map, List.map_cons, List.map_map, words_cons]
    refine ⟨u16At_of_le (by omega), ?_⟩
    have bound' : pos + 2 + 2 * count ≤ data.size := by omega
    have rest := ih bound'
    simpa only [Function.comp_def, Nat.mul_succ, Nat.add_assoc, Nat.add_comm 2] using rest

theorem u16sAt_eq_ok {count : Nat} (start : pos ≤ data.size) :
    data.u16sAt pos count = .ok words ↔ words.length = count ∧ data.Words pos words := by
  constructor
  · intro run
    have fits : pos + 2 * count ≤ data.size := by
      obtain ⟨_, numbers, -⟩ := map_eq_ok.1 run
      rw [numbersAt] at numbers
      split at numbers
      · omega
      · cases numbers
    cases eq_of_u16sAt run
    exact ⟨by simp, words_values fits⟩
  · rintro ⟨rfl, here⟩
    exact u16sAt_of_holds here

theorem counted_iff : data.Counted pos words ↔
    ∃ count, data.u16At pos = .ok count ∧ data.u16sAt (pos + 2) count.toNat = .ok words := by
  simp only [Counted, words_cons]
  constructor
  · rintro ⟨count, length, here, listed⟩
    exact ⟨count, here, (u16sAt_eq_ok listed.start_le).2 ⟨length, listed⟩⟩
  · rintro ⟨count, here, listed⟩
    have start : pos + 2 ≤ data.size := (u16At_eq_ok.1 here).size_le
    obtain ⟨length, listed⟩ := (u16sAt_eq_ok start).1 listed
    exact ⟨count, length, here, listed⟩

end

end FontSubset.Bytes
