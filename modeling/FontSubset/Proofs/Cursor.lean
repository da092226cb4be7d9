import FontSubset.Cursor
import FontSubset.Proofs.Result

/-!
# One position

A byte that has been taken back and the place of the next byte make up one position, on which all
operations of a cursor agree.

* `readBytes_eq_reads`: a block is read as its bytes are one by one, and a skip followed by a read
  does what as many reads of a byte followed by that read do.
-/

namespace FontSubset.Cursor

/-! ## Readings -/

/-- What a reading gives, and the cursor behind it. -/
def perform {α : Type} (c : Cursor) (r : Reading α) : Except FontError α × Cursor :=
  r.run.run c

/-- Readings that are made of readings of blocks. -/
inductive Blockwise : {α : Type} → Reading α → Prop
  | bytes (count : Nat) : Blockwise (readBytes count)
  | pure {α : Type} (a : α) : Blockwise (pure a)
  | bind {α β : Type} {r : Reading α} {next : α → Reading β} :
      Blockwise r → (∀ a, Blockwise (next a)) → Blockwise (r >>= next)

theorem Blockwise.map {α β : Type} {r : Reading α} (f : α → β) (h : Blockwise r) :
    Blockwise (f <$> r) := by
  rw [map_eq_pure_bind]
  exact .bind h fun a => .pure (f a)

theorem blockwise_readNumber (width : Nat) : Blockwise (readNumber width) :=
  .map _ (.bytes width)

theorem blockwise_readNumberLittle (width : Nat) : Blockwise (readNumberLittle width) :=
  .map _ (.bytes width)

/-- All typed readings are made of readings of blocks. -/
theorem blockwise_typed :
    Blockwise readU8 ∧ Blockwise readI8 ∧ Blockwise readU16 ∧ Blockwise readI16 ∧
    Blockwise readU32 ∧ Blockwise readI32 ∧ Blockwise readU64 ∧
    Blockwise readU16Little ∧ Blockwise readI16Little ∧
    Blockwise readU32Little ∧ Blockwise readI32Little ∧ Blockwise readU64Little ∧
    Blockwise readTag ∧ ∀ count, Blockwise (readLatin1 count) := by
  have u8 : Blockwise readU8 := .map _ (blockwise_readNumber 1)
  have u16 : Blockwise readU16 := .map _ (blockwise_readNumber 2)
  have u32 : Blockwise readU32 := .map _ (blockwise_readNumber 4)
  have u16Little : Blockwise readU16Little := .map _ (blockwise_readNumberLittle 2)
  have u32Little : Blockwise readU32Little := .map _ (blockwise_readNumberLittle 4)
  have pair {r : Reading UInt32} (half : Blockwise r) (join : UInt32 → UInt32 → UInt64) :
      Blockwise (do return join (← r) (← r)) :=
    .bind half fun first => .bind half fun second => .pure (join first second)
  exact ⟨u8, .map _ u8, u16, .map _ u16, u32, .map _ u32, pair u32 _, u16Little, .map _ u16Little,
    u32Little, .map _ u32Little, pair u32Little _, .map _ u32, fun count => .map _ (.bytes count)⟩

/-! ## Cursors that are reached -/

/-- The cursors over some bytes that the operations lead to. A byte is taken back only right after
it has been read. -/
inductive Reached (data : Bytes) : Cursor → Prop
  | start : Reached data (ofBytes data)
  | seek {c : Cursor} (place : Nat) : Reached data c → Reached data (c.seek place)
  | skip {c : Cursor} (count : Nat) : Reached data c → Reached data (c.skip count)
  | read {c : Cursor} : Reached data c → Reached data c.read.2
  | perform {α : Type} {r : Reading α} {c : Cursor} : Blockwise r → Reached data c →
      Reached data (c.perform r).2
  | pushBack {c c' : Cursor} {b : UInt8} : Reached data c → c.read = (some b, c') →
      Reached data (c'.pushBack b)

/-- A cursor over the data. A byte that has been taken back is the one before the next byte. -/
structure Sound (data : Bytes) (c : Cursor) : Prop where
  same : c.data = data
  bounded : c.next ≤ maxPosition
  pending : ∀ b, c.pending = some b → 0 < c.next ∧ data[c.next - 1]? = some b

/-- The cursor at a place, without a byte taken back. -/
def settled (data : Bytes) (place : Nat) : Cursor :=
  ⟨data, place, none⟩

theorem position_settled (data : Bytes) (place : Nat) : (settled data place).position = place := rfl

/-- The bytes from a place on, at most `count` of them. -/
def block (data : Bytes) (place count : Nat) : List UInt8 :=
  (data.toList.drop place).take count

theorem block_succ {data : Bytes} {place : Nat} {b : UInt8} (here : data[place]? = some b)
    (count : Nat) : block data place (count + 1) = b :: block data (place + 1) count := by
  obtain ⟨bound, rfl⟩ := Array.getElem?_eq_some_iff.1 here
  rw [block, List.drop_eq_getElem_cons (by simpa using bound), List.take_succ_cons, block,
    Array.getElem_toList]

theorem toList_extract_eq_block (data : Bytes) (place count : Nat) :
    (data.extract place (place + count)).toList = block data place count := by
  simp [block, List.take_drop]

theorem perform_eq (c : Cursor) (count : Nat) : c.perform (readBytes count) =
    if count = 0 then (.ok [], c) else
    let wanted := count - c.pending.toList.length
    if c.next + wanted ≤ c.data.size then
      (.ok (c.pending.toList ++ (c.data.extract c.next (c.next + wanted)).toList),
        settled c.data (c.next + wanted))
    else (.error (.endOfData c.position count), settled c.data c.next) := rfl

theorem sound_settled {data : Bytes} {place : Nat} (bounded : place ≤ maxPosition) :
    Sound data (settled data place) :=
  ⟨rfl, bounded, nofun⟩

section
variable {data : Bytes} {c : Cursor} {count : Nat} (sound : Sound data c)
include sound

theorem Sound.position_le : c.position ≤ maxPosition := by
  have := sound.bounded
  unfold position
  split <;> omega

theorem read_eq_some {b : UInt8} (here : data[c.position]? = some b) :
    c.read = (some b, settled data (c.position + 1)) := by
  obtain ⟨bytes, next, pending⟩ := c
  obtain ⟨rfl, -, taken⟩ := sound
  cases pending with
  | none =>
    have there : bytes[next]? = some b := here
    simp [read, there, settled, position]
  | some a =>
    obtain ⟨positive, before⟩ := taken a rfl
    obtain rfl : a = b := Option.some.inj (before.symm.trans here)
    simp [read, settled, position, Nat.sub_add_cancel positive]

theorem read_eq_none (past : data[c.position]? = none) :
    c.read = (none, settled data c.position) := by
  obtain ⟨bytes, next, pending⟩ := c
  obtain ⟨rfl, -, taken⟩ := sound
  cases pending with
  | none =>
    have there : bytes[next]? = none := past
    simp [read, there, settled, position]
  | some a =>
    obtain ⟨-, before⟩ := taken a rfl
    cases past.symm.trans before

theorem perform_readBytes (positive : 0 < count) (bound : c.position + count ≤ data.size) :
    c.perform (readBytes count) =
      (.ok (block data c.position count), settled data (c.position + count)) := by
  obtain ⟨bytes, next, pending⟩ := c
  obtain ⟨rfl, -, taken⟩ := sound
  rw [perform_eq, if_neg (by omega)]
  cases pending with
  | none =>
    have bound : next + count ≤ bytes.size := bound
    simp [-Array.toList_extract, bound, position, toList_extract_eq_block]
  | some b =>
    obtain ⟨positive', before⟩ : 0 < next ∧ bytes[next - 1]? = some b := taken b rfl
    have bound : next - 1 + count ≤ bytes.size := bound
    obtain ⟨others, rfl⟩ : ∃ others, count = others + 1 := ⟨count - 1, by omega⟩
    have place : next - 1 + (others + 1) = next + others := by omega
    rw [place] at bound
    simp [-Array.toList_extract, position, bound, place, toList_extract_eq_block,
      block_succ before, Nat.sub_add_cancel positive']

theorem perform_readBytes_past (positive : 0 < count) (past : data.size < c.position + count) :
    c.perform (readBytes count) =
      (.error (.endOfData c.position count), settled data c.next) := by
  obtain ⟨bytes, next, pending⟩ := c
  obtain ⟨rfl, -, taken⟩ := sound
  have far : ¬ next + (count - pending.toList.length) ≤ bytes.size := by
    cases pending with
    | none => simpa [position] using past
    | some b =>
      have : 0 < next := (taken b rfl).1
      simp [position] at past ⊢
      omega
  rw [perform_eq, if_neg (by omega)]
  simp [far]

end

/-! ## Bytes read one by one -/

/-- So many reads of a byte, one after another. -/
def reads : Nat → Cursor → List (Option UInt8) × Cursor
  | 0, c => ([], c)
  | count + 1, c =>
    let (first, next) := c.read
    let (others, last) := reads count next
    (first :: others, last)

section
variable {data : Bytes} {c : Cursor} {count : Nat}

theorem reads_settled {place : Nat} (small : data.size ≤ maxPosition)
    (bound : place + count ≤ data.size) : reads count (settled data place) =
      ((block data place count).map some, settled data (place + count)) := by
  induction count generalizing place with
  | zero => simp [reads, block]
  | succ count ih =>
    have here : data[place]? = some data[place] := Array.getElem?_eq_getElem (by omega)
    have sound : Sound data (settled data place) := sound_settled (by omega)
    have first := read_eq_some sound here
    rw [position_settled] at first
    rw [reads, first, block_succ here]
    dsimp only
    rw [ih (by omega)]
    simp [Nat.add_assoc, Nat.add_comm 1]

theorem reads_of_le (sound : Sound data c) (small : data.size ≤ maxPosition) (positive : 0 < count)
    (bound : c.position + count ≤ data.size) : reads count c =
      ((block data c.position count).map some, settled data (c.position + count)) := by
  obtain ⟨others, rfl⟩ : ∃ others, count = others + 1 := ⟨count - 1, by omega⟩
  have here : data[c.position]? = some data[c.position] := Array.getElem?_eq_getElem (by omega)
  rw [reads, read_eq_some sound here, block_succ here]
  dsimp only
  rw [reads_settled small (by omega)]
  simp [Nat.add_assoc, Nat.add_comm 1]

theorem none_mem_reads (sound : Sound data c) (small : data.size ≤ maxPosition)
    (positive : 0 < count) (past : data.size < c.position + count) : none ∈ (reads count c).1 := by
  induction count generalizing c with
  | zero => omega
  | succ count ih =>
    rw [reads]
    by_cases here : c.position < data.size
    · rw [read_eq_some sound (Array.getElem?_eq_getElem here)]
      refine List.mem_cons_of_mem _ (ih (sound_settled (by omega)) ?_ ?_)
      · omega
      · rw [position_settled]
        omega
    · rw [read_eq_none sound (Array.getElem?_eq_none (by omega))]
      exact List.mem_cons_self

end

/-! ## Operations that go by the position -/

section
variable {α β : Type} {r : Reading α} {c c' : Cursor}

theorem perform_bind_of_ok {a : α} (ran : c.perform r = (.ok a, c')) (next : α → Reading β) :
    c.perform (r >>= next) = c'.perform (next a) :=
  run_bind_of_ok ran next

theorem perform_bind_of_error {e : FontError} (ran : c.perform r = (.error e, c'))
    (next : α → Reading β) : c.perform (r >>= next) = (.error e, c') :=
  run_bind_of_error ran next

end

section
variable {data : Bytes} {c c' : Cursor} {α : Type} {r : Reading α}
  (small : data.size ≤ maxPosition)
include small

theorem Sound.read (sound : Sound data c) : Sound data c.read.2 := by
  cases here : data[c.position]? with
  | none =>
    rw [read_eq_none sound here]
    exact sound_settled sound.position_le
  | some b =>
    obtain ⟨bound, -⟩ := Array.getElem?_eq_some_iff.1 here
    rw [read_eq_some sound here]
    exact sound_settled (by omega)

theorem Sound.perform (blockwise : Blockwise r) (sound : Sound data c) :
    Sound data (c.perform r).2 := by
  induction blockwise generalizing c with
  | bytes count =>
    rcases Nat.eq_zero_or_pos count with rfl | positive
    · exact sound
    · by_cases bound : c.position + count ≤ data.size
      · rw [perform_readBytes sound positive bound]
        exact sound_settled (by omega)
      · rw [perform_readBytes_past sound positive (by omega)]
        exact sound_settled sound.bounded
  | pure a => exact sound
  | @bind α β r next _ _ first others =>
    rcases ran : c.perform r with ⟨_ | a, c'⟩
    · rw [perform_bind_of_error ran]
      simpa [ran] using first sound
    · rw [perform_bind_of_ok ran]
      exact others a (by simpa [ran] using first sound)

omit small in
theorem Sound.pushBack {b : UInt8} (sound : Sound data c) (run : c.read = (some b, c'))
    (sound' : Sound data c') : Sound data (c'.pushBack b) := by
  cases here : data[c.position]? with
  | none =>
    rw [read_eq_none sound here] at run
    cases run
  | some a =>
    rw [read_eq_some sound here] at run
    cases run
    refine ⟨rfl, sound'.bounded, ?_⟩
    rintro _ ⟨⟩
    exact ⟨Nat.succ_pos _, here⟩

theorem Reached.sound (reached : Reached data c) : Sound data c := by
  induction reached with
  | start => exact sound_settled (Nat.zero_le _)
  | seek place _ ih => exact ⟨ih.same, Nat.min_le_right _ _, nofun⟩
  | skip count _ ih => exact ⟨ih.same, Nat.min_le_right _ _, nofun⟩
  | read _ ih => exact ih.read small
  | perform blockwise _ ih => exact ih.perform small blockwise
  | pushBack _ run ih =>
    refine ih.pushBack run ?_
    have sound := ih.read small
    rwa [run] at sound

omit small in
theorem read_congr (sound : Sound data c) (sound' : Sound data c')
    (same : c.position = c'.position) : c.read = c'.read := by
  cases here : data[c.position]? with
  | none => rw [read_eq_none sound here, read_eq_none sound' (same ▸ here), same]
  | some b => rw [read_eq_some sound here, read_eq_some sound' (same ▸ here), same]

/-- Behind a reading that fails, the positions may differ by a byte that has been taken back. -/
theorem perform_congr (blockwise : Blockwise r) (sound : Sound data c) (sound' : Sound data c')
    (same : c.position = c'.position) : (c.perform r).1 = (c'.perform r).1 ∧
      ∀ a, (c.perform r).1 = .ok a → (c.perform r).2.position = (c'.perform r).2.position := by
  induction blockwise generalizing c c' with
  | bytes count =>
    rcases Nat.eq_zero_or_pos count with rfl | positive
    · exact ⟨rfl, fun _ _ => same⟩
    · by_cases bound : c.position + count ≤ data.size
      · rw [perform_readBytes sound positive bound,
          perform_readBytes sound' positive (same ▸ bound), same]
        exact ⟨rfl, fun _ _ => rfl⟩
      · rw [perform_readBytes_past sound positive (by omega),
          perform_readBytes_past sound' positive (by omega), same]
        exact ⟨rfl, nofun⟩
  | pure a => exact ⟨rfl, fun _ _ => same⟩
  | @bind α β r next blockwise _ first others =>
    obtain ⟨result, position⟩ := first sound sound' same
    have behind := sound.perform small blockwise
    have behind' := sound'.perform small blockwise
    rcases ran : c.perform r with ⟨e | a, c₁⟩ <;> rcases ran' : c'.perform r with ⟨e' | a', c₁'⟩ <;>
      rw [ran, ran'] at result <;> cases result
    · rw [perform_bind_of_error ran, perform_bind_of_error ran']
      exact ⟨rfl, nofun⟩
    · rw [ran, ran'] at position
      rw [ran] at behind
      rw [ran'] at behind'
      rw [perform_bind_of_ok ran, perform_bind_of_ok ran']
      exact others a behind behind' (position a rfl)

end

/-! ## Blocks and skips -/

section
variable {data : Bytes} {c : Cursor} (sound : Sound data c) (small : data.size ≤ maxPosition)
include sound small

/-- Either all reads give a byte, and the block is these bytes, or one of them fails. -/
theorem readBytes_cases (count : Nat) :
    (∃ bytes, c.perform (readBytes count) = (.ok bytes, (reads count c).2) ∧
      (reads count c).1 = bytes.map some ∧ (reads count c).2.position = c.position + count) ∨
    ((c.perform (readBytes count)).1 = .error (.endOfData c.position count) ∧
      none ∈ (reads count c).1) := by
  rcases Nat.eq_zero_or_pos count with rfl | positive
  · exact .inl ⟨[], rfl, rfl, rfl⟩
  · by_cases bound : c.position + count ≤ data.size
    · rw [perform_readBytes sound positive bound, reads_of_le sound small positive bound]
      exact .inl ⟨_, rfl, rfl, rfl⟩
    · rw [perform_readBytes_past sound positive (by omega)]
      exact .inr ⟨rfl, none_mem_reads sound small positive (by omega)⟩

/-- Reads that all give a byte stay within the data. -/
theorem bound_of_reads {count : Nat} (positive : 0 < count) (there : none ∉ (reads count c).1) :
    c.position + count ≤ data.size := by
  by_contra past
  exact there (none_mem_reads sound small positive (by omega))

theorem skip_eq_settled {count : Nat} (there : none ∉ (reads count c).1) :
    c.skip count = settled data (c.position + count) := by
  have bound : c.position + count ≤ maxPosition := by
    rcases Nat.eq_zero_or_pos count with rfl | positive
    · exact sound.position_le
    · exact Nat.le_trans (bound_of_reads sound small positive there) small
  rw [skip, seek, Nat.min_eq_left bound, sound.same]
  rfl

theorem sound_reads {count : Nat} (there : none ∉ (reads count c).1) :
    Sound data (reads count c).2 ∧ (reads count c).2.position = c.position + count := by
  rcases Nat.eq_zero_or_pos count with rfl | positive
  · exact ⟨sound, rfl⟩
  · have bound := bound_of_reads sound small positive there
    rw [reads_of_le sound small positive bound]
    exact ⟨sound_settled (by omega), rfl⟩

end

/-- A block of bytes is read just when so many bytes can be read one by one, and leads to the same
cursor. A skip over bytes that are there leads to where reading them does; without any to skip, the
cursors differ at most by a byte taken back, and the next read gives the same.

Behind a reading that fails the cursors may differ where nothing is skipped: a byte taken back may be
there for one of them and used up for the other. Data in memory is shorter than the largest position;
lengths past the largest signed number of 64 bits, of which no block can be allocated, are not
modelled. -/
theorem readBytes_eq_reads {data : Bytes} {c : Cursor} (reached : Reached data c)
    (small : data.size ≤ maxPosition) :
    (∀ count,
      (∀ bytes, (c.perform (readBytes count)).1 = .ok bytes ↔ (reads count c).1 = bytes.map some) ∧
      (∀ bytes, (c.perform (readBytes count)).1 = .ok bytes →
        (c.perform (readBytes count)).2 = (reads count c).2 ∧
          (reads count c).2.position = c.position + count) ∧
      (none ∈ (reads count c).1 →
        (c.perform (readBytes count)).1 = .error (.endOfData c.position count))) ∧
    ∀ count, none ∉ (reads count c).1 →
      (0 < count → c.skip count = (reads count c).2) ∧
      (c.skip count).read = (reads count c).2.read ∧
      ∀ {α : Type} (r : Reading α), Blockwise r →
        ((c.skip count).perform r).1 = ((reads count c).2.perform r).1 ∧
        ∀ a, ((c.skip count).perform r).1 = .ok a →
          ((c.skip count).perform r).2.position = ((reads count c).2.perform r).2.position := by
  have sound := reached.sound small
  constructor
  · intro count
    rcases readBytes_cases sound small count with ⟨read, run, each, position⟩ | ⟨run, missing⟩
    · rw [run, each]
      refine ⟨fun bytes => ?_, fun _ _ => ⟨rfl, position⟩, fun missing => by simp at missing⟩
      simp [List.map_inj_right]
    · refine ⟨fun bytes => ?_, fun bytes read => ?_, fun _ => run⟩
      · rw [run]
        refine ⟨nofun, fun each => ?_⟩
        simp [each] at missing
      · cases run.symm.trans read
  · intro count there
    have skipped := skip_eq_settled sound small there
    obtain ⟨behind, position⟩ := sound_reads sound small there
    have settles : Sound data (c.skip count) := (Reached.skip count reached).sound small
    have same : (c.skip count).position = (reads count c).2.position := by
      rw [skipped, position_settled, position]
    refine ⟨fun positive => ?_, read_congr settles behind same, fun r blockwise =>
      perform_congr small blockwise settles behind same⟩
    rw [skipped, reads_of_le sound small positive (bound_of_reads sound small positive there)]

/-- The first of three bytes has been read and taken back. -/
def takenBack : Cursor :=
  (ofBytes #[1, 2, 3]).read.2.pushBack 1

theorem reached_takenBack : Reached #[1, 2, 3] takenBack :=
  .pushBack .start rfl

theorem readBytes_eq_reads_takenBack :
    Reached #[1, 2, 3] takenBack ∧
    (takenBack.perform (readBytes 2)).1 = .ok [1, 2] ∧
    (takenBack.perform (readBytes 4)).1 = .error (.endOfData 0 4) ∧
    ((takenBack.skip 2).perform readU8).1 = .ok 3 := by
  obtain ⟨blocks, skips⟩ := readBytes_eq_reads reached_takenBack (by decide)
  obtain ⟨read, -, -⟩ := blocks 2
  obtain ⟨-, -, past⟩ := blocks 4
  obtain ⟨-, -, same⟩ := skips 2 (by decide)
  refine ⟨reached_takenBack, (read [1, 2]).2 rfl, past (by decide), ?_⟩
  obtain ⟨result, -⟩ := same readU8 blockwise_typed.1
  exact result.trans rfl

end FontSubset.Cursor
