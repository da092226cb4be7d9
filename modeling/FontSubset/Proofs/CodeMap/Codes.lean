import FontSubset.CodeMap.Basic
import Mathlib.Data.List.Induction

/-!
# Strings of codes

* `codes_concat`: codes of different lengths that are told apart by the code spaces are found again
  in the string that they make up, whatever follows them, and any string is cut into codes without
  a remainder.
-/

namespace FontSubset

/-! ## The bytes of a code -/

/-- The last `length` bytes of a code, most significant byte first. -/
def codeBytes : Nat → UInt32 → List UInt8
  | 0, _ => []
  | length + 1, code => codeBytes length (code >>> 8) ++ [code.toUInt8]

@[simp] theorem length_codeBytes (length : Nat) (code : UInt32) :
    (codeBytes length code).length = length := by
  induction length generalizing code with
  | zero => rfl
  | succ length ih => rw [codeBytes, List.length_append, ih, List.length_singleton]

theorem codeOf_append (bytes : List UInt8) (b : UInt8) :
    codeOf (bytes ++ [b]) = codeOf bytes <<< 8 ||| b.toUInt32 := by
  rw [codeOf, List.foldl_append, ← codeOf]
  rfl

theorem toNat_shift_or (n : UInt32) (b : UInt8) :
    (n <<< 8 ||| b.toUInt32).toNat = (n.toNat * 256 + b.toNat) % UInt32.size := by
  have size : UInt32.size = 4294967296 := rfl
  have small : b.toNat < 2 ^ 8 := b.toNat_lt
  have upper : n.toNat * 256 % 4294967296 = n.toNat % 16777216 * 2 ^ 8 := by omega
  have join := Nat.shiftLeft_add_eq_or_of_lt small (n.toNat % 16777216)
  rw [Nat.shiftLeft_eq] at join
  simp only [UInt32.toNat_or, UInt32.toNat_shiftLeft, UInt8.toNat_toUInt32, Nat.shiftLeft_eq,
    UInt32.reduceToNat, Nat.reduceMod, Nat.reducePow, upper, ← join, size]
  omega

theorem codeOf_lt (bytes : List UInt8) : (codeOf bytes).toNat < Nat.pow 256 bytes.length := by
  induction bytes using List.reverseRecOn with
  | nil => exact Nat.one_pos
  | append_singleton bytes b ih =>
    rw [codeOf_append, toNat_shift_or, List.length_append, List.length_singleton]
    have small := b.toNat_lt
    have wraps := Nat.mod_le ((codeOf bytes).toNat * 256 + b.toNat) UInt32.size
    have power : Nat.pow 256 (bytes.length + 1) = Nat.pow 256 bytes.length * 256 := rfl
    omega

theorem codeOf_codeBytes {length : Nat} {code : UInt32} (fits : code.toNat < Nat.pow 256 length) :
    codeOf (codeBytes length code) = code := by
  induction length generalizing code with
  | zero =>
    have zero : code.toNat = 0 := Nat.lt_one_iff.1 fits
    exact (UInt32.toNat_inj.1 zero).symm
  | succ length ih =>
    have power : Nat.pow 256 (length + 1) = Nat.pow 256 length * 256 := rfl
    have upper : (code >>> 8).toNat = code.toNat / 256 := by
      simp [Nat.shiftRight_eq_div_pow]
    have size : UInt32.size = 4294967296 := rfl
    have bound := code.toNat_lt
    have lower : code.toUInt8.toNat = code.toNat % 256 := UInt32.toNat_toUInt8 code
    rw [codeBytes, codeOf_append, ih (by omega), ← UInt32.toNat_inj, toNat_shift_or, upper, lower, size]
    omega

namespace CodeMap

/-! ## Ranges of codes -/

theorem toNat_add_ofNat {low : UInt32} {step : Nat} (small : low.toNat + step < UInt32.size) :
    (low + UInt32.ofNat step).toNat = low.toNat + step := by
  have size : UInt32.size = 4294967296 := rfl
  rw [UInt32.toNat_add, UInt32.toNat_ofNat']
  omega

theorem rangeSize_le (low high : UInt32) : low.toNat + rangeSize low high ≤ UInt32.size := by
  have size : UInt32.size = 4294967296 := rfl
  have := low.toNat_lt
  have := high.toNat_lt
  rw [rangeSize]
  omega

theorem covered_iff {low high code : UInt32} : low.toNat ≤ code.toNat ∧
    code.toNat < low.toNat + rangeSize low high ↔ low ≤ code ∧ code ≤ high := by
  rw [UInt32.le_iff_toNat_le, UInt32.le_iff_toNat_le, rangeSize]
  omega

theorem toNat_add_of_lt {low high : UInt32} {step : Nat} (bound : step < rangeSize low high) :
    (low + UInt32.ofNat step).toNat = low.toNat + step := by
  have fits := rangeSize_le low high
  exact toNat_add_ofNat (by omega)

theorem covered_add {low high : UInt32} {step : Nat} (bound : step < rangeSize low high) :
    low ≤ low + UInt32.ofNat step ∧ low + UInt32.ofNat step ≤ high := by
  rw [← covered_iff, toNat_add_of_lt bound]
  omega

/-- Gives consecutive codes the values that there are for them. -/
def fillFrom {β : Type} (low : UInt32) (value? : Nat → Option β) (count : Nat)
    (table : Std.TreeMap UInt32 β) : Std.TreeMap UInt32 β :=
  (List.range count).foldl (fun table step =>
    (value? step).elim table (table.insert (low + UInt32.ofNat step))) table

theorem fillFrom_succ {β : Type} (low : UInt32) (value? : Nat → Option β) (count : Nat)
    (table : Std.TreeMap UInt32 β) : fillFrom low value? (count + 1) table =
      (value? count).elim (fillFrom low value? count table)
        ((fillFrom low value? count table).insert (low + UInt32.ofNat count)) := by
  rw [fillFrom, List.range_succ, List.foldl_append]
  rfl

theorem getElem?_fillFrom {β : Type} {low : UInt32} {value? : Nat → Option β} {count : Nat}
    (fits : low.toNat + count ≤ UInt32.size) (table : Std.TreeMap UInt32 β) (code : UInt32) :
    (fillFrom low value? count table)[code]? =
      if low.toNat ≤ code.toNat ∧ code.toNat < low.toNat + count then
        (value? (code.toNat - low.toNat)).or table[code]?
      else table[code]? := by
  induction count with
  | zero => rw [if_neg (by omega)]; rfl
  | succ count ih =>
    have here := toNat_add_ofNat (Nat.lt_of_succ_le fits)
    rw [fillFrom_succ]
    by_cases last : low + UInt32.ofNat count = code
    · rw [last] at here
      have unset := ih (by omega)
      rw [if_neg (by omega)] at unset
      rw [if_pos (by omega), here, Nat.add_sub_cancel_left, last]
      cases value? count with
      | none => exact unset
      | some value => simp
    · have other : code.toNat ≠ low.toNat + count := by
        rw [← here]
        exact fun same => last (UInt32.toNat_inj.1 same.symm)
      have within : low.toNat ≤ code.toNat ∧ code.toNat < low.toNat + (count + 1) ↔
          low.toNat ≤ code.toNat ∧ code.toNat < low.toNat + count := by omega
      rw [if_congr within rfl rfl, ← ih (by omega)]
      cases value? count with
      | none => rfl
      | some value => simp [Std.TreeMap.getElem?_insert, last]

variable (m : CodeMap)

/-! ## One code -/

theorem accepts_eq_true {m : CodeMap} {bytes : List UInt8} {length : Nat} :
    m.accepts bytes length = true ↔ length ≤ bytes.length ∧
      ∃ s ∈ m.spaces, s.contains (codeOf (bytes.take length)) length := by
  have fits : (bytes.take length).length = length ↔ length ≤ bytes.length := by
    rw [List.length_take]
    omega
  rw [accepts, decide_eq_true_eq, fits, List.any_eq_true]

theorem nextCode_eq (bytes : List UInt8) : m.nextCode bytes =
    ((List.range' 1 4).find? (m.accepts bytes)).elim ((bytes.headD 0).toUInt32, 1)
      fun length => (codeOf (bytes.take length), length) := by
  rw [nextCode, show [1, 2, 3, 4] = List.range' 1 4 from rfl]
  cases (List.range' 1 4).find? (m.accepts bytes) <;> rfl

/-- A code takes up at least a byte, and not more than there are. -/
theorem length_nextCode {bytes : List UInt8} (more : bytes ≠ []) :
    1 ≤ (m.nextCode bytes).2 ∧ (m.nextCode bytes).2 ≤ bytes.length := by
  rw [nextCode_eq]
  cases found : (List.range' 1 4).find? (m.accepts bytes) with
  | none => exact ⟨Nat.le_refl 1, List.length_pos_iff.2 more⟩
  | some length =>
    obtain ⟨accepted, range, -⟩ := List.find?_range'_eq_some.1 found
    exact ⟨(List.mem_range'_1.1 range).1, (accepts_eq_true.1 accepted).1⟩

/-- A code of some length is the shortest one of a code space that its bytes begin with. -/
structure Shortest (code : UInt32) (length : Nat) : Prop where
  one_le : 1 ≤ length
  le_four : length ≤ 4
  fits : code.toNat < Nat.pow 256 length
  within : ∃ s ∈ m.spaces, s.contains code length
  first : ∀ shorter < length, 1 ≤ shorter → ∀ s ∈ m.spaces,
    ¬ s.contains (codeOf ((codeBytes length code).take shorter)) shorter

instance (code : UInt32) (length : Nat) : Decidable (m.Shortest code length) :=
  decidable_of_iff (1 ≤ length ∧ length ≤ 4 ∧ code.toNat < Nat.pow 256 length ∧
    (∃ s ∈ m.spaces, s.contains code length) ∧ ∀ shorter < length, 1 ≤ shorter → ∀ s ∈ m.spaces,
      ¬ s.contains (codeOf ((codeBytes length code).take shorter)) shorter)
    ⟨fun ⟨one, four, fits, within, first⟩ => ⟨one, four, fits, within, first⟩,
      fun ⟨one, four, fits, within, first⟩ => ⟨one, four, fits, within, first⟩⟩

theorem nextCode_codeBytes {m : CodeMap} {code : UInt32} {length : Nat}
    (shortest : m.Shortest code length) (behind : List UInt8) :
    m.nextCode (codeBytes length code ++ behind) = (code, length) := by
  have front (l : Nat) (inside : l ≤ length) : (codeBytes length code ++ behind).take l =
      (codeBytes length code).take l :=
    List.take_append_of_le_length (by rwa [length_codeBytes])
  have whole : codeOf ((codeBytes length code ++ behind).take length) = code := by
    rw [front length (Nat.le_refl _), List.take_of_length_le (by simp),
      codeOf_codeBytes shortest.fits]
  have found : (List.range' 1 4).find? (m.accepts (codeBytes length code ++ behind)) =
      some length := by
    refine List.find?_range'_eq_some.2 ⟨accepts_eq_true.2 ⟨by simp, ?_⟩, ?_, ?_⟩
    · rw [whole]
      exact shortest.within
    · exact List.mem_range'_1.2 ⟨shortest.one_le, Nat.lt_succ_of_le shortest.le_four⟩
    · intro shorter positive less
      rw [Bool.not_eq_true', Bool.eq_false_iff]
      intro accepted
      obtain ⟨-, s, mem, contains⟩ := accepts_eq_true.1 accepted
      rw [front shorter (Nat.le_of_lt less)] at contains
      exact shortest.first shorter less positive s mem contains
  rw [nextCode_eq, found, Option.elim_some, whole]

/-! ## Many codes -/

theorem codes_eq {bytes : List UInt8} (more : bytes ≠ []) :
    m.codes bytes = (m.nextCode bytes).1 :: m.codes (bytes.drop (m.nextCode bytes).2) := by
  obtain ⟨b, rest, rfl⟩ := List.exists_cons_of_ne_nil more
  have positive := (m.length_nextCode more).1
  have left : rest.drop ((m.nextCode (b :: rest)).2 - 1) =
      (b :: rest).drop (m.nextCode (b :: rest)).2 := by
    rw [← List.drop_succ_cons, Nat.sub_add_cancel positive]
  rw [codes, ← left]

/-- The string that codes of the given lengths make up. -/
def spelled (codes : List (UInt32 × Nat)) : List UInt8 :=
  codes.flatMap fun code => codeBytes code.2 code.1

theorem codes_spelled {m : CodeMap} {codes : List (UInt32 × Nat)}
    (shortest : ∀ code ∈ codes, m.Shortest code.1 code.2) (behind : List UInt8) :
    m.codes (spelled codes ++ behind) = codes.map Prod.fst ++ m.codes behind := by
  induction codes with
  | nil => rfl
  | cons code rest ih =>
    obtain ⟨here, others⟩ := List.forall_mem_cons.1 shortest
    have next := nextCode_codeBytes here (spelled rest ++ behind)
    have more : codeBytes code.2 code.1 ++ (spelled rest ++ behind) ≠ [] := by
      have := here.one_le
      refine List.ne_nil_of_length_pos ?_
      rw [List.length_append, length_codeBytes]
      omega
    have left : (codeBytes code.2 code.1 ++ (spelled rest ++ behind)).drop code.2 =
        spelled rest ++ behind := List.drop_left' (length_codeBytes _ _)
    rw [spelled, List.flatMap_cons, ← spelled, List.append_assoc, codes_eq m more, next, left,
      ih others]
    rfl

/-- The pieces that a string is cut into: `nextCode` is asked again where the last piece ends. -/
inductive Cuts : List UInt8 → List (UInt32 × Nat) → Prop
  | done : Cuts [] []
  | next {bytes : List UInt8} {pieces : List (UInt32 × Nat)} (more : bytes ≠ [])
      (others : Cuts (bytes.drop (m.nextCode bytes).2) pieces) :
      Cuts bytes (m.nextCode bytes :: pieces)

theorem exists_cuts (bytes : List UInt8) : ∃ pieces, m.Cuts bytes pieces := by
  by_cases more : bytes = []
  · exact ⟨[], more ▸ .done⟩
  · obtain ⟨pieces, others⟩ := exists_cuts (bytes.drop (m.nextCode bytes).2)
    exact ⟨_, .next more others⟩
termination_by bytes.length
decreasing_by
  have := m.length_nextCode more
  rw [List.length_drop]
  omega

theorem Cuts.codes_eq {m : CodeMap} {bytes : List UInt8} {pieces : List (UInt32 × Nat)}
    (cuts : m.Cuts bytes pieces) : pieces.map Prod.fst = m.codes bytes := by
  induction cuts with
  | done => rw [codes, List.map_nil]
  | next more _ ih => rw [CodeMap.codes_eq m more, List.map_cons, ih]

theorem Cuts.length_eq {m : CodeMap} {bytes : List UInt8} {pieces : List (UInt32 × Nat)}
    (cuts : m.Cuts bytes pieces) : pieces.foldr (fun piece n => piece.2 + n) 0 = bytes.length := by
  induction cuts with
  | done => rfl
  | next more _ ih =>
    have := m.length_nextCode more
    rw [List.foldr_cons, ih, List.length_drop]
    omega

theorem codes_concat :
    (∀ codes : List (UInt32 × Nat), (∀ code ∈ codes, m.Shortest code.1 code.2) →
      m.codes (spelled codes) = codes.map Prod.fst ∧
      ∀ behind, m.codes (spelled codes ++ behind) = codes.map Prod.fst ++ m.codes behind) ∧
    ∀ bytes, ∃ pieces, m.Cuts bytes pieces ∧ pieces.map Prod.fst = m.codes bytes ∧
      pieces.foldr (fun piece n => piece.2 + n) 0 = bytes.length := by
  refine ⟨fun codes shortest => ⟨?_, codes_spelled shortest⟩, fun bytes => ?_⟩
  · have alone := codes_spelled shortest []
    rwa [List.append_nil, CodeMap.codes, List.append_nil] at alone
  · obtain ⟨pieces, cuts⟩ := m.exists_cuts bytes
    exact ⟨pieces, cuts, cuts.codes_eq, cuts.length_eq⟩

/-- Codes of one, two and four bytes. -/
def mixedSpaces : CodeMap :=
  ⟨none, [⟨0, 0x80, 1⟩, ⟨0x8140, 0x9FFC, 2⟩, ⟨0xFE000000, 0xFEFFFFFF, 4⟩], ∅, ∅⟩

/-- The first byte of a code of two bytes is left over at the end. -/
theorem codes_concat_mixed :
    (∀ code ∈ [((0x8140 : UInt32), 2), (0xFE004181, 4), (0x41, 1)],
      mixedSpaces.Shortest code.1 code.2) ∧
    mixedSpaces.codes [0x81, 0x40, 0xFE, 0x00, 0x41, 0x81, 0x41, 0x81] =
      [0x8140, 0xFE004181, 0x41, 0x81] := by
  have shortest : ∀ code ∈ [((0x8140 : UInt32), 2), (0xFE004181, 4), (0x41, 1)],
      mixedSpaces.Shortest code.1 code.2 := by
    simp only [List.forall_mem_cons, List.not_mem_nil, false_implies, implies_true, and_true]
    decide
  refine ⟨shortest, ?_⟩
  have whole := ((mixedSpaces.codes_concat).1 _ shortest).2 [0x81]
  have last : mixedSpaces.codes [0x81] = [0x81] := by decide +kernel
  rw [last] at whole
  exact whole

end CodeMap

end FontSubset
