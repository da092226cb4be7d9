import Mathlib.Algebra.Group.Nat.Defs

/-!
# The order of UTF-8

The bytes of two texts compare as their characters do (`compare_flatMap_utf8EncodeChar`). The first
byte of a character is greater the more bytes follow, and the bits of a character stand in its bytes
from the highest to the lowest. So the bytes of a character come before those of a greater one,
whatever stands behind them (`precedes_utf8EncodeChar`).
-/

namespace FontSubset.Utf8

/-- Whatever stands behind them, the bytes `a` come before the bytes `b`. -/
def Precedes (a b : List UInt8) : Prop :=
  ∀ behind behind', compare (a ++ behind) (b ++ behind') = .lt

/-- The `n` bytes of a character behind its first one, with six bits of a number in each. -/
def continuation : Nat → Nat → List UInt8
  | 0, _ => []
  | n + 1, v => UInt8.ofNat (0x80 + v / 64 ^ n) :: continuation n (v % 64 ^ n)

/-- How many bytes follow the first one of a character. -/
def following (v : Nat) : Nat :=
  if v < 0x80 then 0 else if v < 0x800 then 1 else if v < 0x10000 then 2 else 3

/-- The bits of a first byte that tell how many bytes follow. -/
def mark : Nat → Nat
  | 0 => 0
  | 1 => 0xC0
  | 2 => 0xE0
  | _ => 0xF0

def first (v : Nat) : Nat :=
  mark (following v) + v / 64 ^ following v

section
variable {a b : List UInt8} {x y : UInt8} {offset m n v w : Nat}

theorem Precedes.of_lt (less : x < y) : Precedes (x :: a) (y :: b) := by
  intro behind behind'
  rw [List.cons_append, List.cons_append, List.compare_cons_cons, Std.compare_eq_lt.2 less]
  rfl

theorem Precedes.cons (later : Precedes a b) : Precedes (x :: a) (x :: b) := by
  intro behind behind'
  have same : compare x x = .eq := Std.ReflCmp.compare_self
  rw [List.cons_append, List.cons_append, List.compare_cons_cons, same]
  exact later behind behind'

theorem ofNat_lt_ofNat (less : v < w) (small : w < 256) : UInt8.ofNat v < UInt8.ofNat w := by
  rw [UInt8.lt_iff_toNat_lt, UInt8.toNat_ofNat_of_lt' small,
    UInt8.toNat_ofNat_of_lt' (Nat.lt_trans less small)]
  exact less

/-- Numbers are in order by their high parts, and where these agree by their low parts. So are byte
strings that hold the one part in the first byte and the other one in the rest. -/
theorem Precedes.of_div_mod (less : v < w) (small : offset + w / m < 256)
    (low : v % m < w % m → Precedes a b) :
    Precedes (UInt8.ofNat (offset + v / m) :: a) (UInt8.ofNat (offset + w / m) :: b) := by
  rcases Nat.lt_or_eq_of_le (Nat.div_le_div_right (c := m) (Nat.le_of_lt less)) with high | same
  · exact .of_lt (ofNat_lt_ofNat (Nat.add_lt_add_left high offset) small)
  · rw [same]
    refine .cons (low ?_)
    have parts := Nat.div_add_mod v m
    have parts' := Nat.div_add_mod w m
    rw [same] at parts
    omega

theorem precedes_continuation (less : v < w) (bound : w < 64 ^ n) :
    Precedes (continuation n v) (continuation n w) := by
  induction n generalizing v w with
  | zero => omega
  | succ n ih =>
    have digit : w / 64 ^ n < 64 := Nat.div_lt_of_lt_mul (Nat.pow_succ .. ▸ bound)
    refine .of_div_mod less (by omega) fun low => ih low (Nat.mod_lt _ ?_)
    exact Nat.pow_pos (by decide)

/-! ## The bytes of a character -/

theorem toNat_lt (c : Char) : c.toNat < 0x110000 := by
  have valid : c.toNat < 0xD800 ∨ 0xDFFF < c.toNat ∧ c.toNat < 0x110000 := c.valid
  omega

theorem utf8EncodeChar_eq (c : Char) : String.utf8EncodeChar c = UInt8.ofNat (first c.toNat) ::
    continuation (following c.toNat) (c.toNat % 64 ^ following c.toNat) := by
  have bound := toNat_lt c
  rw [String.utf8EncodeChar, Char.toNat_val, first]
  generalize c.toNat = v at bound
  -- The masks of the encoding are without effect in the range that each number of bytes has.
  fun_cases following v with
  | case1 one =>
    have head : v = 0 + v / 64 ^ 0 := by omega
    rw [if_pos (Nat.le_of_lt_succ one), mark, ← head]
    rfl
  | case2 many two =>
    have head : v / 64 % 0x20 + 0xC0 = 0xC0 + v / 64 ^ 1 := by omega
    have last : v % 64 + 0x80 = 0x80 + v % 64 ^ 1 / 64 ^ 0 := by omega
    rw [if_neg (by omega), if_pos (by omega), head, last]
    rfl
  | case3 many _ three =>
    have head : v / 4096 % 0x10 + 0xE0 = 0xE0 + v / 64 ^ 2 := by omega
    have next : v / 64 % 64 + 0x80 = 0x80 + v % 64 ^ 2 / 64 ^ 1 := by omega
    have last : v % 64 + 0x80 = 0x80 + v % 64 ^ 2 % 64 ^ 1 / 64 ^ 0 := by omega
    rw [if_neg (by omega), if_neg (by omega), if_pos (by omega), head, next, last]
    rfl
  | case4 =>
    have head : v / 262144 % 0x08 + 0xF0 = 0xF0 + v / 64 ^ 3 := by omega
    have next : v / 4096 % 64 + 0x80 = 0x80 + v % 64 ^ 3 / 64 ^ 2 := by omega
    have third : v / 64 % 64 + 0x80 = 0x80 + v % 64 ^ 3 % 64 ^ 2 / 64 ^ 1 := by omega
    have last : v % 64 + 0x80 = 0x80 + v % 64 ^ 3 % 64 ^ 2 % 64 ^ 1 / 64 ^ 0 := by omega
    rw [if_neg (by omega), if_neg (by omega), if_neg (by omega), head, next, third, last]
    rfl

theorem following_le_following (le : v ≤ w) : following v ≤ following w := by
  fun_cases following v <;> fun_cases following w <;> omega

theorem first_lt (bound : v < 0x110000) : first v < 256 := by
  rw [first]
  fun_cases following v <;> simp only [mark] <;> omega

theorem first_lt_first (fewer : following v < following w) : first v < first w := by
  revert fewer
  rw [first, first]
  fun_cases following v <;> fun_cases following w <;> simp only [mark] <;> omega

theorem precedes_utf8EncodeChar {c d : Char} (less : c < d) :
    Precedes (String.utf8EncodeChar c) (String.utf8EncodeChar d) := by
  have less : c.toNat < d.toNat := less
  have small := first_lt (toNat_lt d)
  rw [utf8EncodeChar_eq, utf8EncodeChar_eq]
  rcases Nat.lt_or_eq_of_le (following_le_following (Nat.le_of_lt less)) with fewer | same
  · exact .of_lt (ofNat_lt_ofNat (first_lt_first fewer) small)
  · rw [first] at small
    rw [first, first, same]
    refine .of_div_mod less small fun low => precedes_continuation low (Nat.mod_lt _ ?_)
    exact Nat.pow_pos (by decide)

end

/-! ## The bytes of a text -/

theorem compare_append_left (bytes a b : List UInt8) :
    compare (bytes ++ a) (bytes ++ b) = compare a b := by
  induction bytes with
  | nil => rfl
  | cons x bytes ih =>
    have same : compare x x = .eq := Std.ReflCmp.compare_self
    rw [List.cons_append, List.cons_append, List.compare_cons_cons, same, ih]
    rfl

theorem compare_flatMap_utf8EncodeChar (a b : List Char) :
    compare (a.flatMap String.utf8EncodeChar) (b.flatMap String.utf8EncodeChar) = compare a b := by
  induction a generalizing b with
  | nil =>
    cases b with
    | nil => rfl
    | cons d b =>
      rw [List.flatMap_cons, utf8EncodeChar_eq]
      rfl
  | cons c a ih =>
    cases b with
    | nil =>
      rw [List.flatMap_cons, utf8EncodeChar_eq]
      rfl
    | cons d b =>
      rw [List.flatMap_cons, List.flatMap_cons, List.compare_cons_cons]
      cases order : compare c d with
      | lt => exact precedes_utf8EncodeChar (compareOfLessAndEq_eq_lt.1 order) _ _
      | eq =>
        rw [Std.LawfulEqCmp.eq_of_compare order, compare_append_left]
        exact ih b
      | gt =>
        have swapped : compare d c = .lt := Std.OrientedCmp.lt_of_gt order
        have before := precedes_utf8EncodeChar (compareOfLessAndEq_eq_lt.1 swapped)
        exact Std.OrientedCmp.gt_of_lt (before _ _)

end FontSubset.Utf8
