import FontSubset.Number.Decimal

/-!
# Decimal numbers read back

The readers of decimal numbers understand how Lean writes them.
-/

namespace FontSubset.Decimal

theorem ofDigits_toDigits (n : Nat) : ofDigits (Nat.toDigits 10 n) = n :=
  Nat.ofDigitChars_ten_toDigits

theorem all_isDigit_toDigits (n : Nat) : (Nat.toDigits 10 n).all Char.isDigit :=
  List.all_eq_true.2 fun _ => Nat.isDigit_of_mem_toDigits (by decide) (by decide)

theorem natural?_toDigits (n : Nat) : natural? (Nat.toDigits 10 n) = some n := by
  rw [natural?, if_pos ⟨Nat.toDigits_ne_nil, all_isDigit_toDigits n⟩, ofDigits_toDigits]

/-- A number that begins with a digit has no sign. -/
theorem splitSign_toDigits (n : Nat) :
    splitSign (Nat.toDigits 10 n) = (false, Nat.toDigits 10 n) := by
  have digits := List.all_eq_true.1 (all_isDigit_toDigits n)
  unfold splitSign
  split
  · rename_i rest eq
    rw [eq] at digits
    exact absurd (digits '+' List.mem_cons_self) (by decide)
  · rename_i rest eq
    rw [eq] at digits
    exact absurd (digits '-' List.mem_cons_self) (by decide)
  · rfl

theorem integer?_toDigits {n : Nat} (bound : n < 0x8000000000000000) :
    integer? (Nat.toDigits 10 n) = some (n : Int) := by
  rw [integer?, splitSign_toDigits]
  simp only [natural?_toDigits]
  rw [if_neg Bool.false_ne_true, if_pos (by omega)]

theorem integer?_toDigits_of_le {n : Nat} (beyond : 0x8000000000000000 ≤ n) :
    integer? (Nat.toDigits 10 n) = none := by
  rw [integer?, splitSign_toDigits]
  simp only [natural?_toDigits]
  rw [if_neg Bool.false_ne_true, if_neg (by omega)]

theorem integer?_neg {n : Nat} (bound : n ≤ 0x8000000000000000) :
    integer? ('-' :: Nat.toDigits 10 n) = some (-n : Int) := by
  rw [integer?, splitSign]
  simp only [natural?_toDigits, if_pos]
  rw [if_pos (by omega)]

end FontSubset.Decimal
