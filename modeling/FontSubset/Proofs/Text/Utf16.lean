import FontSubset.Text.Utf16
import Mathlib.Data.List.Basic

/-!
# UTF-16 round trips

* `decodeLossy_encode`, `ofBytes_toBytes`: a text is read back from its units, and units from their
  bytes.
-/

namespace FontSubset.Utf16

theorem scan_plain {unit : UInt16} (high : isHigh unit = false) (low : isLow unit = false)
    (rest : List UInt16) : scan (unit :: rest) = some (Char.ofNat unit.toNat) :: scan rest := by
  cases rest <;> simp [scan, high, low]

theorem scan_pair {high low : UInt16} (first : isHigh high) (second : isLow low)
    (rest : List UInt16) : scan (high :: low :: rest) = some (pair high low) :: scan rest := by
  simp [scan, first, second]

theorem isHigh_iff {unit : UInt16} : isHigh unit ↔ 0xD800 ≤ unit.toNat ∧ unit.toNat < 0xDC00 := by
  simp [isHigh, UInt16.le_iff_toNat_le, UInt16.lt_iff_toNat_lt]

theorem isLow_iff {unit : UInt16} : isLow unit ↔ 0xDC00 ≤ unit.toNat ∧ unit.toNat < 0xE000 := by
  simp [isLow, UInt16.le_iff_toNat_le, UInt16.lt_iff_toNat_lt]

theorem scan_units (c : Char) (rest : List UInt16) :
    scan (units c ++ rest) = some c :: scan rest := by
  have valid : c.toNat < 0xD800 ∨ 0xDFFF < c.toNat ∧ c.toNat < 0x110000 := c.valid
  rw [units]
  split
  · rename_i basic
    have same : (UInt16.ofNat c.toNat).toNat = c.toNat := UInt16.toNat_ofNat_of_lt' basic
    rw [List.singleton_append, scan_plain, same, Char.ofNat_toNat]
    · rw [Bool.eq_false_iff, ne_eq, isHigh_iff, same]
      omega
    · rw [Bool.eq_false_iff, ne_eq, isLow_iff, same]
      omega
  · rename_i beyond
    have high : (UInt16.ofNat (0xD800 + (c.toNat - 0x10000) / 0x400)).toNat =
        0xD800 + (c.toNat - 0x10000) / 0x400 :=
      UInt16.toNat_ofNat_of_lt' (by rw [UInt16.size]; omega)
    have low : (UInt16.ofNat (0xDC00 + (c.toNat - 0x10000) % 0x400)).toNat =
        0xDC00 + (c.toNat - 0x10000) % 0x400 :=
      UInt16.toNat_ofNat_of_lt' (by rw [UInt16.size]; omega)
    rw [List.cons_append, List.singleton_append, scan_pair, pair, high, low]
    · have code : 0x10000 + (0xD800 + (c.toNat - 0x10000) / 0x400 - 0xD800) * 0x400 +
          (0xDC00 + (c.toNat - 0x10000) % 0x400 - 0xDC00) = c.toNat := by omega
      rw [code, Char.ofNat_toNat]
    · rw [isHigh_iff, high]
      omega
    · rw [isLow_iff, low]
      omega

theorem scan_encode (text : List Char) : scan (encode text) = text.map some := by
  induction text with
  | nil => rfl
  | cons c rest ih => rw [encode, List.flatMap_cons, scan_units, ← encode, ih, List.map_cons]

theorem decodeLossy_encode (text : List Char) : decodeLossy (encode text) = text := by
  rw [decodeLossy, scan_encode, List.map_map]
  exact List.map_id _

theorem units_of_basic {c : Char} (basic : c.toNat < 0x10000) : units c = [UInt16.ofNat c.toNat] :=
  if_pos basic

theorem units_of_supplementary {c : Char} (beyond : 0x10000 ≤ c.toNat) :
    units c = [UInt16.ofNat (0xD800 + (c.toNat - 0x10000) / 0x400),
      UInt16.ofNat (0xDC00 + (c.toNat - 0x10000) % 0x400)] :=
  if_neg (Nat.not_lt.2 beyond)

theorem toNat_lead {c : Char} (beyond : 0x10000 ≤ c.toNat) :
    (UInt16.ofNat (0xD800 + (c.toNat - 0x10000) / 0x400)).toNat =
      0xD800 + (c.toNat - 0x10000) / 0x400 := by
  have valid : c.toNat < 0xD800 ∨ 0xDFFF < c.toNat ∧ c.toNat < 0x110000 := c.valid
  exact UInt16.toNat_ofNat_of_lt' (by rw [UInt16.size]; omega)

theorem decodeLossy_units (c : Char) : decodeLossy (units c) = [c] := by
  have read := scan_units c []
  rw [List.append_nil] at read
  rw [decodeLossy, read]
  rfl

theorem toNat_ofNat_of_valid {n : Nat} (valid : n.isValidChar) : (Char.ofNat n).toNat = n := by
  rw [Char.ofNat, dif_pos valid]
  rfl

/-- A single unit is a character of the basic plane, if it is one. -/
theorem toNat_lt_of_decodeLossy_singleton {unit : UInt16} {d : Char}
    (read : decodeLossy [unit] = [d]) : d.toNat < 0x10000 := by
  have bound := unit.toNat_lt
  rw [decodeLossy, scan, List.map_singleton, List.singleton_inj] at read
  rw [← read]
  split
  · decide
  · by_cases valid : unit.toNat.isValidChar
    · rw [Option.getD_some, toNat_ofNat_of_valid valid]
      omega
    · rw [Option.getD_some, Char.ofNat, dif_neg valid]
      decide

theorem toNat_pair {high low : UInt16} (first : isHigh high) (second : isLow low) :
    (pair high low).toNat =
      0x10000 + (high.toNat - 0xD800) * 0x400 + (low.toNat - 0xDC00) := by
  have := isHigh_iff.1 first
  have := isLow_iff.1 second
  exact toNat_ofNat_of_valid (.inr ⟨by omega, by omega⟩)

/-- Behind an upper surrogate there is one character at most if a lower surrogate follows. -/
theorem eq_pair_of_decodeLossy {high low : UInt16} {d : Char} (first : isHigh high)
    (read : decodeLossy [high, low] = [d]) : isLow low ∧ d = pair high low := by
  by_cases second : isLow low
  · rw [decodeLossy, scan_pair first second, List.map_cons, Option.getD_some] at read
    exact ⟨second, (List.cons.inj read).1.symm⟩
  · have scanned : scan [high, low] = none :: scan [low] := by simp [scan, first, second]
    have length := congrArg List.length read
    rw [decodeLossy, scanned, scan] at length
    cases length

theorem units_ne_nil (c : Char) : units c ≠ [] := by
  rw [units]
  split <;> exact List.cons_ne_nil _ _

theorem encode_eq_nil {text : List Char} : encode text = [] ↔ text = [] := by
  cases text with
  | nil => simp [encode]
  | cons c rest => simp [encode, units_ne_nil]

theorem join_bytes (unit : UInt16) :
    (unit >>> 8).toUInt8.toUInt16 <<< 8 ||| unit.toUInt8.toUInt16 = unit := by
  have bound := unit.toNat_lt
  have upper : unit.toNat / 256 % 256 * 256 % 65536 = unit.toNat / 256 * 2 ^ 8 := by omega
  have join := Nat.shiftLeft_add_eq_or_of_lt (show unit.toNat % 256 < 2 ^ 8 by omega)
    (unit.toNat / 256)
  rw [Nat.shiftLeft_eq] at join
  rw [← UInt16.toNat_inj]
  simp only [UInt16.toNat_or, UInt16.toNat_shiftLeft, UInt8.toNat_toUInt16, UInt16.toNat_toUInt8,
    UInt16.toNat_shiftRight]
  simp only [UInt16.reduceToNat, Nat.reduceMod, Nat.shiftRight_eq_div_pow, Nat.shiftLeft_eq,
    Nat.reducePow]
  rw [upper, ← join]
  omega

theorem ofBytes_toBytes (text : List UInt16) : ofBytes (toBytes text) = text := by
  induction text with
  | nil => rfl
  | cons unit rest ih =>
    rw [toBytes, List.flatMap_cons, ← toBytes, List.cons_append, List.singleton_append, ofBytes,
      ih, join_bytes]

end FontSubset.Utf16
