import FontSubset.Bytes
import FontSubset.Text.Utf8

/-!
# Plain text as bytes

A character of ASCII is one byte in UTF-8, and that byte is read back as the character.
-/

namespace FontSubset

def Text.Plain (text : List Char) : Prop := ∀ c ∈ text, c.toNat < 128

instance (text : List Char) : Decidable (Text.Plain text) :=
  inferInstanceAs (Decidable (∀ c ∈ text, c.toNat < 128))

@[simp] theorem Text.plain_nil : Plain [] := nofun

@[simp] theorem Text.plain_cons {c : Char} {text : List Char} :
    Plain (c :: text) ↔ c.toNat < 128 ∧ Plain text :=
  List.forall_mem_cons

@[simp] theorem Text.plain_append {front back : List Char} :
    Plain (front ++ back) ↔ Plain front ∧ Plain back :=
  List.forall_mem_append

theorem Text.plain_flatMap {α : Type} {items : List α} {f : α → List Char}
    (h : ∀ a ∈ items, Plain (f a)) : Plain (items.flatMap f) := by
  intro c mem
  obtain ⟨a, item, mem⟩ := List.mem_flatMap.1 mem
  exact h a item c mem

theorem Bytes.toList_ofText (text : String) :
    (Bytes.ofText text).toList = text.toList.flatMap String.utf8EncodeChar := by
  rw [Bytes.ofText, String.toUTF8_eq_toByteArray, ← String.utf8Encode_toList, List.utf8Encode,
    List.toList_data_toByteArray]

theorem Bytes.toList_ofText_append (front back : String) : (Bytes.ofText (front ++ back)).toList =
    (Bytes.ofText front).toList ++ (Bytes.ofText back).toList := by
  simp only [toList_ofText, String.toList_append, List.flatMap_append]

theorem Bytes.toList_ofText_of_plain {text : String} (plain : Text.Plain text.toList) :
    (Bytes.ofText text).toList = text.toList.map Char.toUInt8 := by
  rw [Bytes.toList_ofText]
  generalize text.toList = chars at plain
  induction chars with
  | nil => rfl
  | cons c rest ih =>
    obtain ⟨small, plain⟩ := Text.plain_cons.1 plain
    have single : c.utf8Size = 1 := by
      rw [Char.utf8Size_eq_one_iff, UInt32.le_iff_toNat_le]
      exact Nat.le_of_lt_succ small
    rw [List.flatMap_cons, String.utf8EncodeChar_eq_singleton single, List.map_cons, ih plain]
    rfl

namespace Utf8

theorem scan_plain {c : Char} (small : c.toNat < 128) (rest : List UInt8) :
    scan (c.toUInt8 :: rest) = some c :: scan rest := by
  have byte : c.toUInt8.toNat = c.toNat := by
    rw [Char.toUInt8, UInt32.toNat_toUInt8]
    exact Nat.mod_eq_of_lt (Nat.lt_trans small (by decide))
  have first : c.toUInt8 < 0x80 := by
    rw [UInt8.lt_iff_toNat_lt, byte]
    exact small
  rw [scan, lead?, if_pos first]
  simp [fitting, byte]

theorem decodeLossy_plain {text : List Char} (plain : Text.Plain text) :
    decodeLossy (text.map Char.toUInt8) = text := by
  rw [decodeLossy]
  induction text with
  | nil => rw [List.map_nil, scan, List.map_nil]
  | cons c rest ih =>
    obtain ⟨small, plain⟩ := Text.plain_cons.1 plain
    rw [List.map_cons, scan_plain small, List.map_cons, ih plain]
    rfl

end Utf8

end FontSubset
