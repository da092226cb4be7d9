import FontSubset.Error

/-!
# Bytes

Files and tables are arrays of bytes. Numbers in them are big-endian and are read at a position,
with no state in between: `number` is the value of a field, `u16At` and its like fail where the
field does not lie within the data. `be16` and `be32` write what they read.
-/

namespace FontSubset

/-- The contents of a file or of a table. -/
abbrev Bytes := Array UInt8

/-- The number that the bytes spell, most significant byte first. -/
def bigEndian (digits : List UInt8) : Nat :=
  digits.foldl (fun n b => 256 * n + b.toNat) 0

def be16 (n : UInt16) : Bytes :=
  #[(n >>> 8).toUInt8, n.toUInt8]

def be32 (n : UInt32) : Bytes :=
  #[(n >>> 24).toUInt8, (n >>> 16).toUInt8, (n >>> 8).toUInt8, n.toUInt8]

/-- The bytes of a text in UTF-8. -/
def Bytes.ofText (text : String) : Bytes :=
  text.toUTF8.data

namespace Bytes

/-- The parts one after another. -/
def concat (parts : List Bytes) : Bytes :=
  parts.foldl (· ++ ·) #[]

theorem toList_concat (parts : List Bytes) :
    (concat parts).toList = parts.flatMap Array.toList := by
  suffices h : ∀ out : Bytes, (parts.foldl (· ++ ·) out).toList =
      out.toList ++ parts.flatMap Array.toList by simpa [concat] using h #[]
  induction parts with
  | nil => simp
  | cons part rest ih => intro out; rw [List.foldl_cons, ih]; simp

/-- The bytes from `offset` up to `offset + length`, all of which must be there. -/
def slice (data : Bytes) (offset length : Nat) : Except FontError Bytes :=
  if offset + length ≤ data.size then .ok (data.extract offset (offset + length))
  else .error (.endOfData offset length)

/-- The field of `width` bytes at `pos`, as far as it lies within the data. -/
def number (data : Bytes) (pos width : Nat) : Nat :=
  bigEndian (data.extract pos (pos + width)).toList

def numberAt (data : Bytes) (pos width : Nat) : Except FontError Nat :=
  if pos + width ≤ data.size then .ok (data.number pos width)
  else .error (.endOfData pos width)

def u8At (data : Bytes) (pos : Nat) : Except FontError UInt8 :=
  (data.numberAt pos 1).map UInt8.ofNat

def u16At (data : Bytes) (pos : Nat) : Except FontError UInt16 :=
  (data.numberAt pos 2).map UInt16.ofNat

def u32At (data : Bytes) (pos : Nat) : Except FontError UInt32 :=
  (data.numberAt pos 4).map UInt32.ofNat

def tagAt (data : Bytes) (pos : Nat) : Except FontError Tag :=
  (data.u32At pos).map Tag.mk

/-- `count` consecutive fields of `width` bytes. They are read in order, so that the first one that
does not fit is the one reported. -/
def numbersAt (data : Bytes) (pos width count : Nat) : Except FontError (List Nat) :=
  let fitting := (data.size - pos) / width
  if count ≤ fitting then .ok ((List.range count).map fun i => data.number (pos + width * i) width)
  else .error (.endOfData (pos + width * fitting) width)

def u16sAt (data : Bytes) (pos count : Nat) : Except FontError (List UInt16) :=
  (data.numbersAt pos 2 count).map (·.map UInt16.ofNat)

def u32sAt (data : Bytes) (pos count : Nat) : Except FontError (List UInt32) :=
  (data.numbersAt pos 4 count).map (·.map UInt32.ofNat)

/-- The signed value of a 16-bit field. -/
def i16 (data : Bytes) (pos : Nat) : Int :=
  (UInt16.ofNat (data.number pos 2)).toInt16.toInt

def u16 (data : Bytes) (pos : Nat) : UInt16 :=
  UInt16.ofNat (data.number pos 2)

def u32 (data : Bytes) (pos : Nat) : UInt32 :=
  UInt32.ofNat (data.number pos 4)

end Bytes

end FontSubset
