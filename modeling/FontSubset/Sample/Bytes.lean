import FontSubset.Bytes

/-!
# Fields of sample tables

Sample fonts are put together from fields of two and four bytes.
-/

namespace FontSubset.Sample

/-- Fields of two bytes one after another. -/
def fields16 (values : List UInt16) : Bytes :=
  Bytes.concat (values.map be16)

def fields32 (values : List UInt32) : Bytes :=
  Bytes.concat (values.map be32)

/-- Parts one after another, laid out as a list. -/
def joined (parts : List Bytes) : Bytes :=
  (parts.flatMap Array.toList).toArray

def zeros (count : Nat) : Bytes :=
  Array.replicate count 0

/-- The bytes and, if their number is odd, a zero. -/
def even (data : Bytes) : Bytes :=
  data ++ zeros (data.size % 2)

/-- The size of some parts, as it is written into a field. -/
def size16 (data : Bytes) : UInt16 :=
  UInt16.ofNat data.size

/-- Where each of some parts begins when they follow one another from `offset` on. -/
def offsets (offset : Nat) : List Bytes → List Nat
  | [] => []
  | part :: rest => offset :: offsets (offset + part.size) rest

/-- The same as fields of two bytes. -/
def offsets16 (offset : Nat) (parts : List Bytes) : List UInt16 :=
  (offsets offset parts).map UInt16.ofNat

/-- The exponent of the largest power of two up to a count. -/
def selector (count : UInt16) : UInt16 :=
  UInt16.ofNat count.toNat.log2

end FontSubset.Sample
