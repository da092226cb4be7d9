import FontSubset.Sfnt.Directory

/-!
# Font files

`assemble` writes a font file from tables: a directory sorted by tag, then the bodies of the
tables in the same order, each filled up with zeros to a multiple of four bytes.
-/

namespace FontSubset

/-- `length` rounded up to a multiple of four. -/
def paddedLength (length : Nat) : Nat :=
  (length + 3) / 4 * 4

namespace Checksum

def word (a b c d : UInt8) : UInt32 :=
  a.toUInt32 <<< 24 ||| b.toUInt32 <<< 16 ||| c.toUInt32 <<< 8 ||| d.toUInt32

/-- The sum of the words that the bytes spell, added to `sum`. -/
def addWords (sum : UInt32) : List UInt8 → UInt32
  | a :: b :: c :: d :: rest => addWords (sum + word a b c d) rest
  | [a, b, c] => sum + word a b c 0
  | [a, b] => sum + word a b 0 0
  | [a] => sum + word a 0 0 0
  | [] => sum

end Checksum

/-- The sum of the big-endian words of a table, modulo 2 ^ 32. A partial word at the end counts as
filled up with zeros. -/
def checksum (body : Bytes) : UInt32 :=
  Checksum.addWords 0 body.toList

/-- The three fields of a directory that speed up a binary search in it. -/
structure SearchFields where
  range : UInt16
  selector : UInt16
  shift : UInt16
  deriving DecidableEq

/-- The largest power of two up to the number of tables determines all three fields. -/
def SearchFields.ofCount (count : UInt16) : SearchFields :=
  let selector := UInt16.ofNat count.toNat.log2
  let power : UInt16 := 1 <<< selector
  ⟨power * 16, selector, (if power ≤ count then count - power else 0) * 16⟩

/-- A table to be written, with the checksum that its record is to carry. -/
structure Table where
  tag : Tag
  checksum : UInt32
  body : Bytes

namespace Table

def ofBody (tag : Tag) (body : Bytes) : Table :=
  ⟨tag, FontSubset.checksum body, body⟩

/-- The record of the table when its body lies at `offset`. -/
def record (t : Table) (offset : Nat) : Bytes :=
  Bytes.concat [be32 t.tag.code, be32 t.checksum, be32 (UInt32.ofNat offset),
    be32 (UInt32.ofNat t.body.size)]

def padded (t : Table) : Bytes :=
  t.body ++ Array.replicate (paddedLength t.body.size - t.body.size) 0

/-- The tables with the offsets of their bodies, which follow one another from `offset` on. -/
def place (offset : Nat) : List Table → List (Nat × Table)
  | [] => []
  | t :: rest => (offset, t) :: place (offset + paddedLength t.body.size) rest

end Table

/-- The size of the directory of `count` tables. -/
def directorySize (count : Nat) : Nat :=
  12 + 16 * count

/-- The first twelve bytes of a font file. -/
def fileHeader (count : Nat) : Bytes :=
  let fields := SearchFields.ofCount (UInt16.ofNat count)
  Bytes.concat [be32 Flavor.trueTypeVersion, be16 (UInt16.ofNat count), be16 fields.range,
    be16 fields.selector, be16 fields.shift]

/-- A font file of the tables. -/
def assemble (tables : List Table) : Bytes :=
  let sorted := tables.mergeSort fun a b => a.tag.code ≤ b.tag.code
  let placed := Table.place (directorySize sorted.length) sorted
  Bytes.concat (fileHeader sorted.length :: placed.map (fun (offset, t) => t.record offset) ++
    sorted.map Table.padded)

theorem size_padded (t : Table) : t.padded.size = paddedLength t.body.size := by
  simp only [Table.padded, Array.size_append, Array.size_replicate, paddedLength]
  omega

example : SearchFields.ofCount 10 = ⟨128, 3, 32⟩ := by decide

end FontSubset
