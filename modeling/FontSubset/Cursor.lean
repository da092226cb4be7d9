import FontSubset.Bytes

/-!
# Cursors

A cursor reads bytes in sequence and can take one byte back. Several cursors may read the same
bytes; each has a position of its own. A read that fails says where it was to begin, and leaves
the position alone, except that a byte taken back is used up.
-/

namespace FontSubset

/-- A place in some bytes, and perhaps a byte to be read again before those that follow. -/
structure Cursor where
  data : Bytes
  /-- The place of the next byte of the data. -/
  next : Nat
  pending : Option UInt8

namespace Cursor

/-- Positions are numbers of 64 bits and stop at the largest. -/
def maxPosition : Nat := UInt64.size - 1

def ofBytes (data : Bytes) : Cursor :=
  ⟨data, 0, none⟩

/-- Another cursor over the same bytes, at their start. -/
def view (c : Cursor) : Cursor :=
  ofBytes c.data

def length (c : Cursor) : Nat :=
  c.data.size

/-- The place of the next byte to be read, a byte taken back counted in. -/
def position (c : Cursor) : Nat :=
  if c.pending.isSome then c.next - 1 else c.next

/-- A place past the end is allowed; reading there fails. -/
def seek (c : Cursor) (place : Nat) : Cursor :=
  ⟨c.data, min place maxPosition, none⟩

def skip (c : Cursor) (count : Nat) : Cursor :=
  c.seek (c.position + count)

/-- The next byte, if there is one. -/
def read (c : Cursor) : Option UInt8 × Cursor :=
  match c.pending with
  | some b => (some b, { c with pending := none })
  | none =>
    match c.data[c.next]? with
    | some b => (some b, { c with next := c.next + 1 })
    | none => (none, c)

/-- Takes a byte back, so that the next read yields it. Only the latest one is kept. -/
def pushBack (c : Cursor) (b : UInt8) : Cursor :=
  { c with pending := some b }

/-- A read, which leaves a cursor behind whether it succeeds or not. -/
abbrev Reading := ExceptT FontError (StateM Cursor)

/-- The next `count` bytes. -/
def readBytes (count : Nat) : Reading (List UInt8) := fun c =>
  if count = 0 then (.ok [], c) else
  let fresh := { c with pending := none }
  let wanted := count - c.pending.toList.length
  if c.next + wanted ≤ c.data.size then
    (.ok (c.pending.toList ++ (c.data.extract c.next (c.next + wanted)).toList),
      { fresh with next := c.next + wanted })
  else (.error (.endOfData c.position count), fresh)

/-- The number spelled by the next `width` bytes, most significant byte first. -/
def readNumber (width : Nat) : Reading Nat :=
  bigEndian <$> readBytes width

/-- The number spelled by the next `width` bytes, least significant byte first. -/
def readNumberLittle (width : Nat) : Reading Nat :=
  (fun digits => bigEndian digits.reverse) <$> readBytes width

def readU8 : Reading UInt8 := UInt8.ofNat <$> readNumber 1
def readI8 : Reading Int8 := UInt8.toInt8 <$> readU8
def readU16 : Reading UInt16 := UInt16.ofNat <$> readNumber 2
def readI16 : Reading Int16 := UInt16.toInt16 <$> readU16
def readU32 : Reading UInt32 := UInt32.ofNat <$> readNumber 4
def readI32 : Reading Int32 := UInt32.toInt32 <$> readU32
def readU16Little : Reading UInt16 := UInt16.ofNat <$> readNumberLittle 2
def readI16Little : Reading Int16 := UInt16.toInt16 <$> readU16Little
def readU32Little : Reading UInt32 := UInt32.ofNat <$> readNumberLittle 4
def readI32Little : Reading Int32 := UInt32.toInt32 <$> readU32Little

/-- A number of 64 bits is read as two halves: where only the second is missing, the first has
been read. -/
def readU64 : Reading UInt64 := do
  let high ← readU32
  let low ← readU32
  return high.toUInt64 <<< 32 ||| low.toUInt64

def readU64Little : Reading UInt64 := do
  let low ← readU32Little
  let high ← readU32Little
  return high.toUInt64 <<< 32 ||| low.toUInt64

def readTag : Reading Tag := Tag.mk <$> readU32

/-- The next `count` bytes as text, one character per byte. -/
def readLatin1 (count : Nat) : Reading String :=
  (fun bytes => String.ofList (bytes.map fun b => Char.ofNat b.toNat)) <$> readBytes count

/-- The bytes from `offset` up to `offset + length`, wherever the cursor is. -/
def slice (c : Cursor) (offset length : Nat) : Except FontError Bytes :=
  c.data.slice offset length

end Cursor

end FontSubset
