import FontSubset.Pdf.Compressor

/-!
# Zlib streams of stored blocks

A zlib stream is a header, blocks and a checksum. `encode` makes do with stored blocks, which hold
up to 65535 bytes each as they are, and `decode?` reads such a stream.
-/

namespace FontSubset.Zlib

/-- The Adler-32 checksum: the sum of the bytes and the sum of these sums, modulo a prime. -/
def adler32 (data : List UInt8) : UInt32 :=
  let (low, high) := data.foldl (fun ((low, high) : UInt32 × UInt32) b =>
    let low := (low + b.toUInt32) % 65521
    (low, (high + low) % 65521)) (1, 0)
  high <<< 16 ||| low

/-- The checksum as it stands at the end of a stream. -/
def trailer (data : List UInt8) : List UInt8 :=
  (be32 (adler32 data)).toList

/-- The most bytes that a stored block can hold. -/
def maxBlock : Nat := 65535

/-- A stored block: whether it is the last one, the length twice, the second time inverted, and the
bytes. -/
def block (isLast : Bool) (body : List UInt8) : List UInt8 :=
  let length := UInt16.ofNat body.length
  (if isLast then 1 else 0) :: length.toUInt8 :: (length >>> 8).toUInt8 ::
    (~~~length).toUInt8 :: (~~~length >>> 8).toUInt8 :: body

def blocks (data : List UInt8) : List UInt8 :=
  if maxBlock < data.length then block false (data.take maxBlock) ++ blocks (data.drop maxBlock)
  else block true data
termination_by data.length
decreasing_by simp only [maxBlock, List.length_drop] at *; omega

def blockLength (low high : UInt8) : Nat :=
  low.toNat + 0x100 * high.toNat

/-- The data of the first blocks up to the last one, and what stands behind them. -/
def readBlocks : List UInt8 → Option (List UInt8 × List UInt8)
  | kind :: low :: high :: _ :: _ :: rest =>
    let length := blockLength low high
    let body := rest.take length
    if body.length < length then none
    else if kind = 1 then some (body, rest.drop length)
    else if kind = 0 then
      (readBlocks (rest.drop length)).map fun (data, rest) => (body ++ data, rest)
    else none
  | _ => none
termination_by stream => stream.length
decreasing_by simp only [List.length_cons, List.length_drop]; omega

/-- The bytes that a stream begins with: deflate, a window of 32 KiB and no dictionary. -/
def header : List UInt8 := [0x78, 0x01]

def encode (data : Bytes) : Bytes :=
  (header ++ blocks data.toList ++ trailer data.toList).toArray

/-- The data of a stream of stored blocks, if its checksum is right. -/
def decode? (stream : Bytes) : Option Bytes :=
  if stream.toList.take 2 = header then
    (readBlocks (stream.toList.drop 2)).bind fun (data, rest) =>
      if rest = trailer data then some data.toArray else none
  else none

example : adler32 (Bytes.ofText "Wikipedia").toList = 0x11E60398 := by decide +kernel

/-! ## Reading what has been written -/

theorem blockLength_ofNat {n : Nat} (h : n ≤ maxBlock) :
    blockLength (UInt16.ofNat n).toUInt8 (UInt16.ofNat n >>> 8).toUInt8 = n := by
  have small : n < 65536 := Nat.lt_succ_of_le h
  simp only [blockLength, UInt16.toNat_toUInt8, UInt16.toNat_shiftRight, UInt16.toNat_ofNat',
    Nat.mod_eq_of_lt small, Nat.shiftRight_eq_div_pow]
  change n % 256 + 256 * (n / 256 % 256) = n
  omega

theorem readBlocks_last (data rest : List UInt8) (h : data.length ≤ maxBlock) :
    readBlocks (block true data ++ rest) = some (data, rest) := by
  simp only [block, List.cons_append, readBlocks, blockLength_ofNat h]
  simp

theorem readBlocks_block (body rest : List UInt8) (h : body.length ≤ maxBlock) :
    readBlocks (block false body ++ rest) =
      (readBlocks rest).map fun (data, rest) => (body ++ data, rest) := by
  simp only [block, List.cons_append, readBlocks, blockLength_ofNat h]
  simp

theorem readBlocks_blocks (data rest : List UInt8) :
    readBlocks (blocks data ++ rest) = some (data, rest) := by
  fun_induction blocks data with
  | case1 data long ih =>
    have full : (data.take maxBlock).length ≤ maxBlock := List.length_take_le ..
    rw [List.append_assoc, readBlocks_block _ _ full, ih]
    simp
  | case2 data short => exact readBlocks_last _ _ (Nat.le_of_not_lt short)

theorem decode?_encode (data : Bytes) : decode? (encode data) = some data := by
  have front : (encode data).toList.take 2 = header := rfl
  have back : (encode data).toList.drop 2 = blocks data.toList ++ trailer data.toList := rfl
  rw [decode?, if_pos front, back, readBlocks_blocks]
  simp

/-- The compressor that leaves the data as they are. -/
instance stored : Pdf.Compressor := ⟨fun _ => encode, decode?, fun _ => decode?_encode⟩

end FontSubset.Zlib
