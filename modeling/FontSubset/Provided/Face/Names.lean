import FontSubset.Face.Name
import FontSubset.Text.Utf16

/-!
# The name table

It lists names in several languages and encodings. A name in Unicode is given as a text, any other
one by its bytes alone.
-/

namespace FontSubset.Names

def macintosh : UInt16 := 1
def windows : UInt16 := 3

/-- Whether the bytes of a name are UTF-16. -/
def isUnicode (platform encoding : UInt16) : Bool :=
  platform = 0 ∨ (platform = windows ∧ encoding ≤ 1)

/-- Bytes as UTF-16, without an odd byte at the end. -/
def units (bytes : List UInt8) : List UInt16 :=
  Utf16.ofBytes (bytes.take (bytes.length / 2 * 2))

/-- The entry whose record lies at `pos`, with its bytes in `storage`, unless its platform is
unknown or its bytes lie outside. -/
def entry? (table storage : Bytes) (pos : Nat) : Option FaceName := do
  let platform := table.u16 pos
  guard (platform ≤ 4)
  let length := (table.u16 (pos + 8)).toNat
  let bytes := (← (storage.slice (table.u16 (pos + 10)).toNat length).toOption).toList
  return {
    kind := table.u16 (pos + 6)
    isMacintosh := platform = macintosh
    bytes
    text := if isUnicode platform (table.u16 (pos + 2)) then Utf16.decode? (units bytes) else none }

/-- The entries up to the first one that cannot be read. -/
def takeEntries (table storage : Bytes) (pos : Nat) : Nat → List FaceName
  | 0 => []
  | count + 1 =>
    match entry? table storage pos with
    | some entry => entry :: takeEntries table storage (pos + 12) count
    | none => []

/-- Where the records begin: version 1 has a list of language tags before them. -/
def recordsStart? (table : Bytes) : Option Nat := do
  guard (6 ≤ table.size)
  match table.u16 0 with
  | 0 => return 6
  | 1 =>
    guard (8 ≤ table.size)
    let tags := (table.u16 6).toNat
    guard (4 * tags < UInt16.size)
    return 8 + 4 * tags
  | _ => none

/-- The entries of a name table; none where its records or its storage lie outside. -/
def entries (table : Bytes) : List FaceName :=
  match recordsStart? table with
  | none => []
  | some start =>
    let count := (table.u16 2).toNat
    let stop := start + 12 * count
    let storage := max stop (table.u16 4).toNat
    if stop ≤ table.size ∧ storage ≤ table.size then
      takeEntries table (table.extract storage) start count
    else []

end FontSubset.Names
