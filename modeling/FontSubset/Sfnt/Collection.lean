import FontSubset.Bytes
import FontSubset.Number.Decimal
import FontSubset.Text.Blank

/-!
# Collections

A collection holds several fonts: after its tag and a version come the number of members and the
offset of the directory of each. A file name may select a member by its number, as in
`fonts/gothic.ttc,1`.
-/

namespace FontSubset.Collection

/-- Whether a file is a collection; any font has at least a tag. -/
def isCollection (data : Bytes) : Except FontError Bool :=
  (data.tagAt 0).map (· = Tag.collection)

/-- The number of fonts in a file. -/
def size (data : Bytes) : Except FontError UInt32 := do
  if ← isCollection data then data.u32At 8 else return 1

/-- Where the directory of a member lies. A file that is no collection has one font, number 0. -/
def directoryOffset (data : Bytes) (member : Option UInt32) : Except FontError Nat := do
  let index := member.getD 0
  if ← isCollection data then
    let count ← data.u32At 8
    if count ≤ index then throw (.invalidFormat (.memberOutOfRange count index))
    let offset ← data.u32At (12 + 4 * index.toNat)
    return offset.toNat
  else if index = 0 then return 0
  else throw (.invalidFormat (.notACollection index))

/-- The text up to the last comma and the text after it. -/
def splitAtLastComma (text : List Char) : Option (List Char × List Char) :=
  let behind := text.reverse.takeWhile (· ≠ ',')
  match text.reverse.dropWhile (· ≠ ',') with
  | [] => none
  | _ :: front => some (front.reverse, behind.reverse)

/-- Whether a path names a collection, in upper or lower case. -/
def namesCollection (path : List Char) : Bool :=
  ".ttc".toList.isSuffixOf (path.map Char.toLower)

/-- The path and the member that a font name stands for. A name that does not end in the number of
a member of a collection is a path as it stands. -/
def splitName (name : String) : String × Option UInt32 :=
  match splitAtLastComma name.toList with
  | some (path, number) =>
    match Decimal.word? (Text.trim number) with
    | some index => if namesCollection path then (String.ofList path, some index) else (name, none)
    | none => (name, none)
  | none => (name, none)

end FontSubset.Collection
