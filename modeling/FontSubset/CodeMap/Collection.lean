import FontSubset.CodeMap.Reader
import FontSubset.Text.Scalar

/-!
# Character collections

A font may number its characters as one of the character collections of East Asian scripts does.
For these there are code maps, kept as resources, from Unicode to CIDs; read backwards, they give
the text of a CID.
-/

namespace FontSubset

/-- A character collection, as a font names it. -/
structure CharacterCollection where
  registry : String
  ordering : String
  deriving DecidableEq

namespace CharacterCollection

/-- The name of the code map from Unicode to the CIDs of a collection. -/
def mapName? (c : CharacterCollection) : Option String :=
  if c.registry = "Adobe" then
    match c.ordering with
    | "GB1" => some "UniGB-UCS2-H"
    | "CNS1" => some "UniCNS-UCS2-H"
    | "Japan1" => some "UniJIS-UCS2-H"
    | "Korea1" => some "UniKS-UCS2-H"
    | _ => none
  else none

end CharacterCollection

/-- The text of each CID. -/
abbrev CidTexts := Std.TreeMap UInt32 String

/-- A way to load code maps by their names. -/
abbrev Resources := String → Traced (Option Bytes)

namespace Resources

/-- Names of resources never lead out of their directory. -/
def isPlainName (name : String) : Bool :=
  name.toList.head? ≠ some '.' ∧ '/' ∉ name.toList ∧ '\\' ∉ name.toList

/-- The resources that are the files of a directory. -/
def ofDirectory (directory : String) (file? : String → Option Bytes) : Resources := fun name => do
  if ¬ isPlainName name then return none
  match file? name with
  | some data => return some data
  | none =>
    Traced.report (.resourceNotFound (directory ++ "/" ++ name))
    return none

end Resources

namespace CidTexts

/-- A code map from Unicode read backwards. Where several characters have one CID, the lowest one
counts. -/
def ofCodeMap (m : CodeMap) : CidTexts :=
  m.cids.toList.foldl (fun texts (code, cid) =>
    match Text.scalar? code with
    | some c => texts.insertIfNew cid c.toString
    | none => texts) ∅

/-- The texts of the CIDs of a collection, if it is known and its code map is there. -/
def load (resources : Resources) (collection : CharacterCollection) : Traced (Option CidTexts) := do
  match collection.mapName? with
  | none => return none
  | some name =>
    match ← resources name with
    | none =>
      Traced.report (.resourceMissing collection.registry collection.ordering name)
      return none
    | some data => return some (ofCodeMap (← CodeMap.read data))

end CidTexts

end FontSubset
