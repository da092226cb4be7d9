import FontSubset.Bytes
import FontSubset.Log
import Std.Data.TreeMap

/-!
# Table directories

A font file, or a member of a collection, starts with a directory: a version, the number of its
tables, three search fields that nobody needs, and a record of sixteen bytes per table.
-/

namespace FontSubset

/-- The kind of outlines that the version of a directory announces. -/
inductive Flavor
  | trueType
  /-- Compact outlines, which have no glyph records. -/
  | compact
  deriving DecidableEq

namespace Flavor

def trueTypeVersion : UInt32 := 0x00010000
def compactVersion : UInt32 := 0x4F54544F

def ofVersion? (version : UInt32) : Option Flavor :=
  if version = trueTypeVersion then some .trueType
  else if version = compactVersion then some .compact
  else none

end Flavor

/-- Where a table lies in a file. -/
structure TableRecord where
  tag : Tag
  checksum : UInt32
  offset : UInt32
  length : UInt32
  deriving DecidableEq

namespace TableRecord

def start (r : TableRecord) : Nat := r.offset.toNat

def stop (r : TableRecord) : Nat := r.offset.toNat + r.length.toNat

def read (data : Bytes) (pos : Nat) : Except FontError TableRecord := do
  let tag ← data.tagAt pos
  let checksum ← data.u32At (pos + 4)
  let offset ← data.u32At (pos + 8)
  let length ← data.u32At (pos + 12)
  return ⟨tag, checksum, offset, length⟩

/-- The bytes of the table. -/
def body (data : Bytes) (r : TableRecord) : Except FontError Bytes :=
  data.slice r.start r.length.toNat

end TableRecord

structure Directory where
  flavor : Flavor
  /-- Where the directory itself lies in the file. -/
  offset : Nat
  /-- The records by the code of their tag. -/
  records : Std.TreeMap UInt32 TableRecord

namespace Directory

/-- Of several records with one tag, the last one counts. -/
def ofRecords (flavor : Flavor) (offset : Nat) (records : List TableRecord) : Directory :=
  ⟨flavor, offset, records.foldl (fun table r => table.insert r.tag.code r) ∅⟩

def table? (d : Directory) (tag : Tag) : Option TableRecord :=
  d.records[tag.code]?

def contains (d : Directory) (tag : Tag) : Bool :=
  d.records.contains tag.code

/-- A table that the caller cannot go on without. -/
def require (d : Directory) (tag : Tag) : Except FontError TableRecord :=
  match d.table? tag with
  | some r => .ok r
  | none => .error (.missingTable tag)

/-- The number of tables. -/
def size (d : Directory) : Nat :=
  d.records.size

/-- The records in the order of their tags. -/
def toList (d : Directory) : List TableRecord :=
  d.records.toList.map Prod.snd

def parse (data : Bytes) (offset : Nat) : Except FontError Directory := do
  let version ← data.u32At offset
  let some flavor := Flavor.ofVersion? version
    | throw (.invalidFormat (.unknownVersion version))
  let count ← data.u16At (offset + 4)
  let records ← (List.range count.toNat).mapM fun i => TableRecord.read data (offset + 12 + 16 * i)
  return ofRecords flavor offset records

def read (data : Bytes) (offset : Nat) : Traced Directory := do
  let directory ← parse data offset
  Traced.report (.directoryRead offset directory.size)
  return directory

end Directory

end FontSubset
