import FontSubset.Bytes
import FontSubset.Text.Utf16
import Std.Data.TreeMap
import Std.Data.TreeSet

/-!
# Code maps

A code map says how a string of bytes is split into character codes, and which text or which
character identifier (CID) a code stands for. Codes of one to four bytes are told apart by code
spaces.
-/

namespace FontSubset

/-- The number that a code spells. Of more than four bytes the last four count. -/
def codeOf (bytes : List UInt8) : UInt32 :=
  bytes.foldl (fun n b => n <<< 8 ||| b.toUInt32) 0

/-- A range of codes of one length. -/
structure CodeSpace where
  low : UInt32
  high : UInt32
  /-- The number of bytes of a code. -/
  length : Nat
  deriving DecidableEq

namespace CodeSpace

def contains (s : CodeSpace) (code : UInt32) (length : Nat) : Bool :=
  s.length = length ∧ s.low ≤ code ∧ code ≤ s.high

/-- All codes of a length. -/
def full (length : Nat) : CodeSpace :=
  ⟨0, UInt32.ofNat (min (1 <<< (8 * length)) UInt32.size - 1), length⟩

end CodeSpace

structure CodeMap where
  name : Option String
  spaces : List CodeSpace
  texts : Std.TreeMap UInt32 String
  cids : Std.TreeMap UInt32 UInt32

namespace CodeMap

def empty : CodeMap :=
  ⟨none, [], ∅, ∅⟩

/-- The text of a code. -/
def text? (m : CodeMap) (code : UInt32) : Option String :=
  m.texts[code]?

/-- Whether the first `length` bytes are a code of one of the code spaces. -/
def accepts (m : CodeMap) (bytes : List UInt8) (length : Nat) : Bool :=
  let code := bytes.take length
  code.length = length ∧ m.spaces.any (·.contains (codeOf code) length)

/-- The code that some bytes begin with, and its length. The shortest code of a code space is
taken; where there is none, a single byte. -/
def nextCode (m : CodeMap) (bytes : List UInt8) : UInt32 × Nat :=
  match [1, 2, 3, 4].find? (m.accepts bytes) with
  | some length => (codeOf (bytes.take length), length)
  | none => ((bytes.headD 0).toUInt32, 1)

/-- The codes that some bytes are made of. -/
def codes (m : CodeMap) : List UInt8 → List UInt32
  | [] => []
  | b :: rest =>
    let (code, length) := m.nextCode (b :: rest)
    code :: codes m (rest.drop (length - 1))
termination_by bytes => bytes.length
decreasing_by simp only [List.length_drop, List.length_cons]; omega

/-- The number of codes from `low` to `high`. -/
def rangeSize (low high : UInt32) : Nat :=
  high.toNat + 1 - low.toNat

def setText (m : CodeMap) (code : UInt32) (text : String) : CodeMap :=
  { m with texts := m.texts.insert code text }

def setCid (m : CodeMap) (code cid : UInt32) : CodeMap :=
  { m with cids := m.cids.insert code cid }

/-- The text that some bytes spell in UTF-16. -/
def textOf (units : List UInt16) : String :=
  String.ofList (Utf16.decodeLossy units)

/-- The units with the last one advanced. -/
def advanced (units : List UInt16) (step : Nat) : List UInt16 :=
  match units.getLast? with
  | some last => units.dropLast ++ [last + UInt16.ofNat step]
  | none => []

/-- Gives consecutive codes the texts that begin with `units` and advance. -/
def setTextRange (m : CodeMap) (low high : UInt32) (units : List UInt16) : CodeMap :=
  (List.range (rangeSize low high)).foldl (fun m step =>
    m.setText (low + UInt32.ofNat step) (textOf (advanced units step))) m

/-- The number of codes of a range for which there are CIDs from `first` on. -/
def cidCount (low high first : UInt32) : Nat :=
  min (rangeSize low high) (UInt32.size - first.toNat)

/-- Gives consecutive codes consecutive CIDs, as far as there are any. -/
def setCidRange (m : CodeMap) (low high first : UInt32) : CodeMap :=
  (List.range (cidCount low high first)).foldl (fun m step =>
    m.setCid (low + UInt32.ofNat step) (first + UInt32.ofNat step)) m

end CodeMap

end FontSubset
