/-!
# Table tags

A tag is four bytes, kept as one big-endian word, so that the order of tags as byte strings is the
order of the words.
-/

namespace FontSubset

/-- The four-byte name of a table, a script or a collection header. -/
structure Tag where
  code : UInt32
  deriving DecidableEq

namespace Tag

def ofBytes (a b c d : UInt8) : Tag :=
  ⟨a.toUInt32 <<< 24 ||| b.toUInt32 <<< 16 ||| c.toUInt32 <<< 8 ||| d.toUInt32⟩

/-- The tag spelled by four characters of one byte each. -/
def ofChars (a b c d : Char) : Tag :=
  ofBytes a.toUInt8 b.toUInt8 c.toUInt8 d.toUInt8

def bytes (t : Tag) : List UInt8 :=
  [(t.code >>> 24).toUInt8, (t.code >>> 16).toUInt8, (t.code >>> 8).toUInt8, t.code.toUInt8]

/-- One character per byte, as in Latin-1. -/
def text (t : Tag) : String :=
  String.ofList (t.bytes.map fun b => Char.ofNat b.toNat)

def characterMap : Tag := ofChars 'c' 'm' 'a' 'p'
def controlValues : Tag := ofChars 'c' 'v' 't' ' '
def fontProgram : Tag := ofChars 'f' 'p' 'g' 'm'
def outlines : Tag := ofChars 'g' 'l' 'y' 'f'
def substitutions : Tag := ofChars 'G' 'S' 'U' 'B'
def header : Tag := ofChars 'h' 'e' 'a' 'd'
def horizontalHeader : Tag := ofChars 'h' 'h' 'e' 'a'
def horizontalMetrics : Tag := ofChars 'h' 'm' 't' 'x'
def locations : Tag := ofChars 'l' 'o' 'c' 'a'
def profile : Tag := ofChars 'm' 'a' 'x' 'p'
def names : Tag := ofChars 'n' 'a' 'm' 'e'
def platformMetrics : Tag := ofChars 'O' 'S' '/' '2'
def printing : Tag := ofChars 'p' 'o' 's' 't'
def controlProgram : Tag := ofChars 'p' 'r' 'e' 'p'
def collection : Tag := ofChars 't' 't' 'c' 'f'

example : outlines.text = "glyf" ∧ outlines.code = 0x676c7966 := by decide

end Tag

end FontSubset
