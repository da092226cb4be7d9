import FontSubset.Embedding.UsedGlyph
import FontSubset.Text.Hex
import FontSubset.Text.Utf16

/-!
# Text of glyphs

A font dictionary refers to a code map from glyph numbers to text, so that the text of a document
can be extracted. It is written in blocks of at most a hundred entries.
-/

namespace FontSubset.ToUnicode

def header : String := String.join [
  "/CIDInit /ProcSet findresource begin\n",
  "12 dict begin\n",
  "begincmap\n",
  "/CIDSystemInfo\n",
  "<< /Registry (Adobe)\n",
  "/Ordering (UCS)\n",
  "/Supplement 0\n",
  ">> def\n",
  "/CMapName /Adobe-Identity-UCS def\n",
  "/CMapType 2 def\n",
  "1 begincodespacerange\n",
  "<0000><FFFF>\n",
  "endcodespacerange\n"]

def footer : String := String.join [
  "endcmap\n",
  "CMapName currentdict /CMap defineresource pop\n",
  "end end\n"]

/-- The number of entries in a full block. -/
def blockSize : Nat := 100

def quad (unit : UInt16) : List Char :=
  Hex.fixed 4 unit.toNat

/-- A text in hexadecimal, between angle brackets. -/
def string (text : List Char) : List Char :=
  '<' :: ((Utf16.encode text).flatMap quad ++ ['>'])

/-- A text as the destination of a range: a character beyond the basic plane is put into an array,
anything else stands as it is. -/
def destination (text : List Char) : List Char :=
  match text with
  | [c] => if 0x10000 ≤ c.toNat then '[' :: (string text ++ [']']) else string text
  | _ => string text

/-- The entry of a glyph, a range of a single code. -/
def entry (g : UsedGlyph) : List Char :=
  let code := '<' :: (quad g.glyph ++ ['>'])
  code ++ code ++ destination g.text.toList ++ ['\n']

def block (glyphs : List UsedGlyph) : List Char :=
  s!"{glyphs.length} beginbfrange\n".toList ++ glyphs.flatMap entry ++ "endbfrange\n".toList

/-- The items in blocks of a size, which is not zero; the last one may be smaller. -/
def blocks (size : Nat) : List α → List (List α)
  | [] => []
  | a :: rest => (a :: rest.take (size - 1)) :: blocks size (rest.drop (size - 1))
termination_by items => items.length
decreasing_by simp only [List.length_drop, List.length_cons]; omega

/-- The glyphs that stand for some text, in the order of their numbers. -/
def mapped (glyphs : List UsedGlyph) : List UsedGlyph :=
  (UsedGlyphs.ofList (glyphs.filter (·.text ≠ ""))).values

/-- The code map of some glyphs, unless none of them stands for text. -/
def ofGlyphs (glyphs : List UsedGlyph) : Option String :=
  match mapped glyphs with
  | [] => none
  | found => some (header ++ String.ofList ((blocks blockSize found).flatMap block) ++ footer)

end FontSubset.ToUnicode
