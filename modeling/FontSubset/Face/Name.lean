import FontSubset.Face.Basic
import FontSubset.Text.Blank

/-!
# Font names

The PostScript name of a font is the first one in its table that is not blank, without the white
space in it.
-/

namespace FontSubset

namespace FaceName

def postScript : UInt16 := 6
def fullName : UInt16 := 4

/-- The text of a name, without its white space. Of the Macintosh encodings only the ASCII part is
needed, so that each byte is taken for a character. -/
def solidText (n : FaceName) : List Char :=
  let text : List Char := match n.text with
    | some text => text
    | none => if n.isMacintosh then n.bytes.map fun b => Char.ofNat b.toNat else []
  text.filter fun c => ¬ Text.isBlank c

end FaceName

namespace Face

/-- The first name of a kind that is not blank. -/
def findName? (f : Face) (kind : UInt16) : Option String :=
  ((f.names.filter (·.kind = kind)).map FaceName.solidText).find? (· ≠ []) |>.map String.ofList

/-- The PostScript name or, where there is none, the full name. -/
def postScriptName (f : Face) : String :=
  (f.findName? FaceName.postScript).getD ((f.findName? FaceName.fullName).getD "Unnamed")

end Face

end FontSubset
