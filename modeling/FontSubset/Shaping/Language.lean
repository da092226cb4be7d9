import FontSubset.Event
import FontSubset.Text.Script

/-!
# Languages

A font says by script tags which languages it can draw; a text is in a language if any of its
characters is in the script of the language.
-/

namespace FontSubset.Language

def bengaliTag : Tag := Tag.ofChars 'b' 'e' 'n' 'g'
def bengaliTag2 : Tag := Tag.ofChars 'b' 'n' 'g' '2'

/-- The language that a script tag stands for. -/
def ofScript? (script : Tag) : Option Language :=
  if script = bengaliTag ∨ script = bengaliTag2 then some .bengali else none

/-- The first language among some script tags. -/
def detect? (scripts : List Tag) : Option Language :=
  scripts.findSome? ofScript?

/-- The script that a language is written in. -/
def script : Language → Script
  | bengali => .bengali

def appearsIn [ScriptTable] (language : Language) (text : List Char) : Bool :=
  text.any (ScriptTable.isIn language.script)

end FontSubset.Language
