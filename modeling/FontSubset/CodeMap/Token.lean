import FontSubset.Number.Shortest
import FontSubset.Text.Quoted

/-!
# Tokens of code maps

A code map is written in a small part of PostScript. Its tokens are strings of bytes in two
spellings, names, numbers, bare words and brackets.
-/

namespace FontSubset.CodeMap

inductive Token
  /-- Bytes between angle brackets, in hexadecimal. -/
  | hex (bytes : List UInt8)
  /-- Bytes between parentheses, escapes resolved. -/
  | literal (bytes : List UInt8)
  /-- A name, without its slash. -/
  | name (text : String)
  | integer (value : Int)
  | real (value : Binary64)
  /-- Any other bare word. -/
  | keyword (word : String)
  | arrayStart
  | arrayEnd
  | dictStart
  | dictEnd
  | procStart
  | procEnd
  deriving DecidableEq

/-- Bytes as they are shown in a message. -/
def shownBytes (bytes : List UInt8) : String :=
  "[" ++ ", ".intercalate (bytes.map toString) ++ "]"

/-- A token as it is shown in a message. -/
def Token.shown : Token → String
  | .hex bytes => s!"HexString({shownBytes bytes})"
  | .literal bytes => s!"LiteralString({shownBytes bytes})"
  | .name text => s!"Name({Quoted.encode text})"
  | .integer value => s!"Integer({value})"
  | .real value => s!"Real({value.shown})"
  | .keyword word => s!"Keyword({Quoted.encode word})"
  | .arrayStart => "ArrayStart"
  | .arrayEnd => "ArrayEnd"
  | .dictStart => "DictStart"
  | .dictEnd => "DictEnd"
  | .procStart => "ProcStart"
  | .procEnd => "ProcEnd"

end FontSubset.CodeMap
