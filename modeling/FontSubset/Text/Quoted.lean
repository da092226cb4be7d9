import FontSubset.Text.Hex

/-!
# Quoted text

Text as it is shown in a message: between double quotes, with the quote, the backslash and the
control characters of ASCII escaped.
-/

namespace FontSubset.Quoted

def escape (c : Char) : List Char :=
  match c with
  | '"' => ['\\', '"']
  | '\\' => ['\\', '\\']
  | '\n' => ['\\', 'n']
  | '\r' => ['\\', 'r']
  | '\t' => ['\\', 't']
  | c =>
    if c.toNat = 0 then ['\\', '0']
    else if c.toNat < 0x20 ∨ c.toNat = 0x7F then
      '\\' :: 'u' :: '\x7b' :: (Hex.paddedLower 1 c.toNat ++ ['\x7d'])
    else [c]

def encode (text : String) : String :=
  String.ofList ('"' :: (text.toList.flatMap escape ++ ['"']))

end FontSubset.Quoted
