import FontSubset.Provided.Json.Reader
import FontSubset.Text.Hex
import FontSubset.Text.Utf16
import FontSubset.Text.Utf8

/-!
# JSON strings

Strings are read behind their first quote. `readString` gives the text, `skipString` only looks for
the end; it does not mind surrogates without a partner, as they do not matter there. `quote` writes
a string.
-/

namespace FontSubset.Json

def quoteMark : UInt8 := 0x22
def backslash : UInt8 := 0x5C

/-- The four digits of an escape. -/
def hexUnit : Reader UInt16 := do
  match ← get with
  | a :: b :: c :: d :: rest =>
    set rest
    match [a, b, c, d].mapM Hex.value? with
    | some digits => return digits.foldl (fun n digit => 16 * n + digit.toUInt16) 0
    | none => throw .malformed
  | _ => throw .truncated

/-- The byte that an escape of two characters stands for. -/
def plainEscape? (b : UInt8) : Option UInt8 :=
  if b = quoteMark ∨ b = backslash ∨ b = '/'.toUInt8 then some b
  else if b = 'b'.toUInt8 then some 8
  else if b = 'f'.toUInt8 then some 12
  else if b = 'n'.toUInt8 then some 10
  else if b = 'r'.toUInt8 then some 13
  else if b = 't'.toUInt8 then some 9
  else none

/-- A byte that must come next, as the low surrogate of a pair has to follow the high one. -/
def expectPartner (b : UInt8) : Reader Unit := do
  match ← nextByte with
  | none => throw .truncated
  | some c => if c ≠ b then throw .malformed

/-- The character of an escape by number, behind its `u`; one beyond the basic plane takes two
escapes. -/
def unicodeEscape : Reader Char := do
  let unit ← hexUnit
  if Utf16.isLow unit then throw .malformed
  else if Utf16.isHigh unit then
    expectPartner backslash
    expectPartner 'u'.toUInt8
    let low ← hexUnit
    if Utf16.isLow low then return Utf16.pair unit low else throw .malformed
  else return Char.ofNat unit.toNat

/-- The bytes that an escape stands for, behind its backslash. -/
def escape : Reader (List UInt8) := do
  match ← nextByte with
  | none => throw .truncated
  | some b =>
    if b = 'u'.toUInt8 then return String.utf8EncodeChar (← unicodeEscape)
    else match plainEscape? b with
      | some value => return [value]
      | none => throw .malformed

def skipEscape : Reader Unit := do
  match ← nextByte with
  | none => throw .truncated
  | some b =>
    if b = 'u'.toUInt8 then
      let _ ← hexUnit
    else if (plainEscape? b).isNone then throw .malformed

/-- The text up to the next quote. -/
def readString : Reader String :=
  iterate ([] : List UInt8) fun seen => do
    match ← nextByte with
    | none => throw .truncated
    | some b =>
      if b = quoteMark then return .inr (String.ofList (Utf8.decodeLossy seen.reverse))
      else if b = backslash then return .inl ((← escape).reverse ++ seen)
      else if b < 0x20 then throw .malformed
      else return .inl (b :: seen)

/-- Goes behind the next quote. -/
def skipString : Reader Unit :=
  iterate () fun _ => do
    match ← nextByte with
    | none => throw .truncated
    | some b =>
      if b = quoteMark then return .inr ()
      else if b = backslash then
        skipEscape
        return .inl ()
      else if b < 0x20 then throw .malformed
      else return .inl ()

/-- A character as it stands in a string. -/
def quoteChar (c : Char) : List Char :=
  match c with
  | '"' => ['\\', '"']
  | '\\' => ['\\', '\\']
  | '\n' => ['\\', 'n']
  | '\r' => ['\\', 'r']
  | '\t' => ['\\', 't']
  | c =>
    if c.toNat = 8 then ['\\', 'b']
    else if c.toNat = 12 then ['\\', 'f']
    else if c.toNat < 0x20 then '\\' :: 'u' :: Hex.paddedLower 4 c.toNat
    else [c]

/-- A text as a string. -/
def quote (text : String) : String :=
  String.ofList ('"' :: (text.toList.flatMap quoteChar ++ ['"']))

end FontSubset.Json
