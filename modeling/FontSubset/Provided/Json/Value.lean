import FontSubset.Provided.Json.Numeral
import FontSubset.Provided.Json.Quote

/-!
# JSON values

Readers of the kinds of values that records are made of. A value of another kind is a mismatch,
unless it is no value at all. `skipValue` goes past a value of any kind and any depth.
-/

namespace FontSubset.Json

/-- The first byte of a value. -/
def startOfValue : Reader UInt8 := do
  match ← peek with
  | some b => return b
  | none => throw .truncated

/-- Goes past a value that is neither an array nor an object, which begins with `b`. -/
def skipScalar (b : UInt8) (number string : Reader Unit) : Reader Unit :=
  if b = 'n'.toUInt8 then expectWord "null"
  else if b = 't'.toUInt8 then expectWord "true"
  else if b = 'f'.toUInt8 then expectWord "false"
  else if b = quoteMark then do
    advance
    string
  else if startsNumber b then number
  else throw .malformed

/-- The fault of a value of the wrong kind, which begins with `b`: it is a mismatch if it can be
read. Of an array or an object only the bracket is looked at. -/
def wrongKind (b : UInt8) : Reader α := do
  if b ≠ '['.toUInt8 ∧ b ≠ 0x7B then
    skipScalar b (do let _ ← readNumber b) (do let _ ← readString)
  throw .mismatch

def string : Reader String := do
  let b ← startOfValue
  if b = quoteMark then
    advance
    readString
  else wrongKind b

def boolean : Reader Bool := do
  let b ← startOfValue
  if b = 't'.toUInt8 then
    expectWord "true"
    return true
  else if b = 'f'.toUInt8 then
    expectWord "false"
    return false
  else wrongKind b

/-- A natural number of 16 bits. -/
def word16 : Reader UInt16 := do
  let b ← startOfValue
  if startsNumber b then
    match (← readNumber b).natural? with
    | some n => if n < UInt16.size then return UInt16.ofNat n else throw .mismatch
    | none => throw .mismatch
  else wrongKind b

/-! ## Arrays -/

/-- Whether another element follows in an array, of which some elements may have been read. -/
def moreElements (isFirst : Bool) : Reader Bool := do
  match ← peek with
  | none => throw .truncated
  | some b =>
    if b = ']'.toUInt8 then return false
    else if isFirst then return true
    else if b = ','.toUInt8 then
      advance
      if (← startOfValue) = ']'.toUInt8 then throw .malformed
      return true
    else throw .malformed

/-- The elements of an array. -/
def array (element : Reader α) : Reader (List α) := do
  let b ← startOfValue
  if b = '['.toUInt8 then
    advance
    let elements ← iterate ([] : List α) fun seen => do
      if ← moreElements seen.isEmpty then return .inl ((← element) :: seen)
      else return .inr seen.reverse
    expectMark ']'
    return elements
  else wrongKind b

/-! ## Values that do not count -/

inductive Bracket
  | array
  | object
  deriving DecidableEq

/-- A place within brackets, behind a value or behind the opening bracket. -/
structure Spot where
  isFirst : Bool
  inner : Bracket
  /-- The brackets around the innermost one. -/
  outer : List Bracket
  deriving DecidableEq

def Bracket.closing : Bracket → UInt8
  | .array => 0x5D
  | .object => 0x7D

/-- The place behind a value within some brackets, unless there are none. -/
def Spot.behind : List Bracket → Option Spot
  | [] => none
  | inner :: outer => some ⟨false, inner, outer⟩

/-- The key of a member of an object, which an element of an array does not have. -/
def skipKey : Bracket → Reader Unit
  | .array => return ()
  | .object => do
    expectMark '"'
    skipString
    expectMark ':'

/-- Goes past a value within some brackets, or behind its opening bracket. -/
def skipFrom (outer : List Bracket) : Reader (Option Spot) := do
  let b ← startOfValue
  if b = '['.toUInt8 then
    advance
    return some ⟨true, .array, outer⟩
  else if b = 0x7B then
    advance
    return some ⟨true, .object, outer⟩
  else
    skipScalar b (skipNumber b) skipString
    return Spot.behind outer

/-- Goes past a closing bracket, or past a comma and into what follows it. -/
def skipOn (s : Spot) : Reader (Option Spot) := do
  let b ← startOfValue
  if b = s.inner.closing then
    advance
    return Spot.behind s.outer
  else
    if ¬ s.isFirst then
      if b = ','.toUInt8 then advance else throw .malformed
    skipKey s.inner
    skipFrom (s.inner :: s.outer)

/-- Goes past a value. -/
def skipValue : Reader Unit := do
  match ← skipFrom [] with
  | none => return ()
  | some spot =>
    iterate spot fun spot => do
      match ← skipOn spot with
      | some next => return .inl next
      | none => return .inr ()

end FontSubset.Json
