import FontSubset.Error

/-!
# Reading JSON

A reader takes a value from the front of some bytes and leaves the rest. It goes through the bytes
once, so that of several faults in a text the first one counts.
-/

namespace FontSubset.Json

/-- What has not been read. -/
abbrev Input := List UInt8

abbrev Reader := StateT Input (Except JobFault)

/-- Repeats a step until it yields a result, at most `fuel` times. -/
def repeatStep (step : σ → Reader (σ ⊕ β)) :
    Nat → σ → Input → Except JobFault (β × Input)
  | 0, _, _ => .error .malformed
  | fuel + 1, s, input =>
    match step s input with
    | .error fault => .error fault
    | .ok (.inl s, rest) => repeatStep step fuel s rest
    | .ok (.inr result, rest) => .ok (result, rest)

/-- Repeats a step until it yields a result. A step that does not must use up a byte or more, so
that there are no more steps than bytes, and one for the end. -/
def iterate (s : σ) (step : σ → Reader (σ ⊕ β)) : Reader β := fun input =>
  repeatStep step (input.length + 1) s input

/-- White space between the parts of a text. -/
def isBlank (b : UInt8) : Bool :=
  b = 32 ∨ b = 9 ∨ b = 10 ∨ b = 13

/-- The next byte, which is left where it is. -/
def peekByte : Reader (Option UInt8) :=
  return (← get).head?

def advance : Reader Unit :=
  modify (·.drop 1)

/-- The next byte, if there is one. -/
def nextByte : Reader (Option UInt8) := do
  let b ← peekByte
  advance
  return b

/-- The next byte behind white space, which is left where it is. -/
def peek : Reader (Option UInt8) := do
  modify (·.dropWhile isBlank)
  peekByte

/-- The bytes up to the first one that is not in a class. -/
def takeWhile (p : UInt8 → Bool) : Reader Input := do
  let input ← get
  set (input.dropWhile p)
  return input.takeWhile p

/-- Some bytes that must come next. -/
def expectBytes : List UInt8 → Reader Unit
  | [] => return ()
  | b :: rest => do
    match ← nextByte with
    | none => throw .truncated
    | some c => if c = b then expectBytes rest else throw .malformed

/-- The rest of one of the words `null`, `true` and `false`, of which the first byte has been
seen. -/
def expectWord (word : String) : Reader Unit := do
  advance
  expectBytes (word.toUTF8.toList.drop 1)

/-- A byte of ASCII behind white space. -/
def expectMark (c : Char) : Reader Unit := do
  match ← peek with
  | none => throw .truncated
  | some b => if b = c.toUInt8 then advance else throw .malformed

/-- Nothing but white space may follow. -/
def expectEnd : Reader Unit := do
  if (← peek).isSome then throw .malformed

/-- What a reader makes of a text. -/
def run (r : Reader α) (text : String) : Except JobFault α :=
  (r text.toUTF8.toList).map Prod.fst

end FontSubset.Json
