import FontSubset.Provided.Json.Value

/-!
# JSON records

A record is an object with some known members, each of which may occur once; other members are
skipped. It may also be written as an array of its fields in order, of which the last ones may be
left out.
-/

namespace FontSubset.Json

/-- A field of a record that is put together in a `σ`. -/
structure Field (σ : Type) where
  name : String
  /-- Whether the field has been read. -/
  isSet : σ → Bool
  read : σ → Reader σ

/-- The key of the next member of an object, if there is one. -/
def nextKey (isFirst : Bool) : Reader (Option String) := do
  let b ← startOfValue
  if b = 0x7D then return none
  if ¬ isFirst then
    if b = ','.toUInt8 then advance else throw .malformed
  expectMark '"'
  some <$> readString

/-- The member of a key that has been read. -/
def member (fields : List (Field σ)) (s : σ) (key : String) : Reader σ := do
  match fields.find? (·.name = key) with
  | some field =>
    if field.isSet s then throw .mismatch
    expectMark ':'
    field.read s
  | none =>
    expectMark ':'
    skipValue
    return s

/-- The members of an object up to its closing bracket. -/
def members (fields : List (Field σ)) (start : σ) : Reader σ :=
  iterate (true, start) fun (isFirst, s) => do
    match ← nextKey isFirst with
    | some key => return .inl (false, ← member fields s key)
    | none => return .inr s

/-- The elements of an array that gives fields in order, up to the last field. -/
def elements (s : σ) (isFirst : Bool) : List (Field σ) → Reader σ
  | [] => return s
  | field :: rest => do
    if ← moreElements isFirst then elements (← field.read s) false rest
    else return s

/-- A record, which is put together from its fields and checked before its closing bracket. -/
def record (fields : List (Field σ)) (start : σ) (finish : σ → Except JobFault α) : Reader α := do
  let b ← startOfValue
  if b = 0x7B then
    advance
    let value ← finish (← members fields start)
    expectMark '\x7d'
    return value
  else if b = '['.toUInt8 then
    advance
    let value ← finish (← elements start true fields)
    expectMark ']'
    return value
  else wrongKind b

end FontSubset.Json
