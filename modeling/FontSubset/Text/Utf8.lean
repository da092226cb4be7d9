/-!
# UTF-8

Text as bytes. A sequence of several bytes begins with a byte that says how many follow and in
which range the next one lies. `decodeLossy` puts one replacement character in the place of as
many bytes as could begin a character; `decode?` gives none where there are such bytes.
-/

namespace FontSubset.Utf8

def replacement : Char := '\ufffd'

/-- The bits of a character that its first byte holds, and the bounds of the bytes that follow. -/
def lead? (b : UInt8) : Option (Nat × List (UInt8 × UInt8)) :=
  let any : UInt8 × UInt8 := (0x80, 0xBF)
  if b < 0x80 then some (b.toNat, [])
  else if b < 0xC2 then none
  else if b < 0xE0 then some (b.toNat % 0x20, [any])
  else if b = 0xE0 then some (0x0, [(0xA0, 0xBF), any])
  else if b = 0xED then some (0xD, [(0x80, 0x9F), any])
  else if b < 0xF0 then some (b.toNat % 0x10, [any, any])
  else if b = 0xF0 then some (0x0, [(0x90, 0xBF), any, any])
  else if b < 0xF4 then some (b.toNat % 0x8, [any, any, any])
  else if b = 0xF4 then some (0x4, [(0x80, 0x8F), any, any])
  else none

/-- The longest beginning of some bytes that keeps to the bounds. -/
def fitting : List (UInt8 × UInt8) → List UInt8 → List UInt8
  | (low, high) :: bounds, b :: rest =>
    if low ≤ b ∧ b ≤ high then b :: fitting bounds rest else []
  | _, _ => []

/-- The characters of some bytes; bytes that do not make up a character have none. -/
def scan : List UInt8 → List (Option Char)
  | [] => []
  | b :: rest =>
    match lead? b with
    | none => none :: scan rest
    | some (bits, bounds) =>
      let others := fitting bounds rest
      let c := if others.length = bounds.length then
        some (Char.ofNat (others.foldl (fun n b => 0x40 * n + b.toNat % 0x40) bits)) else none
      c :: scan (rest.drop others.length)
termination_by bytes => bytes.length
decreasing_by
  · simp
  · simp only [List.length_drop, List.length_cons]; omega

def decodeLossy (bytes : List UInt8) : List Char :=
  (scan bytes).map (·.getD replacement)

def decode? (bytes : List UInt8) : Option (List Char) :=
  (scan bytes).mapM id

example : decodeLossy [0x41, 0xC3, 0xA9, 0xF0, 0x9F, 0x98, 0x41, 0xED, 0xA0, 0x80] =
    ['A', 'é', '\ufffd', 'A', '\ufffd', '\ufffd', '\ufffd'] := by decide +kernel

end FontSubset.Utf8
