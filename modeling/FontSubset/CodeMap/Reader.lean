import FontSubset.CodeMap.Basic
import FontSubset.CodeMap.Lexer
import FontSubset.Log

/-!
# Reading code maps

A code map is read token by token. What a token means depends on the place where it stands:
outside of all sections, at the start of an entry, or within one. `Place` lists the places, and
`Reader.step` takes a token to the next place. An entry that is not complete is left out with a
warning; only a misspelled token, a section without an end and a range of too many codes make a
code map unreadable.
-/

namespace FontSubset.CodeMap

/-- Where the reading of a code map stands. -/
inductive Place
  /-- Outside of all sections, with the name that the last token was. -/
  | outside (lastName : Option String)
  /-- Where the name of the map is expected. -/
  | mapName
  /-- Where an entry of a section or the end of the section is expected. -/
  | entry (part : Section)
  /-- Behind the low bound of a code space. -/
  | spaceHigh (low : List UInt8)
  /-- Behind a code that is to be given a text. -/
  | charText (code : List UInt8)
  /-- Behind the low bound of a range that is to be given texts. -/
  | rangeHigh (low : List UInt8)
  | rangeText (low high : UInt32)
  /-- Within the array of the texts of a range, the next of which is that of `code`. -/
  | rangeArray (high code : UInt32)
  /-- Behind a code that is to be given a CID. -/
  | charCid (code : List UInt8)
  /-- Behind the low bound of a range that is to be given CIDs. -/
  | cidHigh (low : List UInt8)
  /-- Where the first CID of a range is expected; its high bound may be missing. -/
  | cidFirst (low : List UInt8) (high : Option (List UInt8))
  deriving DecidableEq

/-- The section that a place lies in. -/
def Place.part? : Place → Option Section
  | outside _ | mapName => none
  | entry part => some part
  | spaceHigh _ => some .codeSpaceRange
  | charText _ => some .bfChar
  | rangeHigh _ | rangeText .. | rangeArray .. => some .bfRange
  | charCid _ => some .cidChar
  | cidHigh _ | cidFirst .. => some .cidRange

/-- What has been read of a code map. -/
structure Reader where
  place : Place
  map : CodeMap
  /-- The lengths of the codes that entries are about. -/
  lengths : Std.TreeSet Nat

namespace Reader

def start : Reader :=
  ⟨.outside none, .empty, ∅⟩

def moveTo (r : Reader) (place : Place) : Reader :=
  { r with place }

/-- Records an entry about a code and goes on to the next entry. -/
def finishEntry (r : Reader) (part : Section) (code : List UInt8) (map : CodeMap) : Reader :=
  ⟨.entry part, map, r.lengths.insert code.length⟩

/-- Leaves an entry out and goes on to the next one. -/
def skipEntry (r : Reader) (part : Section) (event : Event) : Traced Reader := do
  Traced.report event
  return r.moveTo (.entry part)

def sections : List Section :=
  [.codeSpaceRange, .bfChar, .bfRange, .cidChar, .cidRange]

/-- The section that a keyword opens. -/
def opened? (word : String) : Option Section :=
  sections.find? fun part => word = "begin" ++ part.name

def closes (part : Section) (token : Token) : Bool :=
  token = .keyword ("end" ++ part.name)

def outside (r : Reader) (lastName : Option String) (token : Token) : Traced Reader := do
  match token with
  | .name "CMapName" => return r.moveTo .mapName
  | .name name => return r.moveTo (.outside (some name))
  | .keyword word =>
    match opened? word with
    | some part => return r.moveTo (.entry part)
    | none =>
      match lastName with
      | some parent => if word = "usecmap" then Traced.report (.parentIgnored parent)
      | none => pure ()
      return r.moveTo (.outside none)
  | _ => return r.moveTo (.outside none)

def mapName (r : Reader) (token : Token) : Reader :=
  let place := Place.outside (some "CMapName")
  match token with
  | .name name => { r with place, map := { r.map with name := some name } }
  | _ => r.moveTo place

/-- Where an entry goes on behind the code that it begins with. -/
def behindCode (code : List UInt8) : Section → Place
  | .codeSpaceRange => .spaceHigh code
  | .bfChar => .charText code
  | .bfRange => .rangeHigh code
  | .cidChar => .charCid code
  | .cidRange => .cidHigh code

def entry (r : Reader) (part : Section) (token : Token) : Traced Reader :=
  if closes part token then return r.moveTo (.outside none)
  else match token with
    | .hex code => return r.moveTo (behindCode code part)
    | _ => r.skipEntry part (.tokenUnexpected token part.name)

def spaceHigh (r : Reader) (low : List UInt8) (token : Token) : Traced Reader :=
  match token with
  | .hex high =>
    if low.length = high.length ∧ low ≠ [] ∧ low.length ≤ 4 then
      let space : CodeSpace := ⟨codeOf low, codeOf high, low.length⟩
      return { r with
        place := .entry .codeSpaceRange
        map := { r.map with spaces := r.map.spaces ++ [space] } }
    else r.skipEntry .codeSpaceRange .boundsMismatch
  | _ => r.skipEntry .codeSpaceRange (.highBoundMissing .codeSpaceRange)

def charText (r : Reader) (code : List UInt8) (token : Token) : Traced Reader :=
  match token with
  | .hex text =>
    return r.finishEntry .bfChar code (r.map.setText (codeOf code) (textOf (Utf16.ofBytes text)))
  | _ => r.skipEntry .bfChar (.destinationNotString .bfChar token)

/-- A range may not cover too many codes. -/
def checkRange (part : Section) (low high : UInt32) : Except FontError Unit :=
  if maxRangeCodes < rangeSize low high then
    .error (.invalidCodeMap (.oversizedRange part low high))
  else .ok ()

def rangeHigh (r : Reader) (low : List UInt8) (token : Token) : Traced Reader := do
  match token with
  | .hex high =>
    checkRange .bfRange (codeOf low) (codeOf high)
    return { r with
      place := .rangeText (codeOf low) (codeOf high)
      lengths := r.lengths.insert low.length }
  | _ => r.skipEntry .bfRange (.highBoundMissing .bfRange)

def rangeText (r : Reader) (low high : UInt32) (token : Token) : Traced Reader :=
  match token with
  | .hex text =>
    return { r with
      place := .entry .bfRange
      map := r.map.setTextRange low high (Utf16.ofBytes text) }
  | .arrayStart => return r.moveTo (.rangeArray high low)
  | _ => r.skipEntry .bfRange (.destinationNotString .bfRange token)

/-- The code after `code`; the largest code is its own successor. -/
def nextCodeOf (code : UInt32) : UInt32 :=
  if code = 0xFFFFFFFF then code else code + 1

def rangeArray (r : Reader) (high code : UInt32) (token : Token) : Traced Reader := do
  match token with
  | .hex text =>
    return {
      place := .rangeArray high (nextCodeOf code)
      map := if code ≤ high then r.map.setText code (textOf (Utf16.ofBytes text)) else r.map
      lengths := r.lengths }
  | .arrayEnd => return r.moveTo (.entry .bfRange)
  | _ =>
    Traced.report (.tokenUnexpected token "bfrange array")
    return r

def charCid (r : Reader) (code : List UInt8) (token : Token) : Traced Reader :=
  match token with
  | .integer (.ofNat cid) =>
    return r.finishEntry .cidChar code (r.map.setCid (codeOf code) (UInt32.ofNat cid))
  | _ => r.skipEntry .cidChar (.destinationNotCid token)

def cidHigh (r : Reader) (low : List UInt8) (token : Token) : Reader :=
  match token with
  | .hex high => r.moveTo (.cidFirst low (some high))
  | _ => r.moveTo (.cidFirst low none)

def cidFirst (r : Reader) (low : List UInt8) (high : Option (List UInt8)) (token : Token) :
    Traced Reader := do
  match high, token with
  | some high, .integer cid =>
    if 0 ≤ cid ∧ cid < UInt32.size then
      let first := UInt32.ofNat cid.toNat
      let (low', high') := (codeOf low, codeOf high)
      checkRange .cidRange low' high'
      let count := cidCount low' high' first
      if count < rangeSize low' high' then
        Traced.report (.cidsExhausted (low' + UInt32.ofNat count))
      return r.finishEntry .cidRange low (r.map.setCidRange low' high' first)
    else r.skipEntry .cidRange (.firstCidOutOfRange cid)
  | _, _ => r.skipEntry .cidRange .cidRangeMalformed

/-- Takes in a token. -/
def step (r : Reader) (token : Token) : Traced Reader :=
  match r.place with
  | .outside lastName => r.outside lastName token
  | .mapName => return r.mapName token
  | .entry part => r.entry part token
  | .spaceHigh low => r.spaceHigh low token
  | .charText code => r.charText code token
  | .rangeHigh low => r.rangeHigh low token
  | .rangeText low high => r.rangeText low high token
  | .rangeArray high code => r.rangeArray high code token
  | .charCid code => r.charCid code token
  | .cidHigh low => return r.cidHigh low token
  | .cidFirst low high => r.cidFirst low high token

/-- The code spaces of a map that declares none: all codes of the lengths that its entries are
about, or of two bytes. -/
def impliedSpaces (r : Reader) : List CodeSpace :=
  if r.lengths.isEmpty then [.full 2] else r.lengths.toList.map CodeSpace.full

/-- The map that has been read. -/
def result (r : Reader) : CodeMap :=
  if r.map.spaces.isEmpty then { r.map with spaces := r.impliedSpaces } else r.map

/-- What is wrong when the tokens come to an end. -/
def endFault? (r : Reader) (fault : Option CodeMapFault) : Option CodeMapFault :=
  fault.or (r.place.part?.map .unterminated)

end Reader

/-- The code map that some bytes spell. -/
def read (data : Bytes) : Traced CodeMap := do
  let (tokens, fault) := tokens data
  let reader ← Traced.foldl Reader.step .start tokens
  match reader.endFault? fault with
  | some fault => throw (.invalidCodeMap fault)
  | none =>
    let map := reader.result
    Traced.report (.codeMapRead map.name map.spaces.length map.texts.size map.cids.size)
    return map

end FontSubset.CodeMap
