import FontSubset.Sfnt.Tag
import FontSubset.Text.Hex

/-!
# Errors

Every failure is the value of one type, `FontError`, and is fatal for the operation that raised it.
A failure names its cause; the wording of all of them is `FontError.message`.
-/

namespace FontSubset

/-- The index of a glyph within a font. -/
abbrev GlyphId := UInt16

/-- What is wrong with a font whose bytes could be read. -/
inductive FormatFault
  /-- The first word of a directory announces no known font. -/
  | unknownVersion (version : UInt32)
  | notACollection (index : UInt32)
  | memberOutOfRange (count index : UInt32)
  /-- The outlines are in a format without glyph records. -/
  | compactOutlines
  | glyphOutsideLocations (glyph : GlyphId) (count : Nat)
  | locationsDecrease (glyph : GlyphId) (start stop : UInt32)
  | missingComponent (glyph component : GlyphId)
  /-- `glyph` is one of its own components, directly a component of `via`. -/
  | cyclicComposite (glyph via : GlyphId)
  | retainedOutsideLocations (glyph : GlyphId)
  | glyphPastOutlines (glyph : GlyphId) (stop length : UInt32)
  | unreadableMetrics (detail : String)
  deriving DecidableEq

def FormatFault.message : FormatFault → String
  | .unknownVersion version =>
    s!"not a TrueType or OpenType font (version 0x{String.ofList (Hex.paddedLower 8 version.toNat)})"
  | .notACollection index => s!"font index {index} requested from a font that is not a collection"
  | .memberOutOfRange count index => s!"collection has {count} fonts, index {index} is out of range"
  | .compactOutlines => "CFF-flavored OpenType fonts have no glyf table to subset"
  | .glyphOutsideLocations glyph count => s!"glyph {glyph} is outside loca ({count} glyphs)"
  | .locationsDecrease glyph start stop =>
    s!"loca entries for glyph {glyph} decrease ({start} > {stop})"
  | .missingComponent glyph component =>
    s!"glyph {glyph} references missing component glyph {component}"
  | .cyclicComposite glyph via => s!"composite glyph {glyph} contains itself (via glyph {via})"
  | .retainedOutsideLocations glyph => s!"retained glyph {glyph} is outside loca"
  | .glyphPastOutlines glyph stop length =>
    s!"glyph {glyph} ends at {stop} past the glyf table ({length} bytes)"
  | .unreadableMetrics detail => s!"cannot read font metrics: {detail}"

/-- What is wrong with the spelling of a token of a code map. -/
inductive LexicalFault
  | unterminatedHex
  | invalidHexDigit
  | unterminatedLiteral
  | strayClose
  | strayParenthesis
  deriving DecidableEq

def LexicalFault.message : LexicalFault → String
  | .unterminatedHex => "unterminated hex string"
  | .invalidHexDigit => "invalid hex digit"
  | .unterminatedLiteral => "unterminated literal string"
  | .strayClose => "stray '>'"
  | .strayParenthesis => "stray ')'"

/-- The sections of a code map. -/
inductive Section
  | codeSpaceRange
  | bfChar
  | bfRange
  | cidChar
  | cidRange
  deriving DecidableEq

def Section.name : Section → String
  | .codeSpaceRange => "codespacerange"
  | .bfChar => "bfchar"
  | .bfRange => "bfrange"
  | .cidChar => "cidchar"
  | .cidRange => "cidrange"

/-- Why a code map cannot be read. -/
inductive CodeMapFault
  /-- A misspelled token; `position` counts the bytes read when it was noticed. -/
  | lexical (fault : LexicalFault) (position : Nat)
  | unterminated (part : Section)
  | oversizedRange (part : Section) (low high : UInt32)
  deriving DecidableEq

/-- The most codes that one entry of a range section may cover. -/
def maxRangeCodes : Nat := 0x10000

def CodeMapFault.message : CodeMapFault → String
  | .lexical fault position => s!"{fault.message} at byte {position}"
  | .unterminated part => s!"unterminated {part.name} section"
  | .oversizedRange part low high =>
    let first := String.ofList (Hex.padded 1 low.toNat)
    let last := String.ofList (Hex.padded 1 high.toNat)
    s!"{part.name} <{first}> <{last}> spans more than {maxRangeCodes} codes"

/-- What kind of fault stopped the reading of a job. -/
inductive JobFault
  /-- The text is not JSON. -/
  | malformed
  /-- The text is JSON so far, but does not describe a job. -/
  | mismatch
  /-- The text ends too early. -/
  | truncated
  /-- The text could not be read at all. -/
  | unreadable
  deriving DecidableEq

/-- Advice to the author of a job; empty where there is none to give. -/
def JobFault.hint : JobFault → String
  | .malformed => "Check for trailing commas, missing quotes, or unescaped characters."
  | .mismatch =>
    "The JSON is valid but doesn't match the job schema. Check field names and types."
  | .truncated => "Unexpected end of input, is the JSON truncated?"
  | .unreadable => ""

inductive FontError
  | invalidFormat (fault : FormatFault)
  | missingTable (tag : Tag)
  /-- `wanted` bytes were to be read at `offset`, and not all of them are there. -/
  | endOfData (offset wanted : Nat)
  | unsupportedComposite (glyph : GlyphId) (flags : UInt16)
  | invalidCodeMap (fault : CodeMapFault)
  | inputOutput (detail : String)
  | invalidJob (fault : JobFault) (detail : String)
  deriving DecidableEq

def FontError.message : FontError → String
  | .invalidFormat fault => s!"invalid font format: {fault.message}"
  | .missingTable tag => s!"required table '{tag.text}' is missing"
  | .endOfData offset wanted =>
    s!"unexpected end of data: wanted {wanted} byte(s) at offset {offset}"
  | .unsupportedComposite glyph flags =>
    let digits := String.ofList (Hex.paddedLower 4 flags.toNat)
    s!"unsupported composite encoding in glyph {glyph}: flags 0x{digits}"
  | .invalidCodeMap fault => s!"invalid CMap: {fault.message}"
  | .inputOutput detail => s!"I/O error: {detail}"
  | .invalidJob fault detail =>
    if fault.hint = "" then s!"failed to parse job: {detail}"
    else s!"failed to parse job: {detail}\n  Hint: {fault.hint}"

end FontSubset
