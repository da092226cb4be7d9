import FontSubset.CodeMap.Token
import FontSubset.Error

/-!
# Events

What the library reports while it works: warnings about parts of a font or a code map that it
leaves out, and details of what it has read and written. `Event.level` and `Event.message` give a
log record.
-/

namespace FontSubset

inductive Level
  | warning
  | detail
  deriving DecidableEq

/-- The two sizes of entries in a location table. -/
inductive LocationFormat
  | short
  | long
  deriving DecidableEq

/-- How a shown string is split into character codes. -/
inductive CodeEncoding
  /-- Codes of two bytes, which are glyph numbers. -/
  | identity
  /-- Codes of one byte. -/
  | singleByte
  deriving DecidableEq

/-- A language whose text is not drawn character by character. -/
inductive Language
  | bengali
  deriving DecidableEq

inductive Event
  | fontOpened (path : String) (size : Nat)
  | directoryRead (offset count : Nat)
  | locationsRead (format : LocationFormat) (count : Nat)
  | glyphPastLocations (glyph : GlyphId) (count : Nat)
  | closureFound (used retained composites : Nat)
  | tableAbsent (tag : Tag)
  | subsetWritten (kept total size : Nat)
  | mapFormatUnknown (format : UInt16)
  | mapRead (format : UInt16) (count : Nat)
  | groupInvalid (first last : UInt32)
  | groupPastLastGlyph (first : UInt32)
  | nestedExtension
  | lookupUnused (kind : UInt16)
  | singleFormatUnknown (format : UInt16)
  | ligatureFormatUnknown (format : UInt16)
  | coverageFormatUnknown (format : UInt16)
  | glyphWithoutSource (glyph : GlyphId)
  | substitutionsRead (scripts rules composites : Nat)
  | fontLoaded (name : String) (tables glyphs unitsPerEm : Nat)
  | languageSupported (name : String) (language : Language)
  | characterDropped (character : Char)
  | halvesMissing (characters : String)
  | parentIgnored (name : String)
  | highBoundMissing (part : Section)
  | boundsMismatch
  | tokenUnexpected (token : CodeMap.Token) (place : String)
  | destinationNotString (part : Section) (token : CodeMap.Token)
  | destinationNotCid (token : CodeMap.Token)
  | cidRangeMalformed
  | firstCidOutOfRange (cid : Int)
  | cidsExhausted (code : UInt32)
  | codeMapRead (name : Option String) (spaces texts cids : Nat)
  | resourceNotFound (path : String)
  | resourceMissing (registry ordering name : String)
  | shownFontBuilt (encoding : CodeEncoding) (spaceCode : Option UInt32) (spaceWidth : UInt32)
  | glyphOutsideFont (glyph : GlyphId) (count : Nat)
  | fontEmbedded (name : String) (used size : Nat)
  | fontWritten (name : String) (object : Nat)
  deriving DecidableEq

def LocationFormat.shown : LocationFormat → String
  | .short => "Short"
  | .long => "Long"

def CodeEncoding.shown : CodeEncoding → String
  | .identity => "Identity"
  | .singleByte => "SingleByte"

def Language.shown : Language → String
  | .bengali => "Bengali"

namespace Event

def shownOption (shown : α → String) : Option α → String
  | some a => s!"Some({shown a})"
  | none => "None"

def level : Event → Level
  | glyphPastLocations .. | mapFormatUnknown _ | groupInvalid .. | groupPastLastGlyph _
  | nestedExtension | singleFormatUnknown _ | ligatureFormatUnknown _ | coverageFormatUnknown _
  | halvesMissing _ | highBoundMissing _ | boundsMismatch | tokenUnexpected ..
  | destinationNotString .. | destinationNotCid _ | cidRangeMalformed | firstCidOutOfRange _
  | cidsExhausted _ | resourceMissing .. | glyphOutsideFont .. => .warning
  | _ => .detail

def message : Event → String
  | fontOpened path size => s!"opened {path} ({size} bytes)"
  | directoryRead offset count => s!"table directory at {offset}: {count} tables"
  | locationsRead format count => s!"loca: {format.shown} format, {count} entries"
  | glyphPastLocations glyph count => s!"glyph {glyph} is past the last glyph ({count}), ignored"
  | closureFound used retained composites =>
    s!"glyph closure: {used} used -> {retained} retained ({composites} composites)"
  | tableAbsent tag => s!"subset: source has no '{tag.text}' table, skipped"
  | subsetWritten kept total size => s!"subset: {kept} of {total} glyphs kept, {size} bytes"
  | mapFormatUnknown format => s!"cmap subtable format {format} is not supported, ignored"
  | mapRead format count => s!"cmap format {format}: {count} codes"
  | groupInvalid first last =>
    let low := String.ofList (Hex.paddedLower 1 first.toNat)
    let high := String.ofList (Hex.paddedLower 1 last.toNat)
    s!"cmap format 12 group 0x{low}..0x{high} is invalid, ignored"
  | groupPastLastGlyph first =>
    let low := String.ofList (Hex.paddedLower 1 first.toNat)
    s!"cmap format 12 group at 0x{low} runs past glyph 65535"
  | nestedExtension => "GSUB extension lookup wraps another extension, skipped"
  | lookupUnused kind => s!"GSUB lookup type {kind} is not used, skipped"
  | singleFormatUnknown format =>
    s!"GSUB single substitution format {format} is unknown, skipped"
  | ligatureFormatUnknown format =>
    s!"GSUB ligature substitution format {format} is unknown, skipped"
  | coverageFormatUnknown format => s!"coverage format {format} is unknown, treated as empty"
  | glyphWithoutSource glyph => s!"GSUB glyph {glyph} has no character source, skipped"
  | substitutionsRead scripts rules composites =>
    s!"GSUB: {scripts} scripts, {rules} rules, {composites} composites"
  | fontLoaded name tables glyphs unitsPerEm =>
    s!"loaded font '{name}': {tables} tables, {glyphs} glyphs, {unitsPerEm} em units"
  | languageSupported name language =>
    s!"font '{name}' supports {language.shown} glyph substitution"
  | characterDropped character =>
    let code := String.ofList (Hex.padded 4 character.toNat)
    s!"no glyph for U+{code}, dropped"
  | halvesMissing characters =>
    s!"font has no glyphs for the halves of {Quoted.encode characters}, left unsplit"
  | parentIgnored name => s!"CMap uses parent '{name}', not followed"
  | highBoundMissing part => s!"{part.name} entry without a high bound, skipped"
  | boundsMismatch => "codespacerange bounds of different lengths, skipped"
  | tokenUnexpected token place => s!"unexpected {token.shown} in {place}, skipped"
  | destinationNotString part token =>
    s!"{part.name} destination {token.shown} is not a string, skipped"
  | destinationNotCid token => s!"cidchar destination {token.shown} is not a CID, skipped"
  | cidRangeMalformed => "malformed cidrange entry, skipped"
  | firstCidOutOfRange cid => s!"cidrange start CID {cid} out of range, skipped"
  | cidsExhausted code =>
    let digits := String.ofList (Hex.padded 1 code.toNat)
    s!"cidrange at <{digits}> runs past the last CID"
  | codeMapRead name spaces texts cids =>
    let title := shownOption Quoted.encode name
    s!"CMap {title}: {spaces} code spaces, {texts} unicode, {cids} cid mappings"
  | resourceNotFound path => s!"CMap resource {path} not found"
  | resourceMissing registry ordering name =>
    s!"no CMap resource for {registry}-{ordering} ({name})"
  | shownFontBuilt encoding spaceCode spaceWidth =>
    let code := shownOption toString spaceCode
    s!"document font: {encoding.shown} encoding, space code {code}, space width {spaceWidth}"
  | glyphOutsideFont glyph count =>
    s!"glyph {glyph} is outside the font ({count} glyphs), ignored"
  | fontEmbedded name used size => s!"embedding '{name}': {used} glyphs used, {size} font bytes"
  | fontWritten name object => s!"wrote font '{name}' as object {object}"

end Event

end FontSubset
