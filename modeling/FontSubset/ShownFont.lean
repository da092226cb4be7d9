import FontSubset.CodeMap.Collection
import FontSubset.Font
import FontSubset.Text.MacRoman

/-!
# Shown fonts

A font as a PDF file refers to it. The strings that a page shows are split into codes, and the text
and the width of each code are found from what the font dictionary says and from the font that is
embedded. A space of no width gets the average width instead.
-/

namespace FontSubset

/-- What a font dictionary says. -/
structure FontDictionary where
  encoding : CodeEncoding
  /-- The stream with the code map to text. -/
  toUnicode : Option Bytes
  collection : Option CharacterCollection
  /-- The embedded font. -/
  font : Option Font
  /-- Widths by code; the last width of a code counts. -/
  widths : List (UInt32 × UInt32)
  defaultWidth : UInt32

structure ShownFont where
  encoding : CodeEncoding
  toUnicode : Option CodeMap
  /-- The texts of the character collection that the font uses. -/
  cidTexts : Option CidTexts
  font : Option Font
  widths : Std.TreeMap UInt32 UInt32
  defaultWidth : UInt32
  /-- The characters that the embedded font maps to glyphs, by glyph. -/
  glyphCodes : Std.TreeMap GlyphId UInt32

namespace ShownFont

/-- The width of codes without a width, where the dictionary gives none. -/
def standardWidth : CodeEncoding → UInt32
  | .identity => 1000
  | .singleByte => 0

/-- Whether a map to text is known beside the embedded font. -/
def hasToUnicode (f : ShownFont) : Bool :=
  f.toUnicode.isSome || f.cidTexts.isSome

/-! ## Codes -/

/-- Codes of two bytes; an odd byte at the end is a code as well. -/
def pairCodes : List UInt8 → List UInt32
  | a :: b :: rest => codeOf [a, b] :: pairCodes rest
  | [a] => [codeOf [a]]
  | [] => []

/-- The codes of a string. -/
def codes (f : ShownFont) (bytes : List UInt8) : List UInt32 :=
  match f.encoding with
  | .identity => pairCodes bytes
  | .singleByte =>
    match f.toUnicode with
    | some map => map.codes bytes
    | none => bytes.map UInt8.toUInt32

/-! ## Text -/

/-- The glyph that a code of two bytes stands for. -/
def glyphOf? (code : UInt32) : Option GlyphId :=
  if code < 0x10000 then some code.toUInt16 else none

/-- The character of a glyph: the one that the embedded font maps to it, or else the one that has
its number. -/
def glyphText? (f : ShownFont) (code : UInt32) : Option Char := do
  let glyph ← glyphOf? code
  Text.scalar? ((f.glyphCodes[glyph]?).getD code)

/-- The character of a byte: Mac Roman where the embedded font uses it, else Latin-1. -/
def byteText? (f : ShownFont) (code : UInt32) : Option Char :=
  if code < 0x100 then
    if f.font.any (·.characterMaps.macRoman) then MacRoman.char? code.toUInt8
    else some (Char.ofNat code.toNat)
  else none

/-- The text of a code, if it has any. -/
def text? (f : ShownFont) (code : UInt32) : Option String :=
  (f.toUnicode.bind (·.text? code)).or <| (f.cidTexts.bind (·[code]?)).or <|
    match f.encoding with
    | .identity => (f.glyphText? code).map Char.toString
    | .singleByte => (f.byteText? code).map Char.toString

/-- The text of a string. Codes without text are left out. -/
def decode (f : ShownFont) (bytes : List UInt8) : String :=
  String.join ((f.codes bytes).filterMap f.text?)

/-! ## Widths -/

/-- The width of a code in the embedded font. -/
def fontWidth? (f : ShownFont) (code : UInt32) : Option UInt32 := do
  let font ← f.font
  match f.encoding with
  | .identity =>
    let glyph ← glyphOf? code
    if glyph < font.metrics.glyphCount then some (font.width glyph) else none
  | .singleByte => (font.metric? code).map (·.width)

/-- The width that is reported for a code: that of the dictionary, that of the embedded font, or
the default. -/
def reportedWidth (f : ShownFont) (code : UInt32) : UInt32 :=
  (f.widths[code]?).getD ((f.fontWidth? code).getD f.defaultWidth)

/-- The lowest code whose text is a space. -/
def mappedSpace? (m : CodeMap) : Option UInt32 :=
  (m.texts.toList.find? fun (_, text) => text = " ").map (·.1)

/-- The code that shows a space. -/
def spaceCode (f : ShownFont) : Option UInt32 :=
  match f.encoding with
  | .singleByte => some 0x20
  | .identity =>
    (f.toUnicode.bind mappedSpace?).or
      ((f.font.bind (·.metric? 0x20)).map fun metric => metric.glyph.toUInt32)

/-- The widths that an average is taken of: those of the dictionary or, if it gives none, those of
all glyphs of the embedded font. -/
def knownWidths (f : ShownFont) : List UInt32 :=
  if ¬ f.widths.isEmpty then f.widths.values
  else match f.font with
    | some font => (List.range font.glyphCount).map fun g => font.width (UInt16.ofNat g)
    | none => []

/-- A total of widths and their number, with one more width. -/
def tally (sum : UInt64 × UInt64) (width : UInt32) : UInt64 × UInt64 :=
  (sum.1 + width.toUInt64, sum.2 + 1)

/-- The integer part of the mean of all widths but zeros, or zero if there are none. -/
def averageOf (widths : List UInt32) : UInt32 :=
  let sum := (widths.filter (· ≠ 0)).foldl tally (0, 0)
  if sum.2 = 0 then 0 else (sum.1 / sum.2).toUInt32

def averageWidth (f : ShownFont) : UInt32 :=
  averageOf f.knownWidths

/-- The width of a space: the reported one or, if that is zero, the average. -/
def spaceWidth (f : ShownFont) : UInt32 :=
  let reported := (f.spaceCode.map f.reportedWidth).getD 0
  if reported ≠ 0 then reported else f.averageWidth

/-- The width of a code. -/
def width (f : ShownFont) (code : UInt32) : UInt32 :=
  if f.spaceCode = some code then
    if f.spaceWidth ≠ 0 then f.spaceWidth else f.defaultWidth
  else f.reportedWidth code

/-! ## Reading the dictionary -/

/-- The texts of the character collection, which count only where there is no map to text. -/
def loadCidTexts (resources : Resources) (d : FontDictionary) : Traced (Option CidTexts) :=
  match d.toUnicode, d.encoding, d.collection with
  | none, .identity, some collection => CidTexts.load resources collection
  | _, _, _ => return none

def ofDictionary (resources : Resources) (d : FontDictionary) : Traced ShownFont := do
  let toUnicode ← match d.toUnicode with
    | some data => some <$> CodeMap.read data
    | none => pure none
  let cidTexts ← loadCidTexts resources d
  let glyphCodes := match d.font, d.encoding with
    | some font, .identity => font.characterMaps.glyphToUnicode
    | _, _ => ∅
  let shown : ShownFont := {
    encoding := d.encoding
    toUnicode
    cidTexts
    font := d.font
    widths := d.widths.foldl (fun widths (code, width) => widths.insert code width) ∅
    defaultWidth := d.defaultWidth
    glyphCodes }
  Traced.report (.shownFontBuilt shown.encoding shown.spaceCode shown.spaceWidth)
  return shown

end ShownFont

end FontSubset
