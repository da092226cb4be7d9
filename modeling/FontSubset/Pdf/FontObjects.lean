import FontSubset.Embedding.FontUse
import FontSubset.Pdf.Object

/-!
# Font objects

An embedded font takes up to five objects: the font itself refers to its descendant and to the code
map to text; the descendant refers to the descriptor, and the descriptor to the font file.
-/

namespace FontSubset.Pdf

/-- The numbers of the objects of a font. -/
structure FontObjects where
  font : Nat
  descendant : Nat
  descriptor : Nat
  fontFile : Nat
  toUnicode : Option Nat
  deriving DecidableEq

/-- Whether a character of a font name may stand in a PDF name as it is. -/
def isNameCharacter (c : Char) : Bool :=
  c.isAlphanum ∨ c ∈ ['-', '_', '+', '.', ',']

/-- A font name without the characters that would need escaping. -/
def fontName (text : String) : String :=
  let kept := text.toList.filter isNameCharacter
  if kept.isEmpty then "CustomFont" else String.ofList kept

def integer (n : Int32) : String :=
  toString n.toInt

def descriptorText (title : String) (d : Descriptor) (fontFile : Nat) : String :=
  dictionary [
    ("Type", name "FontDescriptor"),
    ("FontName", name title),
    ("Flags", toString d.flags),
    ("FontBBox", array ([d.bounds.left, d.bounds.bottom, d.bounds.right, d.bounds.top].map integer)),
    ("ItalicAngle", number d.italicAngle),
    ("Ascent", integer d.ascent),
    ("Descent", integer d.descent),
    ("CapHeight", integer d.capHeight),
    ("StemV", toString d.stemWidth),
    ("FontFile2", reference fontFile)]

/-- The collection of fonts whose glyph numbers are their CIDs. -/
def identityCollection : String :=
  dictionary [("Registry", "(Adobe)"), ("Ordering", "(Identity)"), ("Supplement", "0")]

def descendantText (title : String) (widths : Option String) (descriptor : Nat) : String :=
  dictionary ([
    ("Type", name "Font"),
    ("Subtype", name "CIDFontType2"),
    ("BaseFont", name title),
    ("CIDSystemInfo", identityCollection),
    ("FontDescriptor", reference descriptor),
    ("DW", toString defaultWidth)] ++
    widths.toList.map (("W", ·)) ++
    [("CIDToGIDMap", name "Identity")])

def fontText (title : String) (descendant : Nat) (toUnicode : Option Nat) : String :=
  dictionary ([
    ("Type", name "Font"),
    ("Subtype", name "Type0"),
    ("BaseFont", name title),
    ("Encoding", name "Identity-H"),
    ("DescendantFonts", array [reference descendant])] ++
    toUnicode.toList.map fun number => ("ToUnicode", reference number))

variable [Compressor]

/-- Adds the code map to text, if there is one. -/
def addToUnicode (objects : ObjectList) : Option String → Option Nat × ObjectList
  | some map =>
    let (number, objects) := objects.add (stream [] (Bytes.ofText map))
    (some number, objects)
  | none => (none, objects)

/-- Adds the objects of an embedded font. -/
def addFont (objects : ObjectList) (e : Embedding) : FontObjects × ObjectList :=
  let title := fontName e.fontName
  let (fontFile, objects) := objects.add (stream [("Length1", toString e.fontData.size)] e.fontData)
  let (descriptor, objects) :=
    objects.add (Bytes.ofText (descriptorText title e.descriptor fontFile))
  let (descendant, objects) :=
    objects.add (Bytes.ofText (descendantText title e.widths descriptor))
  let (toUnicode, objects) := addToUnicode objects e.toUnicode
  let (font, objects) := objects.add (Bytes.ofText (fontText title descendant toUnicode))
  (⟨font, descendant, descriptor, fontFile, toUnicode⟩, objects)

/-- Adds the objects of an embedded font and reports it. -/
def writeFont (objects : ObjectList) (e : Embedding) : Logged (FontObjects × ObjectList) := do
  let (numbers, objects) := addFont objects e
  Logged.report (.fontWritten (fontName e.fontName) numbers.font)
  return (numbers, objects)

end FontSubset.Pdf
