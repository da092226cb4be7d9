import FontSubset.Face.Width
import FontSubset.Log

/-!
# Visual order

Some vowel signs are written after a consonant and drawn before it or around it. A sign of two
halves is split, and a sign that is drawn first changes places with the glyph before it.
-/

namespace FontSubset.Bengali

/-- The two halves of a vowel sign that is drawn around its consonant. -/
def halves? (characters : String) : Option (Char × Char) :=
  if characters = "\u09cb" then some ('\u09c7', '\u09be')
  else if characters = "\u09cc" then some ('\u09c7', '\u09d7')
  else none

/-- Whether a glyph is a vowel sign that is drawn before its consonant. -/
def isPreBase (g : GlyphInfo) : Bool :=
  g.characters = "\u09bf" ∨ g.characters = "\u09c7" ∨ g.characters = "\u09c8"

/-- The glyphs of both halves of a sign of two halves, if the font has them; else the glyph
itself. -/
def split (lookup : Char → Option GlyphInfo) (g : GlyphInfo) : Logged (List GlyphInfo) :=
  match halves? g.characters with
  | none => return [g]
  | some (first, second) =>
    match lookup first, lookup second with
    | some a, some b => return [a, b]
    | _, _ => do
      Logged.report (.halvesMissing g.characters)
      return [g]

/-- Moves each sign that is drawn first before the glyph that it follows. -/
def shiftLeft : List GlyphInfo → List GlyphInfo
  | a :: b :: rest => if isPreBase b then b :: a :: shiftLeft rest else a :: shiftLeft (b :: rest)
  | glyphs => glyphs

/-- The glyphs in the order in which they are drawn. -/
def reorder (lookup : Char → Option GlyphInfo) (glyphs : List GlyphInfo) :
    Logged (List GlyphInfo) := do
  let parts ← glyphs.mapM (split lookup)
  return shiftLeft parts.flatten

end FontSubset.Bengali
