import FontSubset.Font
import FontSubset.Shaping.Language
import FontSubset.Shaping.Reorder
import FontSubset.Shaping.Segmentation

/-!
# Typesetting

A typesetter turns text into the glyphs of a font. Characters that the font does not map are
dropped. In a font for one of the languages, composites of a text in that language are drawn with
one glyph, and the glyphs are put into visual order.
-/

namespace FontSubset

structure Typesetter where
  font : Font
  /-- The language that the font has substitutions for. -/
  language : Option Language
  /-- The texts of the composites. -/
  lexicon : Lexicon

namespace Typesetter

def ofFont (font : Font) : Logged Typesetter := do
  let language := font.substitutions.bind fun s => Language.detect? s.scripts
  let words := match font.substitutions with
    | some s => s.composites.keys.map String.toList
    | none => []
  match language with
  | some language => Logged.report (.languageSupported font.name language)
  | none => pure ()
  return ⟨font, language, .ofList words⟩

/-- Whether some text can be drawn with composites. -/
def substitutes (t : Typesetter) : Bool :=
  t.language.isSome ∧ ¬ t.lexicon.isEmpty

/-- The language of a text, if the text is to be drawn with composites. -/
def languageOf? [ScriptTable] (t : Typesetter) (text : List Char) : Option Language :=
  t.language.filter fun language => t.substitutes ∧ language.appearsIn text

/-- The glyph that the font maps a character to. -/
def glyph? (t : Typesetter) (c : Char) : Option GlyphInfo :=
  (t.font.metric? c.val).map fun metric => ⟨metric.glyph, metric.width, c.toString⟩

/-- The glyphs of a character, of which there is one or none. -/
def charGlyphs (t : Typesetter) (c : Char) : Logged (List GlyphInfo) :=
  match t.glyph? c with
  | some g => return [g]
  | none => do
    Logged.report (.characterDropped c)
    return []

/-- The glyphs of a text without composites. -/
def plainGlyphs (t : Typesetter) (text : List Char) : Logged (List GlyphInfo) :=
  List.flatten <$> text.mapM t.charGlyphs

/-- The glyph of a composite. -/
def composite? (t : Typesetter) (text : List Char) : Option GlyphInfo := do
  (← t.font.substitutions).composites[String.ofList text]?

def pieceGlyphs (t : Typesetter) : Piece → Logged (List GlyphInfo)
  | .composite text =>
    match t.composite? text with
    | some g => return [g]
    | none => t.plainGlyphs text
  | .plain text => t.plainGlyphs text

/-- The glyphs of a text. -/
def glyphs [ScriptTable] (t : Typesetter) (text : String) : Logged (List GlyphInfo) :=
  let characters := text.toList
  match t.languageOf? characters with
  | none => t.plainGlyphs characters
  | some .bengali => do
    let parts ← (t.lexicon.segment characters).mapM t.pieceGlyphs
    Bengali.reorder t.glyph? parts.flatten

/-- The advance of a text. -/
def width [ScriptTable] (t : Typesetter) (text : String) : Logged UInt32 :=
  (fun glyphs => (glyphs.map (·.width)).foldl (· + ·) 0) <$> t.glyphs text

end Typesetter

end FontSubset
