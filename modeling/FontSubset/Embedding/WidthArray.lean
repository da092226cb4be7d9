import FontSubset.Embedding.UsedGlyph

/-!
# Width arrays

A font dictionary lists the widths of the glyphs that do not have the default width, in runs of
consecutive glyphs: `[3[500 600]10[250]]` gives the widths of the glyphs 3, 4 and 10.
-/

namespace FontSubset

/-- The width of the glyphs that a width array leaves out. -/
def defaultWidth : UInt32 := 1000

/-- The widths of consecutive glyphs from `first` on. -/
structure WidthRun where
  first : GlyphId
  widths : List UInt32
  deriving DecidableEq

namespace WidthRun

/-- Puts a glyph before some runs of glyphs with higher numbers. -/
def prepend (g : UsedGlyph) (runs : List WidthRun) : List WidthRun :=
  match runs with
  | run :: rest =>
    if run.first.toNat = g.glyph.toNat + 1 then ⟨g.glyph, g.width :: run.widths⟩ :: rest
    else ⟨g.glyph, [g.width]⟩ :: runs
  | [] => [⟨g.glyph, [g.width]⟩]

/-- The runs of the glyphs that do not have the default width. -/
def ofGlyphs (glyphs : List UsedGlyph) : List WidthRun :=
  (UsedGlyphs.ofList (glyphs.filter (·.width ≠ defaultWidth))).values.foldr prepend []

def text (run : WidthRun) : String :=
  toString run.first ++ "[" ++ " ".intercalate (run.widths.map toString) ++ "]"

end WidthRun

/-- The text of a width array, if there is anything to list. -/
def widthArray (runs : List WidthRun) : Option String :=
  if runs.isEmpty then none else some ("[" ++ String.join (runs.map WidthRun.text) ++ "]")

end FontSubset
