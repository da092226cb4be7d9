import FontSubset.Face.Width
import FontSubset.Sfnt.Directory
import FontSubset.Substitution.Rule
import FontSubset.Text.Scalar

/-!
# Composites

A composite is a text of several characters that a font draws with one glyph. It is found by
tracing the components of a rule back to characters: a glyph stands for the character that the
font maps to it, else for what the first rule that produces it replaces.
-/

namespace FontSubset

structure Substitutions where
  /-- The scripts that the table serves, in its order. -/
  scripts : List Tag
  /-- The glyph of each composite. -/
  composites : Std.TreeMap String GlyphInfo

namespace Substitutions

def supports (s : Substitutions) (script : Tag) : Bool :=
  script ∈ s.scripts

/-- The most expansions on the way from a glyph to a character. -/
def maxDepth : Nat := 16

/-- For each glyph the components of the first rule that produces it. -/
def producers (rules : List SubstitutionRule) : Std.TreeMap GlyphId (List GlyphId) :=
  rules.foldl (fun found rule => found.insertIfNew rule.glyph rule.components) ∅

/-- The characters that a glyph stands for, through at most `depth` expansions. -/
def trace? (sources : Std.TreeMap GlyphId UInt32) (produced : Std.TreeMap GlyphId (List GlyphId))
    (depth : Nat) (glyph : GlyphId) : Option (List Char) :=
  match sources[glyph]? with
  | some code => (Text.scalar? code).map fun c => [c]
  | none =>
    match depth with
    | 0 => none
    | depth + 1 =>
      match produced[glyph]? with
      | none => none
      | some components => (components.mapM (trace? sources produced depth)).map List.flatten

/-- The text that a rule replaces. -/
def ruleText? (sources : Std.TreeMap GlyphId UInt32)
    (produced : Std.TreeMap GlyphId (List GlyphId)) (rule : SubstitutionRule) :
    Option (List Char) :=
  (rule.components.mapM (trace? sources produced maxDepth)).map List.flatten

/-- Adds the composite of a rule, unless there is one of the same text. A text of one character is
no composite: replacing it is a matter of style. -/
def addRule (sources : Std.TreeMap GlyphId UInt32)
    (produced : Std.TreeMap GlyphId (List GlyphId)) (widths : GlyphWidths)
    (found : Std.TreeMap String GlyphInfo) (rule : SubstitutionRule) :
    Logged (Std.TreeMap String GlyphInfo) :=
  match ruleText? sources produced rule with
  | none => do
    Logged.report (.glyphWithoutSource rule.glyph)
    return found
  | some text =>
    if text.length < 2 then return found
    else
      let characters := String.ofList text
      return found.insertIfNew characters ⟨rule.glyph, widths.width rule.glyph, characters⟩

/-- The composites of some rules; of several rules for one text the first one counts. -/
def compositesOf (rules : List SubstitutionRule) (sources : Std.TreeMap GlyphId UInt32)
    (widths : GlyphWidths) : Traced (Std.TreeMap String GlyphInfo) :=
  let produced := producers rules
  Traced.foldl (fun found rule => Traced.ofLogged (addRule sources produced widths found rule)) ∅
    rules

/-- The substitutions of a font, if it has a table of them. `sources` gives the characters that
glyphs stand for without any substitution. -/
def read (data : Bytes) (directory : Directory) (sources : Std.TreeMap GlyphId UInt32)
    (widths : GlyphWidths) : Traced (Option Substitutions) := do
  match directory.table? .substitutions with
  | none => return none
  | some table =>
    let base := table.start
    let scriptList ← data.u16At (base + 4)
    let lookupList ← data.u16At (base + 8)
    let scripts ← Substitution.readScripts data (base + scriptList.toNat)
    let rules ← Substitution.readRules data (base + lookupList.toNat)
    let composites ← compositesOf rules sources widths
    Traced.report (.substitutionsRead scripts.length rules.length composites.size)
    return some ⟨scripts, composites⟩

end Substitutions

end FontSubset
