import FontSubset.Embedding.WidthArray
import FontSubset.Proofs.CodeMap.Spelling
import FontSubset.Proofs.Embedding.UsedGlyph

/-!
# Reading back width arrays

A width array is read token by token, as a viewer does.

* `read_widthArray`: the runs that are written are the runs that are read.
* `widthOf?_ofGlyphs`: a glyph is found with its width; glyphs of the default width are left out.
-/

namespace FontSubset
open CodeMap

namespace WidthArray

/-! ## A reader -/

inductive Place
  | start
  | between
  | first (glyph : Nat)
  | run (next : Nat)
  | done
  deriving DecidableEq

/-- The widths that have been read, each with the number of its glyph, and what is open. -/
structure Progress where
  entries : List (Nat × Nat)
  place : Place

def Progress.step (p : Progress) (token : Token) : Option Progress :=
  match p.place, token with
  | .start, .arrayStart => some ⟨p.entries, .between⟩
  | .between, .integer (.ofNat glyph) => some ⟨p.entries, .first glyph⟩
  | .between, .arrayEnd => some ⟨p.entries, .done⟩
  | .first glyph, .arrayStart => some ⟨p.entries, .run glyph⟩
  | .run next, .integer (.ofNat width) => some ⟨p.entries ++ [(next, width)], .run (next + 1)⟩
  | .run _, .arrayEnd => some ⟨p.entries, .between⟩
  | _, _ => none

/-- The entries of an array of the form `[first [width ..] first [width ..] ..]`. -/
def read (text : String) : Option (List (Nat × Nat)) :=
  let (tokens, fault) := lex (Bytes.ofText text).toList
  if fault = none then do
    let p ← tokens.foldlM Progress.step ⟨[], .start⟩
    if p.place = .done then some p.entries else none
  else none

/-- The width that a viewer takes for a glyph, unless it cannot read the array. -/
def widthOf? (array : Option String) (g : GlyphId) : Option Nat :=
  (array.elim (some []) read).map fun entries =>
    ((entries.find? (·.1 = g.toNat)).map Prod.snd).getD defaultWidth.toNat

end WidthArray

namespace WidthRun
open WidthArray

/-! ## Runs as they are read -/

def numbered (next : Nat) : List UInt32 → List (Nat × Nat)
  | [] => []
  | width :: rest => (next, width.toNat) :: numbered (next + 1) rest

def entries (run : WidthRun) : List (Nat × Nat) :=
  numbered run.first.toNat run.widths

def widthTokens (widths : List UInt32) : List Token :=
  widths.map fun width => .integer width.toNat

def tokens (run : WidthRun) : List Token :=
  [.integer run.first.toNat, .arrayStart] ++ (widthTokens run.widths ++ [.arrayEnd])

theorem foldlM_widths (widths : List UInt32) (entries : List (Nat × Nat)) (next : Nat) :
    (widthTokens widths).foldlM Progress.step ⟨entries, .run next⟩ =
      some ⟨entries ++ numbered next widths, .run (next + widths.length)⟩ := by
  induction widths generalizing entries next with
  | nil => simp [widthTokens, numbered]
  | cons width rest ih =>
    have first : Progress.step ⟨entries, .run next⟩ (.integer width.toNat) =
        some ⟨entries ++ [(next, width.toNat)], .run (next + 1)⟩ := rfl
    rw [widthTokens, List.map_cons, List.foldlM_cons, first, ← widthTokens]
    refine (ih _ _).trans ?_
    simp [numbered, Nat.add_assoc, Nat.add_comm 1]

theorem foldlM_run (run : WidthRun) (entries : List (Nat × Nat)) :
    run.tokens.foldlM Progress.step ⟨entries, .between⟩ =
      some ⟨entries ++ run.entries, .between⟩ := by
  have opening : [Token.integer run.first.toNat, .arrayStart].foldlM Progress.step
      ⟨entries, .between⟩ = some ⟨entries, .run run.first.toNat⟩ := rfl
  rw [tokens, List.foldlM_append, opening, Option.bind_eq_bind, Option.bind_some,
    List.foldlM_append, foldlM_widths]
  rfl

theorem foldlM_runs (runs : List WidthRun) (entries : List (Nat × Nat)) :
    (runs.flatMap tokens).foldlM Progress.step ⟨entries, .between⟩ =
      some ⟨entries ++ runs.flatMap WidthRun.entries, .between⟩ := by
  induction runs generalizing entries with
  | nil => simp
  | cons run rest ih =>
    rw [List.flatMap_cons, List.foldlM_append, foldlM_run, Option.bind_eq_bind, Option.bind_some,
      ih, List.flatMap_cons, List.append_assoc]

/-! ## Runs as they are written -/

theorem spells_text (run : WidthRun) : SpellsText run.text run.tokens := by
  have width (w : UInt32) : SpellsWord (toString w) [.integer w.toNat] := by
    have bound := w.toNat_lt
    exact number_of_lt (show w.toNat < 0x8000000000000000 by omega) ▸ spellsWord_number w.toNat
  have first : SpellsWord (toString run.first) [.integer run.first.toNat] := by
    have bound := run.first.toNat_lt
    exact number_of_lt (show run.first.toNat < 0x8000000000000000 by omega) ▸
      spellsWord_number run.first.toNat
  have list : run.widths.flatMap (fun w => [Token.integer w.toNat]) = widthTokens run.widths :=
    List.map_eq_flatMap.symm
  have widths : SpellsText ("[" ++ " ".intercalate (run.widths.map toString) ++ "]")
      (.arrayStart :: (run.widths.flatMap (fun w => [Token.integer w.toNat]) ++ [.arrayEnd])) :=
    spells_array fun w _ => width w
  rw [list, String.append_assoc] at widths
  have opening : (Bytes.ofText ("[" ++ (" ".intercalate (run.widths.map toString) ++ "]"))).toList =
      '['.toUInt8 :: (Bytes.ofText (" ".intercalate (run.widths.map toString) ++ "]")).toList := by
    rw [Bytes.toList_ofText_append]
    rfl
  rw [text, tokens, String.append_assoc, String.append_assoc]
  exact first.append opening (by decide +kernel) widths

end WidthRun

namespace WidthArray
open WidthRun

theorem spells_runs (runs : List WidthRun) :
    SpellsText ("[" ++ String.join (runs.map WidthRun.text) ++ "]")
      (.arrayStart :: (runs.flatMap WidthRun.tokens ++ [.arrayEnd])) :=
  (spells_arrayStart.append (spells_join WidthRun.spells_text)).append spells_arrayEnd

theorem read_widthArray {runs : List WidthRun} {text : String}
    (written : widthArray runs = some text) :
    read text = some (runs.flatMap WidthRun.entries) := by
  rw [widthArray] at written
  split at written
  · cases written
  · cases written
    have opening : Progress.step ⟨[], .start⟩ .arrayStart = some ⟨[], .between⟩ := rfl
    have closing (entries : List (Nat × Nat)) : Progress.step ⟨entries, .between⟩ .arrayEnd =
        some ⟨entries, .done⟩ := rfl
    simp [read, (spells_runs runs).lex_eq, opening, closing, foldlM_runs]

example : read "[3[500 600]10[250]]" = some [(3, 500), (4, 600), (10, 250)] := by decide +kernel

end WidthArray

/-! ## Widths that are found -/

namespace WidthRun

theorem entries_prepend (g : UsedGlyph) (runs : List WidthRun) :
    (prepend g runs).flatMap entries = (g.glyph.toNat, g.width.toNat) :: runs.flatMap entries := by
  unfold prepend
  split
  · rename_i run rest
    split
    · rename_i next
      simp [entries, numbered, next]
    · simp [entries, numbered]
  · simp [entries, numbered]

def listed (glyphs : List UsedGlyph) : List UsedGlyph :=
  (UsedGlyphs.ofList (glyphs.filter (·.width ≠ defaultWidth))).values

theorem entries_ofGlyphs (glyphs : List UsedGlyph) : (ofGlyphs glyphs).flatMap entries =
    (listed glyphs).map fun g => (g.glyph.toNat, g.width.toNat) := by
  rw [ofGlyphs, ← listed]
  induction listed glyphs with
  | nil => rfl
  | cons g rest ih => rw [List.foldr_cons, entries_prepend, ih, List.map_cons]

end WidthRun

namespace WidthArray

theorem widthOf?_ofGlyphs (glyphs : List UsedGlyph) (g : GlyphId) :
    widthOf? (widthArray (WidthRun.ofGlyphs glyphs)) g =
      some ((((glyphs.filter (·.width ≠ defaultWidth)).find? (·.glyph = g)).map
        (·.width)).getD defaultWidth).toNat := by
  have listing : (widthArray (WidthRun.ofGlyphs glyphs)).elim (some []) read =
      some ((WidthRun.ofGlyphs glyphs).flatMap WidthRun.entries) := by
    cases written : widthArray (WidthRun.ofGlyphs glyphs) with
    | some text => exact read_widthArray written
    | none =>
      have empty : WidthRun.ofGlyphs glyphs = [] := by simpa [widthArray] using written
      rw [empty]
      rfl
  have number (u : UsedGlyph) : u.glyph.toNat = g.toNat ↔ u.glyph = g := UInt16.toNat_inj
  rw [widthOf?, listing, WidthRun.entries_ofGlyphs, WidthRun.listed, Option.map_some,
    List.find?_map]
  simp only [Function.comp_def, number, UsedGlyphs.find?_values_ofList]
  cases (glyphs.filter (·.width ≠ defaultWidth)).find? (·.glyph = g) <;> rfl

theorem widthOf?_values (recorded : List UsedGlyph) (g : GlyphId) :
    widthOf? (widthArray (WidthRun.ofGlyphs (UsedGlyphs.ofList recorded).values)) g =
      some (((UsedGlyphs.ofList recorded)[g]?.map (·.width)).getD defaultWidth).toNat := by
  rw [widthOf?_ofGlyphs, UsedGlyphs.find?_filter_values]
  cases (UsedGlyphs.ofList recorded)[g]? with
  | none => rfl
  | some r => by_cases default : r.width = defaultWidth <;> simp [Option.filter, default]

end WidthArray

end FontSubset
