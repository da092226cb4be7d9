import FontSubset.Proofs.Shaping.Segmentation
import FontSubset.Proofs.Shaping.Typesetter
import FontSubset.Provided.Face.Parser
import FontSubset.Provided.Script
import FontSubset.Sample.Font

/-!
# Conservation of text

* `glyphs_conserve`: the glyphs of a text carry its characters, apart from those that the font does
  not map. Composites, the halves of vowel signs and the visual order only rearrange them.
-/

namespace FontSubset

/-! ## Vowel signs of two halves -/

namespace Bengali

/-- The characters that a glyph counts for: both halves of a sign if the font has them, else its
own. -/
def counted (lookup : Char → Option GlyphInfo) (characters : String) : List Char :=
  match halves? characters with
  | some (first, second) =>
    if (lookup first).isSome ∧ (lookup second).isSome then [first, second] else characters.toList
  | none => characters.toList

theorem halves?_eq_some {characters : String} {first second : Char}
    (sign : halves? characters = some (first, second)) :
    characters.length = 1 ∧ halves? (.singleton first) = none ∧
      halves? (.singleton second) = none := by
  unfold halves? at sign
  split at sign
  · rename_i same
    cases sign
    subst same
    decide
  · split at sign
    · rename_i same
      cases sign
      subst same
      decide
    · cases sign

variable {lookup : Char → Option GlyphInfo}

theorem counted_eq_toList {characters : String} (whole : halves? characters = none) :
    counted lookup characters = characters.toList := by
  rw [counted, whole]

theorem counted_of_several {characters : String} (several : 2 ≤ characters.length) :
    counted lookup characters = characters.toList := by
  refine counted_eq_toList (Option.eq_none_iff_forall_ne_some.2 ?_)
  rintro ⟨first, second⟩ sign
  have single := (halves?_eq_some sign).1
  omega

variable (spelled : ∀ c g, lookup c = some g → g.characters = .singleton c)
include spelled

/-- A sign is split into glyphs that count for what it counted for and are not split again. -/
theorem counted_split (g : GlyphInfo) :
    (split lookup g).value.flatMap (fun g => g.characters.toList) =
        counted lookup g.characters ∧
      ∀ g' ∈ (split lookup g).value, counted lookup g'.characters = g'.characters.toList := by
  rw [split]
  cases sign : halves? g.characters with
  | none => simp [counted, sign]
  | some pair =>
    obtain ⟨first, second⟩ := pair
    obtain ⟨-, first', second'⟩ := halves?_eq_some sign
    cases left : lookup first with
    | none => simp [counted, sign, left]
    | some a =>
      cases right : lookup second with
      | none => simp [counted, sign, left, right]
      | some b =>
        have a' := spelled first a left
        have b' := spelled second b right
        simp [counted, sign, left, right, a', b', first', second']

theorem counted_reorder (glyphs : List GlyphInfo) :
    ((reorder lookup glyphs).value.flatMap fun g => g.characters.toList).Perm
        (glyphs.flatMap fun g => counted lookup g.characters) ∧
      ∀ g ∈ (reorder lookup glyphs).value, counted lookup g.characters = g.characters.toList := by
  have moved := shiftLeft_perm (glyphs.flatMap fun g => (split lookup g).value)
  rw [value_reorder]
  constructor
  · have parts : (glyphs.flatMap fun g => (split lookup g).value).flatMap
        (fun g => g.characters.toList) = glyphs.flatMap fun g => counted lookup g.characters := by
      rw [List.flatMap_assoc]
      exact List.flatMap_congr fun g _ => (counted_split spelled g).1
    rw [← parts]
    exact moved.flatMap_right _
  · intro g' mem
    obtain ⟨g, -, part⟩ := List.mem_flatMap.1 (moved.mem_iff.1 mem)
    exact (counted_split spelled g).2 g' part

end Bengali

/-! ## Glyphs of a text -/

namespace Typesetter
variable (t : Typesetter)

def counted (characters : String) : List Char :=
  Bengali.counted t.glyph? characters

def tokens [ScriptTable] (text : List Char) : List Piece :=
  (t.languageOf? text).elim [.plain text] fun _ => t.lexicon.segment text

/-- The characters of a piece that are drawn. -/
def kept : Piece → List Char
  | .composite word => word
  | .plain text => (text.filter t.mapped).flatMap fun c => t.counted (.singleton c)

/-- The font has no use for composites, or the text has no character of its language. -/
def Plain [ScriptTable] (text : List Char) : Prop :=
  t.substitutes = false ∨ ∀ language ∈ t.language, language.appearsIn text = false

/-- `glyphs` carry the characters of `text`. A sign of two halves counts as its halves, on either
side. -/
structure Conserves [ScriptTable] (text : List Char) (glyphs : List GlyphInfo) : Prop where
  tokens : (t.tokens text).flatMap Piece.text = text
  composites : ∀ word, .composite word ∈ t.tokens text →
    ∃ g, t.composite? word = some g ∧ g.characters.toList = word
  characters : (glyphs.flatMap fun g => t.counted g.characters).Perm
    ((t.tokens text).flatMap t.kept)
  ordered : t.Plain text →
    glyphs.map (·.characters) = (text.filter t.mapped).map String.singleton
  halved : ¬ t.Plain text → ∀ g ∈ glyphs, t.counted g.characters = g.characters.toList

variable {t} {text : List Char}

theorem languageOf?_eq_none [ScriptTable] : t.languageOf? text = none ↔ t.Plain text := by
  simp only [languageOf?, Option.filter_eq_none_iff, Plain]
  by_cases usable : t.substitutes <;> simp [usable]

theorem characters_eq_of_glyph? {c : Char} {g : GlyphInfo} (found : t.glyph? c = some g) :
    g.characters = .singleton c := by
  obtain ⟨_, -, rfl⟩ := Option.map_eq_some_iff.1 found
  rfl

theorem counted_plainGlyphs (text : List Char) :
    ((t.plainGlyphs text).value.flatMap fun g => t.counted g.characters) =
      t.kept (.plain text) := by
  rw [value_plainGlyphs, kept]
  calc (text.filterMap t.glyph?).flatMap (fun g => t.counted g.characters)
    _ = ((text.filterMap t.glyph?).map (·.characters)).flatMap t.counted := by
        rw [List.flatMap_map]
    _ = (text.filter t.mapped).flatMap fun c => t.counted (.singleton c) := by
        rw [map_characters_filterMap, List.flatMap_map]

/-! ### Fonts with composites -/

theorem value_glyphs_of_language [ScriptTable] {text : String} {language : Language}
    (composed : t.languageOf? text.toList = some language) : (t.glyphs text).value =
      (Bengali.reorder t.glyph? ((t.lexicon.segment text.toList).flatMap fun piece =>
        (t.pieceGlyphs piece).value)).value := by
  cases language
  simp [glyphs, composed, Logged.value_mapM, List.flatMap]

theorem counted_reorder_of_language [ScriptTable] {text : String} {language : Language}
    (composed : t.languageOf? text.toList = some language) :
    ((t.glyphs text).value.flatMap fun g => g.characters.toList).Perm
        (((t.lexicon.segment text.toList).flatMap fun piece => (t.pieceGlyphs piece).value).flatMap
          fun g => t.counted g.characters) ∧
      ∀ g ∈ (t.glyphs text).value, t.counted g.characters = g.characters.toList := by
  rw [value_glyphs_of_language composed]
  exact Bengali.counted_reorder (fun _ _ => characters_eq_of_glyph?) _

/-- Each word of the lexicon has several characters and is drawn with a glyph of its own. -/
def Lexical (t : Typesetter) : Prop :=
  ∀ word ∈ t.lexicon.words,
    (∃ g, t.composite? word = some g ∧ g.characters = .ofList word) ∧ 2 ≤ word.length

theorem lexicon_ofFont (font : Font) : (ofFont font).value.lexicon =
    .ofList (font.substitutions.elim [] fun s => s.composites.keys.map String.toList) := by
  rw [ofFont]
  cases font.substitutions with
  | none => rfl
  | some s =>
    dsimp only
    split <;> rfl

theorem lexical_ofFont {font : Font}
    (spelled : ∀ s ∈ font.substitutions, Substitutions.WellSpelled s.composites) :
    Lexical (ofFont font).value := by
  intro word mem
  rw [lexicon_ofFont, Lexicon.mem_words_ofList] at mem
  cases here : font.substitutions with
  | none => simp [here] at mem
  | some s =>
    rw [here] at mem
    obtain ⟨key, listed, rfl⟩ := List.mem_map.1 mem.1
    have found := Std.TreeMap.getElem?_eq_some_getElem (Std.TreeMap.mem_keys.1 listed)
    obtain ⟨same, several⟩ := spelled s here key _ found
    refine ⟨⟨_, ?_, same.trans String.ofList_toList.symm⟩, several⟩
    rw [composite?, font_ofFont, here, String.ofList_toList]
    exact found

section
variable (lexical : t.Lexical)
include lexical

theorem composite?_of_mem_segment {word : List Char}
    (mem : .composite word ∈ t.lexicon.segment text) :
    (∃ g, t.composite? word = some g ∧ g.characters = .ofList word) ∧ 2 ≤ word.length :=
  lexical word (Lexicon.mem_words_of_mem_segmentFrom mem)

theorem flatMap_tokens [ScriptTable] (text : List Char) : (t.tokens text).flatMap Piece.text = text := by
  have proper : [] ∉ t.lexicon.words := fun mem => by
    have several := (lexical [] mem).2
    simp at several
  rw [tokens]
  cases t.languageOf? text with
  | none => simp [Piece.text]
  | some language => exact Lexicon.flatMap_segmentFrom proper [] text

theorem composite?_of_mem_tokens [ScriptTable] {word : List Char} (mem : .composite word ∈ t.tokens text) :
    ∃ g, t.composite? word = some g ∧ g.characters = .ofList word := by
  rw [tokens] at mem
  cases language : t.languageOf? text with
  | none => simp [language] at mem
  | some _ =>
    rw [language] at mem
    exact (composite?_of_mem_segment lexical mem).1

theorem counted_pieceGlyphs {piece : Piece} (mem : piece ∈ t.lexicon.segment text) :
    ((t.pieceGlyphs piece).value.flatMap fun g => t.counted g.characters) = t.kept piece := by
  cases piece with
  | plain text => exact counted_plainGlyphs text
  | composite word =>
    obtain ⟨⟨g, found, same⟩, several⟩ := composite?_of_mem_segment lexical mem
    rw [← String.length_ofList] at several
    rw [pieceGlyphs, found]
    simp [same, counted, Bengali.counted_of_several several, kept]

theorem counted_segment (text : List Char) :
    (((t.lexicon.segment text).flatMap fun piece => (t.pieceGlyphs piece).value).flatMap
        fun g => t.counted g.characters) = (t.lexicon.segment text).flatMap t.kept := by
  rw [List.flatMap_assoc]
  exact List.flatMap_congr fun _ => counted_pieceGlyphs lexical

theorem conserves [ScriptTable] (text : String) : t.Conserves text.toList (t.glyphs text).value where
  tokens := flatMap_tokens lexical _
  composites word mem := by
    obtain ⟨g, found, same⟩ := composite?_of_mem_tokens lexical mem
    exact ⟨g, found, by rw [same, String.toList_ofList]⟩
  characters := by
    cases language : t.languageOf? text.toList with
    | none =>
      rw [value_glyphs_of_plain t language, ← value_plainGlyphs, counted_plainGlyphs, tokens,
        language]
      simp
    | some _ =>
      obtain ⟨moved, halved⟩ := counted_reorder_of_language language
      rw [tokens, language, Option.elim_some, ← counted_segment lexical]
      exact (List.flatMap_congr halved ▸ moved)
  ordered plain := by
    rw [value_glyphs_of_plain t (languageOf?_eq_none.2 plain), map_characters_filterMap]
  halved := by
    intro composed
    obtain ⟨_, language⟩ := Option.ne_none_iff_exists'.1 (mt languageOf?_eq_none.1 composed)
    exact (counted_reorder_of_language language).2

end

theorem glyphs_conserve [FaceParser] [ScriptTable] {data : Bytes} {member : Option UInt32} {font : Font}
    (loaded : (Font.load data member).result = .ok font) (text : String) :
    (ofFont font).value.Conserves text.toList ((ofFont font).value.glyphs text).value :=
  conserves (lexical_ofFont (Font.wellSpelled_of_load loaded)) text

/-- A ligature and a sign that is drawn around it; the last character has no glyph. -/
def signText : String := "\u0995\u09cd\u09b7\u09cb!"

def signGlyphs : List GlyphInfo :=
  [⟨4, 300, "\u09c7"⟩, ⟨7, 800, "\u0995\u09cd\u09b7"⟩, ⟨5, 250, "\u09be"⟩]

set_option maxRecDepth 20000 in
theorem bengaliFont_glyphs : (Font.load Sample.bengaliFont none).result.map
    (fun font => ((ofFont font).value.glyphs signText).value) = .ok signGlyphs := by
  decide +kernel

theorem glyphs_conserve_sign : ∃ font, (Font.load Sample.bengaliFont none).result = .ok font ∧
    (ofFont font).value.Conserves signText.toList signGlyphs := by
  obtain ⟨font, loaded, shown⟩ := map_eq_ok.1 bengaliFont_glyphs
  refine ⟨font, loaded, ?_⟩
  rw [← shown]
  exact glyphs_conserve loaded signText

end Typesetter

end FontSubset
