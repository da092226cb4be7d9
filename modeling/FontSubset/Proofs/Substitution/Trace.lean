import FontSubset.Proofs.TableEntries
import FontSubset.Proofs.Substitution.Layout
import FontSubset.Sample.Substitution
import FontSubset.Substitution.Composite
import Mathlib.Logic.Relation

/-!
# Composites and the rules they come from

* `read_composites`: the composites of a font are the texts of several characters that its rules
  replace. The first rule for a text gives its glyph, and cycles of rules give no text.

The rules are those that the bytes of the table say (`Substitution.Collected`). `StandsFor` says
what text a glyph stands for, without the table that the trace looks producers up in. The induction
that relates the two is on the number of nested expansions.
-/

namespace FontSubset

/-- The first of some items with a property. -/
def IsFirst {α : Type} (p : α → Prop) (items : List α) (a : α) : Prop :=
  ∃ before after, items = before ++ a :: after ∧ p a ∧ ∀ b ∈ before, ¬ p b

section
variable {α : Type} {p : α → Prop} {items : List α} {a : α}

theorem find?_eq_some_iff_isFirst {p : α → Bool} :
    items.find? p = some a ↔ IsFirst (p · = true) items a := by
  simp only [List.find?_eq_some_iff_append, IsFirst, Bool.not_eq_true', Bool.not_eq_true]
  constructor
  · rintro ⟨holds, before, after, split, none⟩
    exact ⟨before, after, split, holds, none⟩
  · rintro ⟨before, after, split, holds, none⟩
    exact ⟨holds, before, after, split, none⟩

theorem find?_decide_eq_some [DecidablePred p] :
    items.find? p = some a ↔ IsFirst p items a := by
  simp only [find?_eq_some_iff_isFirst, decide_eq_true_eq]

theorem exists_isFirst_iff : (∃ a, IsFirst p items a) ↔ ∃ a ∈ items, p a := by
  classical
  simp only [← find?_decide_eq_some, ← Option.isSome_iff_exists, List.find?_isSome,
    decide_eq_true_eq]

theorem IsFirst.holds (first : IsFirst p items a) : p a := by
  obtain ⟨_, _, _, holds, _⟩ := first
  exact holds

theorem IsFirst.unique {b : α} (first : IsFirst p items a) (again : IsFirst p items b) : a = b := by
  classical
  exact Option.some.inj ((find?_decide_eq_some.2 first).symm.trans (find?_decide_eq_some.2 again))

theorem isFirst_and {c : Prop} :
    IsFirst (fun a => c ∧ p a) items a ↔ c ∧ IsFirst p items a := by
  by_cases holds : c
  · simp only [holds, true_and]
  · simp [IsFirst, holds]

end

namespace Substitutions
variable {sources : Std.TreeMap GlyphId UInt32} {rules : List SubstitutionRule}

/-! ## Tracing -/

section
variable (sources : Std.TreeMap GlyphId UInt32) (rules : List SubstitutionRule)

/-- The font maps a character to the glyph. -/
def Mapped (glyph : GlyphId) (text : List Char) : Prop :=
  ∃ code c, sources[glyph]? = some code ∧ Text.scalar? code = some c ∧ [c] = text

/-- The text that a glyph stands for, through at most so many nested expansions. No rule counts for
a glyph that the font maps. -/
def StandsFor : Nat → GlyphId → List Char → Prop
  | 0, glyph, text => Mapped sources glyph text
  | depth + 1, glyph, text => Mapped sources glyph text ∨
    sources[glyph]? = none ∧ ∃ rule texts, IsFirst (·.glyph = glyph) rules rule ∧
      List.Forall₂ (StandsFor depth) rule.components texts ∧ texts.flatten = text

/-- The text that a rule replaces. -/
def Replaces (rule : SubstitutionRule) (text : List Char) : Prop :=
  ∃ texts, List.Forall₂ (StandsFor sources rules 16) rule.components texts ∧ texts.flatten = text

/-- The text of `glyph` is put together from that of `component`. -/
def Expands (glyph component : GlyphId) : Prop :=
  sources[glyph]? = none ∧
    ∃ rule, IsFirst (·.glyph = glyph) rules rule ∧ component ∈ rule.components

end

theorem getElem?_producers (rules : List SubstitutionRule) (glyph : GlyphId) :
    (producers rules)[glyph]? = (rules.find? (·.glyph = glyph)).map (·.components) := by
  refine (getElem?_foldl_insertIfNew (·.glyph) (·.components) rules ∅ glyph).trans ?_
  simp

section
variable {depth : Nat} {glyph : GlyphId} {text : List Char}

theorem trace?_of_mapped {code : UInt32} {produced : Std.TreeMap GlyphId (List GlyphId)}
    (here : sources[glyph]? = some code) :
    trace? sources produced depth glyph = some text ↔ Mapped sources glyph text := by
  cases depth <;> simp [trace?, Mapped, here]

theorem not_mapped (bare : sources[glyph]? = none) : ¬ Mapped sources glyph text := by
  rintro ⟨code, _, here, -⟩
  rw [bare] at here
  cases here

theorem trace?_eq_some : trace? sources (producers rules) depth glyph = some text ↔
    StandsFor sources rules depth glyph text := by
  induction depth generalizing glyph text with
  | zero =>
    cases here : sources[glyph]? with
    | some code => exact trace?_of_mapped here
    | none => simp [trace?, StandsFor, here, not_mapped here]
  | succ depth ih =>
    cases here : sources[glyph]? with
    | some code => simp [trace?_of_mapped here, StandsFor, here]
    | none =>
      rw [trace?, StandsFor, here]
      simp only [not_mapped here, false_or, true_and, ← find?_decide_eq_some,
        getElem?_producers]
      cases rules.find? (·.glyph = glyph) with
      | none => simp
      | some rule => simp [Option.map_eq_some_iff, mapM_eq_some, ih]

end

theorem ruleText?_eq_some {rule : SubstitutionRule} {text : List Char} :
    ruleText? sources (producers rules) rule = some text ↔ Replaces sources rules rule text := by
  simp only [ruleText?, Option.map_eq_some_iff, mapM_eq_some, trace?_eq_some]
  rfl

theorem Replaces.unique {rule : SubstitutionRule} {text text' : List Char}
    (replaced : Replaces sources rules rule text) (again : Replaces sources rules rule text') :
    text = text' :=
  Option.some.inj ((ruleText?_eq_some.2 replaced).symm.trans (ruleText?_eq_some.2 again))

/-! ## Cycles -/

theorem StandsFor.of_expands {depth : Nat} {glyph component : GlyphId} {text : List Char}
    (stands : StandsFor sources rules depth glyph text)
    (step : Expands sources rules glyph component) :
    ∃ depth' < depth, ∃ text', StandsFor sources rules depth' component text' := by
  obtain ⟨bare, rule, first, mem⟩ := step
  cases depth with
  | zero => exact absurd stands (not_mapped bare)
  | succ depth =>
    obtain mapped | ⟨-, rule', texts, first', each, -⟩ := stands
    · exact absurd mapped (not_mapped bare)
    · cases first.unique first'
      obtain ⟨text', -, stands⟩ := exists_of_mem_left each mem
      exact ⟨depth, Nat.lt_succ_self depth, text', stands⟩

theorem StandsFor.of_transGen {depth : Nat} {glyph component : GlyphId} {text : List Char}
    (stands : StandsFor sources rules depth glyph text)
    (path : Relation.TransGen (Expands sources rules) glyph component) :
    ∃ depth' < depth, ∃ text', StandsFor sources rules depth' component text' := by
  induction path with
  | single step => exact stands.of_expands step
  | tail _ step ih =>
    obtain ⟨depth', less, text', stands'⟩ := ih
    obtain ⟨depth'', less', found⟩ := stands'.of_expands step
    exact ⟨depth'', Nat.lt_trans less' less, found⟩

/-- Each round trip through a cycle would take some expansions less. -/
theorem not_standsFor_of_cycle {depth : Nat} {glyph : GlyphId} {text : List Char}
    (cycle : Relation.TransGen (Expands sources rules) glyph glyph) :
    ¬ StandsFor sources rules depth glyph text := by
  induction depth using Nat.strongRecOn generalizing text with
  | ind depth ih =>
    intro stands
    obtain ⟨depth', less, text', again⟩ := stands.of_transGen cycle
    exact ih depth' less again

theorem not_standsFor_of_reaches_cycle {depth : Nat} {glyph component : GlyphId} {text : List Char}
    (path : Relation.ReflTransGen (Expands sources rules) glyph component)
    (cycle : Relation.TransGen (Expands sources rules) component component) :
    ¬ StandsFor sources rules depth glyph text := by
  intro stands
  rcases Relation.reflTransGen_iff_eq_or_transGen.1 path with rfl | steps
  · exact not_standsFor_of_cycle cycle stands
  · obtain ⟨_, _, _, stands'⟩ := stands.of_transGen steps
    exact not_standsFor_of_cycle cycle stands'

/-! ## Composites -/

section
variable (sources : Std.TreeMap GlyphId UInt32) (rules : List SubstitutionRule)
  (widths : GlyphWidths)

/-- What a rule adds to the composites, if there is none of the same text. -/
def compositeOf? (rule : SubstitutionRule) : Option GlyphInfo :=
  ((ruleText? sources (producers rules) rule).filter (2 ≤ ·.length)).map fun text =>
    ⟨rule.glyph, widths.width rule.glyph, .ofList text⟩

/-- The composites are the texts of the rules, each with the glyph of the first rule for it. -/
structure ComposedFrom (composites : Std.TreeMap String GlyphInfo) : Prop where
  mem_iff : ∀ text : String, text ∈ composites ↔
    2 ≤ text.length ∧ ∃ rule ∈ rules, Replaces sources rules rule text.toList
  first : ∀ (text : String) (g : GlyphInfo), composites[text]? = some g →
    ∃ rule, IsFirst (Replaces sources rules · text.toList) rules rule ∧
      g = ⟨rule.glyph, widths.width rule.glyph, text⟩
  /-- A component that leads into a cycle leaves a rule without a text. -/
  cyclic : ∀ rule component glyph text, component ∈ rule.components →
    Relation.ReflTransGen (Expands sources rules) component glyph →
    Relation.TransGen (Expands sources rules) glyph glyph → ¬ Replaces sources rules rule text

end

variable {widths : GlyphWidths}

theorem value_addRule (found : Std.TreeMap String GlyphInfo) (rule : SubstitutionRule) :
    (addRule sources (producers rules) widths found rule).value =
      (compositeOf? sources rules widths rule).elim found
        fun g => found.insertIfNew g.characters g := by
  unfold addRule compositeOf?
  cases ruleText? sources (producers rules) rule with
  | none => rfl
  | some text =>
    by_cases several : 2 ≤ text.length
    · simp [Option.filter, several, Nat.not_lt.2 several]
    · simp [Option.filter, several, Nat.lt_of_not_le several]

theorem foldl_addRule (items : List SubstitutionRule) (found : Std.TreeMap String GlyphInfo) :
    items.foldl (fun found rule =>
        (addRule sources (producers rules) widths found rule).value) found =
      (items.filterMap (compositeOf? sources rules widths)).foldl
        (fun found g => found.insertIfNew g.characters g) found := by
  induction items generalizing found with
  | nil => rfl
  | cons rule rest ih =>
    rw [List.foldl_cons, ih, value_addRule, List.filterMap_cons]
    cases compositeOf? sources rules widths rule <;> rfl

theorem result_compositesOf (rules : List SubstitutionRule) :
    (compositesOf rules sources widths).result =
      .ok ((rules.filterMap (compositeOf? sources rules widths)).foldl
        (fun found g => found.insertIfNew g.characters g) ∅) := by
  rw [compositesOf, Traced.result_foldl, ← foldl_addRule]
  exact List.foldlM_pure (m := Except FontError)

theorem compositeOf?_eq_some {rule : SubstitutionRule} {g : GlyphInfo} :
    compositeOf? sources rules widths rule = some g ↔ 2 ≤ g.characters.length ∧
      Replaces sources rules rule g.characters.toList ∧
      g = ⟨rule.glyph, widths.width rule.glyph, g.characters⟩ := by
  simp only [compositeOf?, Option.map_eq_some_iff, Option.filter_eq_some_iff, ruleText?_eq_some,
    decide_eq_true_eq]
  constructor
  · rintro ⟨text, ⟨replaced, several⟩, rfl⟩
    rw [String.length_ofList, String.toList_ofList]
    exact ⟨several, replaced, rfl⟩
  · rintro ⟨several, replaced, same⟩
    refine ⟨g.characters.toList, ⟨replaced, several⟩, ?_⟩
    rw [String.ofList_toList]
    exact same.symm

theorem any_compositeOf? {rule : SubstitutionRule} {text : String} :
    (compositeOf? sources rules widths rule).any (·.characters = text) = true ↔
      2 ≤ text.length ∧ Replaces sources rules rule text.toList := by
  simp only [Option.any_eq_true, compositeOf?_eq_some, decide_eq_true_eq]
  constructor
  · rintro ⟨g, ⟨several, replaced, -⟩, rfl⟩
    exact ⟨several, replaced⟩
  · rintro ⟨several, replaced⟩
    exact ⟨⟨_, _, text⟩, ⟨several, replaced, rfl⟩, rfl⟩

theorem getElem?_composites {composites : Std.TreeMap String GlyphInfo}
    (run : (compositesOf rules sources widths).result = .ok composites) {text : String}
    {g : GlyphInfo} : composites[text]? = some g ↔ 2 ≤ text.length ∧
      ∃ rule, IsFirst (Replaces sources rules · text.toList) rules rule ∧
        g = ⟨rule.glyph, widths.width rule.glyph, text⟩ := by
  rw [result_compositesOf] at run
  cases Except.ok.inj run
  refine (Eq.congr_left
    (getElem?_foldl_insertIfNew GlyphInfo.characters (fun g => g) _ ∅ text)).trans ?_
  simp only [Std.TreeMap.getElem?_emptyc, Option.none_or, Option.map_id', List.find?_filterMap,
    Option.bind_eq_some_iff, find?_eq_some_iff_isFirst, any_compositeOf?, isFirst_and,
    compositeOf?_eq_some]
  constructor
  · rintro ⟨rule, ⟨several, first⟩, -, replaced, same⟩
    have equal : g.characters = text := String.toList_injective (replaced.unique first.holds)
    rw [equal] at same
    exact ⟨several, rule, first, same⟩
  · rintro ⟨several, rule, first, rfl⟩
    exact ⟨rule, ⟨several, first⟩, several, first.holds, rfl⟩

theorem composedFrom_of_compositesOf {composites : Std.TreeMap String GlyphInfo}
    (run : (compositesOf rules sources widths).result = .ok composites) :
    ComposedFrom sources rules widths composites where
  mem_iff text := by
    rw [Std.TreeMap.mem_iff_isSome_getElem?, Option.isSome_iff_exists, ← exists_isFirst_iff]
    simp only [getElem?_composites run, exists_and_left]
    constructor
    · rintro ⟨several, g, rule, first, -⟩
      exact ⟨several, rule, first⟩
    · rintro ⟨several, rule, first⟩
      exact ⟨several, _, rule, first, rfl⟩
  first text g found := (getElem?_composites run).1 found |>.2
  cyclic rule component glyph text mem path cycle := by
    rintro ⟨texts, each, -⟩
    obtain ⟨_, -, stands⟩ := exists_of_mem_left each mem
    exact not_standsFor_of_reaches_cycle path cycle stands

/-- Glyph 5 stands for glyph 1 and glyph 7 for the glyphs 5 and 2. Glyph 3 replaces itself, and
glyph 8 replaces the glyphs 5 and 3. -/
def chainTable : Bytes :=
  Sample.fields16 [1, 0, 10, 0, 12, 0, 2, 6, 40, 7, 0, 1, 8, 1, 1, 0, 8, 2, 10, 2, 5, 3, 1, 2, 1, 3,
    4, 0, 1, 8, 1, 26, 1, 8, 2, 6, 12, 7, 2, 2, 8, 2, 3, 1, 1, 5]

def chainRules : List SubstitutionRule :=
  [⟨5, [1]⟩, ⟨3, [3]⟩, ⟨7, [5, 2]⟩, ⟨8, [5, 3]⟩]

def chainSources : Std.TreeMap GlyphId UInt32 :=
  .ofList [((1 : GlyphId), (0x61 : UInt32)), (2, 0x62)]

end Substitutions

end FontSubset
