import FontSubset.Proofs.Embedding.Coverage

/-!
# Embedding without regard to the order of use

* `embed_order_irrelevant`: what is embedded depends on which glyphs have been used, but not on
  the order of the calls; a subset depends only on the closure of the used glyphs.
-/

namespace FontSubset

theorem toOption_eq_of_ok {ε α : Type} {x y : Except ε α} (there : ∀ a, x = .ok a → y = .ok a)
    (back : ∀ a, y = .ok a → x = .ok a) : x.toOption = y.toOption := by
  cases x with
  | ok a => rw [there a rfl]
  | error e =>
    cases y with
    | ok a => cases back a rfl
    | error e' => rfl

/-! ## Tables with the same glyphs -/

namespace UsedGlyphs

theorem keys_eq_of_mem_iff {used used' : UsedGlyphs} (same : ∀ g, g ∈ used ↔ g ∈ used') :
    used.keys = used'.keys := by
  have marks : Std.TreeMap.Equiv (used.map fun _ _ => ()) (used'.map fun _ _ => ()) :=
    Std.TreeMap.Equiv.of_forall_mem_unit_iff fun g => by simpa using same g
  simpa using marks.keys_eq

theorem map_values_ofList {f : UsedGlyph → UsedGlyph} (glyph : ∀ r, (f r).glyph = r.glyph)
    (glyphs : List UsedGlyph) :
    (ofList (glyphs.map f)).values = (ofList glyphs).values.map f := by
  have mapped : Std.TreeMap.Equiv (ofList (glyphs.map f)) ((ofList glyphs).map fun _ r => f r) := by
    refine Std.TreeMap.Equiv.of_forall_constGet?_eq fun g => ?_
    show (ofList (glyphs.map f))[g]? = ((ofList glyphs).map fun _ r => f r)[g]?
    rw [Std.TreeMap.getElem?_map, getElem?_ofList, getElem?_ofList, List.find?_map]
    simp only [Function.comp_def, glyph]
  rw [mapped.values_eq, values_eq, values_eq, Std.TreeMap.toList_map, List.map_map, List.map_map]
  rfl

end UsedGlyphs

theorem WidthRun.ofGlyphs_map {f : UsedGlyph → UsedGlyph}
    (same : ∀ r, (f r).glyph = r.glyph ∧ (f r).width = r.width) (glyphs : List UsedGlyph) :
    ofGlyphs (glyphs.map f) = ofGlyphs glyphs := by
  have filtered : (glyphs.map f).filter (·.width ≠ defaultWidth) =
      (glyphs.filter (·.width ≠ defaultWidth)).map f := by
    rw [List.filter_map]
    simp only [Function.comp_def, same]
  have prepended (r : UsedGlyph) (runs : List WidthRun) : prepend (f r) runs = prepend r runs := by
    simp only [prepend.eq_def, same]
  rw [ofGlyphs, filtered, UsedGlyphs.map_values_ofList fun r => (same r).1, List.foldr_map]
  simp only [prepended]
  rfl

/-! ## Closures with the same glyphs -/

section
variable {data : Bytes} {offset outlines : Nat} {locations : Locations} {options : SubsetOptions}

theorem Closure.eq_of_mem_iff {used used' retained retained' : GlyphSet}
    (run : (glyphClosure data outlines locations used).result = .ok retained)
    (run' : (glyphClosure data outlines locations used').result = .ok retained')
    (same : ∀ g, g ∈ retained ↔ g ∈ retained') : retained = retained' := by
  obtain ⟨seen, graph, walked, -, rfl⟩ := glyphClosure_eq_ok.1 run
  obtain ⟨seen', graph', walked', -, rfl⟩ := glyphClosure_eq_ok.1 run'
  have done := walk_explored walked (seeded_explored used)
  have done' := walk_explored walked' (seeded_explored used')
  simp only [mem_marked done.proper, mem_marked done'.proper] at same
  rw [eq_of_marks (done.size.trans done'.size.symm) done.proper done'.proper same]

/-- Either closure fails, or both have the same glyphs. -/
def SameClosure (data : Bytes) (outlines : Nat) (locations : Locations) (used used' : GlyphSet) :
    Prop :=
  Option.Rel (fun retained retained' : GlyphSet => ∀ g, g ∈ retained ↔ g ∈ retained')
    (glyphClosure data outlines locations used).result.toOption
    (glyphClosure data outlines locations used').result.toOption

theorem SameClosure.symm {used used' : GlyphSet}
    (same : SameClosure data outlines locations used used') :
    SameClosure data outlines locations used' used := by
  unfold SameClosure at same ⊢
  generalize (glyphClosure data outlines locations used).result.toOption = closed at same ⊢
  generalize (glyphClosure data outlines locations used').result.toOption = closed' at same ⊢
  cases same with
  | none => exact .none
  | some same => exact .some fun g => (same g).symm

theorem SameClosure.closure_eq_ok {used used' retained : GlyphSet}
    (same : SameClosure data outlines locations used used')
    (run : (glyphClosure data outlines locations used).result = .ok retained) :
    (glyphClosure data outlines locations used').result = .ok retained := by
  rw [SameClosure, run] at same
  obtain ⟨retained', found, same⟩ := rel_some_left.1 same
  cases run' : (glyphClosure data outlines locations used').result with
  | error e =>
    rw [run'] at found
    cases found
  | ok retained'' =>
    rw [run'] at found
    cases found
    rw [Closure.eq_of_mem_iff run run' same]

theorem Subset.ofFontAt_of_sameClosure {used used' : GlyphSet} {source : Directory} {s : Subset}
    (parsed : Directory.parse data offset = .ok source)
    (same : ∀ locations table, Locations.parse data source = .ok locations →
      source.table? .outlines = some table →
        SameClosure data table.start locations used used')
    (run : (ofFontAt data offset used options).result = .ok s) :
    (ofFontAt data offset used' options).result = .ok s := by
  obtain ⟨source', header, locations, table, rebuilt, parsed', flavor, listed, located, tabled,
    closed, rest⟩ := ofFontAt_eq_ok.1 run
  cases parsed.symm.trans parsed'
  have closed' := (same locations table located tabled).closure_eq_ok closed
  exact ofFontAt_eq_ok.2 ⟨source, header, locations, table, rebuilt, parsed, flavor, listed,
    located, tabled, closed', rest⟩

end

/-! ## Programs -/

/-- What is embedded, apart from the map to text. -/
def Embedding.shape (e : Embedding) : Bytes × String × Option String :=
  (e.fontData, e.fontName, e.widths)

namespace FontUse

section
variable {data : Bytes} {member : Option UInt32} {font : Font} {asSubset : Bool}
  {options : SubsetOptions} {u : FontUse}

def withoutText (r : UsedGlyph) : UsedGlyph := { r with text := "" }

theorem ofGlyphs_run [FaceParser] [ScriptTable] (loaded : (Font.load data member).result = .ok font)
    (begun : (ofFont font asSubset options).value = u) (calls : List UseCall) :
    WidthRun.ofGlyphs (u.run calls).used.values =
      WidthRun.ofGlyphs ((u.run calls).used.keys.map fun g => ⟨g, font.width g, ""⟩) := by
  -- Without their texts, the entries are determined by their keys.
  have textless : (u.run calls).used.values.map withoutText =
      (u.run calls).used.keys.map fun g => ⟨g, font.width g, ""⟩ := by
    rw [values_eq, ← Std.TreeMap.map_fst_toList_eq_keys, List.map_map, List.map_map]
    refine List.map_congr_left fun entry mem => ?_
    obtain ⟨same, width⟩ :=
      of_used loaded begun (Std.TreeMap.mem_toList_iff_getElem?_eq_some.1 mem)
    simp [withoutText, same, width]
  have measures (r : UsedGlyph) :
      (withoutText r).glyph = r.glyph ∧ (withoutText r).width = r.width := ⟨rfl, rfl⟩
  rw [← textless, WidthRun.ofGlyphs_map measures]

theorem toOption_embed (u : FontUse) :
    (u.embed.result.toOption.map fun e => (e.fontData, e.fontName)) =
      u.program.result.toOption.map fun program => (program.1, program.2 ++ u.font.name) := by
  rw [result_embed]
  cases u.program.result <;> rfl

theorem program_eq_of_glyphSet [ScriptTable] (begun : (ofFont font asSubset options).value = u)
    {calls calls' : List UseCall} (same : (u.run calls).glyphSet = (u.run calls').glyphSet) :
    (u.run calls).program = (u.run calls').program := by
  obtain ⟨sameFont, subset, sameOptions⟩ := font_run begun calls
  obtain ⟨sameFont', subset', sameOptions'⟩ := font_run begun calls'
  rw [program, program, sameFont, sameFont', subset, subset', sameOptions, sameOptions', same]

theorem program_of_sameClosure [FaceParser] [ScriptTable] (loaded : (Font.load data member).result = .ok font)
    (begun : (ofFont font true options).value = u) {calls calls' : List UseCall}
    (same : ∀ locations table, Locations.parse font.data font.directory = .ok locations →
      font.directory.table? .outlines = some table → SameClosure font.data table.start locations
        (u.run calls).glyphSet (u.run calls').glyphSet)
    (program : Bytes × String) (run : (u.run calls).program.result = .ok program) :
    (u.run calls').program.result = .ok program := by
  obtain ⟨sameFont, subset, sameOptions⟩ := font_run begun calls
  obtain ⟨sameFont', subset', sameOptions'⟩ := font_run begun calls'
  rw [FontUse.program, if_pos subset, Traced.result_bind, sameFont, sameOptions] at run
  rw [FontUse.program, if_pos subset', Traced.result_bind, sameFont', sameOptions']
  obtain ⟨s, made, rest⟩ := bind_eq_ok.1 run
  refine bind_eq_ok.2 ⟨s, ?_, rest⟩
  exact Subset.ofFontAt_of_sameClosure (Font.load_eq_ok.1 loaded).parsed same made

theorem embed_order_irrelevant [FaceParser] [ScriptTable] (loaded : (Font.load data member).result = .ok font)
    (begun : (ofFont font asSubset options).value = u) (calls calls' : List UseCall) :
    ((∀ g, g ∈ (u.run calls).used ↔ g ∈ (u.run calls').used) →
      (u.run calls).embed.result.map Embedding.shape =
        (u.run calls').embed.result.map Embedding.shape) ∧
    (asSubset = true →
      (∀ locations table, (Locations.read font.data font.directory).result = .ok locations →
        font.directory.table? .outlines = some table → SameClosure font.data table.start locations
          (u.run calls).glyphSet (u.run calls').glyphSet) →
      ((u.run calls).embed.result.toOption.map fun e => (e.fontData, e.fontName)) =
        (u.run calls').embed.result.toOption.map fun e => (e.fontData, e.fontName)) := by
  constructor
  · intro same
    have keys := UsedGlyphs.keys_eq_of_mem_iff same
    have glyphs : (u.run calls).glyphSet = (u.run calls').glyphSet := by
      rw [glyphSet, glyphSet, keys]
    rw [result_embed, result_embed, program_eq_of_glyphSet begun glyphs,
      ofGlyphs_run loaded begun calls, ofGlyphs_run loaded begun calls', keys,
      (font_run begun calls).1, (font_run begun calls').1]
    cases (u.run calls').program.result <;> rfl
  · rintro rfl same
    simp only [Locations.result_read] at same
    have there := program_of_sameClosure loaded begun same
    have back := program_of_sameClosure loaded begun fun locations table located tabled =>
      (same locations table located tabled).symm
    rw [toOption_embed, toOption_embed, toOption_eq_of_ok there back, (font_run begun calls).1,
      (font_run begun calls').1]

end

/-! ## A sample document -/

def laterCalls : List UseCall := [.write "BA", .mark [1]]

/-- One of the two glyphs, which has the other one as its component. -/
def compositeCalls : List UseCall := [.mark [3]]

set_option maxRecDepth 20000 in
theorem laterCalls_run : (Font.load Sample.letterFont none).result.map (fun font =>
    let u := (ofFont font true .minimal).value
    ((u.run laterCalls).used.keys, (u.run compositeCalls).used.keys)) = .ok ([1, 3], [3]) := by
  decide +kernel

set_option maxRecDepth 10000 in
theorem letterFont_closed_composite : (glyphClosure Sample.letterFont letterTable.start
    Sample.nestedLocations (.ofList [(3 : GlyphId)])).result = .ok Subset.nestedRetained := by
  cbv

theorem embed_order_irrelevant_letters : ∃ font u e e' e'',
    (Font.load Sample.letterFont none).result = .ok font ∧
      (ofFont font true .minimal).value = u ∧ (u.run letterCalls).embed.result = .ok e ∧
      (u.run laterCalls).embed.result = .ok e' ∧ e'.shape = e.shape ∧
      (u.run compositeCalls).embed.result = .ok e'' ∧ e''.fontData = e.fontData ∧
      e''.fontName = e.fontName := by
  obtain ⟨font, u, loaded, begun, same, located, tabled, -, listed, e, embedded⟩ :=
    letterCalls_embed
  obtain ⟨font', loaded', keys⟩ := map_eq_ok.1 laterCalls_run
  cases loaded.symm.trans loaded'
  simp only [begun, Prod.mk.injEq] at keys
  obtain ⟨later, composite⟩ := keys
  have first : (u.run letterCalls).used.keys = [1, 3] := by
    rw [← Std.TreeMap.map_fst_toList_eq_keys, listed]
    rfl
  have swapped := (embed_order_irrelevant loaded begun letterCalls laterCalls).1 fun g => by
    rw [← Std.TreeMap.mem_keys, ← Std.TreeMap.mem_keys, first, later]
  have closed := (embed_order_irrelevant loaded begun letterCalls compositeCalls).2 rfl
    fun locations table located' tabled' => by
      rw [Locations.result_read, located] at located'
      cases located'
      cases tabled.symm.trans tabled'
      rw [glyphSet, glyphSet, first, composite, same, SameClosure, letterFont_closed,
        letterFont_closed_composite]
      exact .some fun g => Iff.rfl
  rw [embedded] at swapped closed
  obtain ⟨e', embedded', shape⟩ := map_eq_ok.1 swapped.symm
  cases embedded'' : (u.run compositeCalls).embed.result with
  | error _ =>
    rw [embedded''] at closed
    cases closed
  | ok e'' =>
    rw [embedded''] at closed
    obtain ⟨fontData, fontName⟩ := Prod.mk.inj (Option.some.inj closed)
    exact ⟨font, u, e, e', e'', loaded, begun, embedded, embedded', shape, embedded'',
      fontData.symm, fontName.symm⟩

end FontUse

end FontSubset
