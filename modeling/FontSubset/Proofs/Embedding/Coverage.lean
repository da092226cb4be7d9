import FontSubset.Proofs.Embedding.History
import FontSubset.Proofs.Embedding.WidthArray
import FontSubset.Proofs.Outline.Subset
import FontSubset.Proofs.Shaping.Width

/-!
# What is embedded of a font

* `embed_covers`: every glyph that a document has written is in the subset, and every glyph that it
  has used is listed with the width that the font has for it.
-/

namespace FontSubset

namespace FontUse

/-! ## Calls -/

section
variable {u : FontUse} {text : String} {g : GlyphId}

theorem shown_of_u16At [ScriptTable] {k : Nat} (here : (u.write text).value.1.u16At (2 * k) = .ok g) :
    ∃ i ∈ u.shown (.write text), i.code = g := by
  rw [bytes_write, Bytes.u16At_eq_ok] at here
  -- Glyph numbers take two bytes each, so the part at `2 * k` is the `k`th of them.
  have even : ∀ part ∈ (u.shown (.write text)).map fun i => be16 i.code, part.size = 2 := by
    simp
  have bound : k < (u.shown (.write text)).length := by
    have size := here.size_le
    rw [Bytes.size_concat even, List.length_map, Bytes.size_be16] at size
    omega
  have found : ((u.shown (.write text)).map fun i => be16 i.code)[k]? =
      some (be16 (u.shown (.write text))[k].code) := by
    rw [List.getElem?_map, List.getElem?_eq_getElem bound, Option.map_some]
  have part := Bytes.holds_concat found
  rw [Bytes.place_of_even even (by rw [List.length_map]; omega)] at part
  have same := congrArg (fun bytes => bigEndian bytes.toList) (here.unique part rfl)
  simp only [Bytes.bigEndian_be16, UInt16.toNat_inj] at same
  exact ⟨_, List.getElem_mem bound, same.symm⟩

theorem mem_glyphSet : g ∈ u.glyphSet ↔ g ∈ u.used := by
  rw [glyphSet, Std.TreeSet.mem_ofList, List.contains_iff_mem, Std.TreeMap.mem_keys]

theorem program_of_subset {s : Subset} (asSubset : u.asSubset = true)
    (made : (u.font.subset u.glyphSet u.options).result = .ok s) :
    u.program.result = .ok (s.fontData, SubsetName.tagOf s.retained.toList) := by
  rw [program, if_pos asSubset, Traced.result_bind, made]
  rfl

theorem subset_of_program {mark : String} {fontData : Bytes} (asSubset : u.asSubset = true)
    (run : u.program.result = .ok (fontData, mark)) :
    ∃ s, (u.font.subset u.glyphSet u.options).result = .ok s ∧ s.fontData = fontData := by
  rw [program, if_pos asSubset, Traced.result_bind] at run
  obtain ⟨s, made, same⟩ := bind_eq_ok.1 run
  cases same
  exact ⟨s, made, rfl⟩

end

/-! ## Documents -/

section
variable {data : Bytes} {member : Option UInt32} {font : Font} {asSubset : Bool}
  {options : SubsetOptions} {u : FontUse} {calls : List UseCall}

theorem font_run [ScriptTable] (begun : (ofFont font asSubset options).value = u) (calls : List UseCall) :
    (u.run calls).font = font ∧ (u.run calls).asSubset = asSubset ∧
      (u.run calls).options = options := by
  rw [run_eq, ← begun]
  exact ⟨Typesetter.font_ofFont font, rfl, rfl⟩

theorem mem_used_of_shown [ScriptTable] (begun : (ofFont font asSubset options).value = u) {call : UseCall}
    (mem : call ∈ calls) {i : GlyphInfo} (shown : i ∈ u.shown call) :
    i.code ∈ (u.run calls).used := by
  rw [Std.TreeMap.mem_iff_isSome_getElem?, used_run begun, UsedGlyphs.getElem?_ofList,
    List.find?_isSome]
  refine ⟨usedGlyph i, ?_, decide_eq_true rfl⟩
  exact List.mem_flatMap.2 ⟨call, mem, List.mem_append_left _ (List.mem_map_of_mem shown)⟩

section
variable [FaceParser] [ScriptTable] (loaded : (Font.load data member).result = .ok font)
  (begun : (ofFont font asSubset options).value = u)
include loaded begun

/-- Shown or marked, a glyph is noted with the width of the font. -/
theorem width_of_mem_entries {call : UseCall} {r : UsedGlyph} (mem : r ∈ u.entries call) :
    r.width = font.width r.glyph := by
  subst begun
  rcases List.mem_append.1 mem with mem | mem
  · obtain ⟨i, shown, rfl⟩ := List.mem_map.1 mem
    cases call with
    | mark glyphs => cases shown
    | write text => exact Typesetter.width_of_mem_glyphs loaded shown
  · obtain ⟨g, -, rfl⟩ := List.mem_map.1 mem
    exact congrArg (Font.width · g) (Typesetter.font_ofFont font)

theorem of_used {g : GlyphId} {r : UsedGlyph} (found : (u.run calls).used[g]? = some r) :
    r.glyph = g ∧ r.width = font.width g := by
  rw [used_run begun, UsedGlyphs.getElem?_ofList] at found
  have same : r.glyph = g := by simpa using List.find?_some found
  obtain ⟨call, -, mem⟩ := List.mem_flatMap.1 (List.mem_of_find?_eq_some found)
  exact ⟨same, same ▸ width_of_mem_entries loaded begun mem⟩

end

theorem embed_covers [FaceParser] [ScriptTable] (loaded : (Font.load data member).result = .ok font)
    (begun : (ofFont font true options).value = u) (calls : List UseCall) {e : Embedding}
    (run : (u.run calls).embed.result = .ok e) :
    (∃ locations s, (Locations.read font.data font.directory).result = .ok locations ∧
      (font.subset (u.run calls).glyphSet options).result = .ok s ∧ s.fontData = e.fontData ∧
      ∀ before text after, calls = before ++ .write text :: after → ∀ k g,
        ((u.run before).write text).value.1.u16At (2 * k) = .ok g →
          g.toNat < locations.count → g ∈ s.retained) ∧
    ∀ g r, (u.run calls).used[g]? = some r →
      r.glyph = g ∧ r.width = font.width g ∧
        WidthArray.widthOf? e.widths g = some r.width.toNat := by
  obtain ⟨sameFont, asSubset, sameOptions⟩ := font_run begun calls
  rw [result_embed] at run
  obtain ⟨⟨fontData, mark⟩, program, rfl⟩ := map_eq_ok.1 run
  constructor
  · obtain ⟨s, made, rfl⟩ := subset_of_program asSubset program
    rw [sameFont, sameOptions] at made
    obtain ⟨source, _, locations, _, _, parsed, -, -, located, -, closed, -⟩ :=
      Subset.ofFontAt_eq_ok.1 made
    cases (Font.load_eq_ok.1 loaded).parsed.symm.trans parsed
    refine ⟨locations, s, by rw [Locations.result_read, located], made, rfl, ?_⟩
    intro before text after eq k g written bound
    have typesetter : (u.run before).shown (.write text) = u.shown (.write text) := by
      rw [run_eq]
      rfl
    obtain ⟨i, shown, rfl⟩ := shown_of_u16At written
    rw [typesetter] at shown
    have mem : .write text ∈ calls := by simp [eq]
    have used := mem_glyphSet.2 (mem_used_of_shown begun mem shown)
    exact (glyphClosure_closed closed).1.seeds _ bound (.inr used)
  · intro g r found
    obtain ⟨same, width⟩ := of_used loaded begun found
    refine ⟨same, width, ?_⟩
    rw [used_run begun] at found ⊢
    rw [WidthArray.widthOf?_values, found, Option.map_some, Option.getD_some]

end

/-! ## A sample document -/

def letterTable : TableRecord := ⟨.outlines, 0, 152, 50⟩

theorem letterFont_rebuilt : (do
    let source ← Directory.parse Sample.letterFont 0
    let locations ← Locations.parse Sample.letterFont source
    let rebuilt ← rebuildOutlines Sample.letterFont letterTable locations Subset.nestedRetained
    let _ ← (Subset.write Sample.letterFont source rebuilt .minimal).result
    return (source.flavor, source.table? .header, source.table? .outlines, locations)) =
      .ok (.trueType, some ⟨.header, 0, 204, 54⟩, some letterTable, Sample.nestedLocations) := by
  decide +kernel

set_option maxRecDepth 10000 in
theorem letterFont_closed : (glyphClosure Sample.letterFont letterTable.start
    Sample.nestedLocations (.ofList [(1 : GlyphId), 3])).result = .ok Subset.nestedRetained := by
  cbv

theorem letterFont_subset : ∃ source file, Directory.parse Sample.letterFont 0 = .ok source ∧
    Locations.parse Sample.letterFont source = .ok Sample.nestedLocations ∧
    source.table? .outlines = some letterTable ∧
    (Subset.ofFontAt Sample.letterFont 0 (.ofList [(1 : GlyphId), 3]) .minimal).result =
      .ok ⟨file, Subset.nestedRetained, 4⟩ := by
  obtain ⟨source, parsed, rest⟩ := bind_eq_ok.1 letterFont_rebuilt
  obtain ⟨locations, located, rest⟩ := bind_eq_ok.1 rest
  obtain ⟨rebuilt, built, rest⟩ := bind_eq_ok.1 rest
  obtain ⟨file, written, rest⟩ := bind_eq_ok.1 rest
  have facts := Except.ok.inj rest
  simp only [Prod.mk.injEq] at facts
  obtain ⟨flavor, header, table, rfl⟩ := facts
  exact ⟨source, file, parsed, located, table, Subset.ofFontAt_eq_ok.2 ⟨source, _, _, _, rebuilt,
    parsed, by rw [flavor]; decide, header, located, table, letterFont_closed, built, written,
    rfl⟩⟩

/-- The second letter is a composite, which has been marked before. -/
def letterCalls : List UseCall := [.mark [3, 9], .write "AB"]

set_option maxRecDepth 20000 in
theorem letterCalls_run : (do
    let font ← (Font.load Sample.letterFont none).result
    let u := (ofFont font true .minimal).value
    let g ← ((u.run [.mark [3, 9]]).write "AB").value.1.u16At (2 * 1)
    return (font.directory.offset, g, (u.run letterCalls).used.toList)) =
      .ok (0, 3, [(1, ⟨1, 600, "A"⟩), (3, ⟨3, 1000, ""⟩)]) := by
  decide +kernel

theorem letterCalls_embed : ∃ font u, (Font.load Sample.letterFont none).result = .ok font ∧
    (ofFont font true .minimal).value = u ∧ font.data = Sample.letterFont ∧
    Locations.parse font.data font.directory = .ok Sample.nestedLocations ∧
    font.directory.table? .outlines = some letterTable ∧
    ((u.run [.mark [3, 9]]).write "AB").value.1.u16At (2 * 1) = .ok 3 ∧
    (u.run letterCalls).used.toList = [(1, ⟨1, 600, "A"⟩), (3, ⟨3, 1000, ""⟩)] ∧
    ∃ e, (u.run letterCalls).embed.result = .ok e := by
  obtain ⟨font, loaded, rest⟩ := bind_eq_ok.1 letterCalls_run
  obtain ⟨g, written, facts⟩ := bind_eq_ok.1 rest
  generalize begun : (ofFont font true .minimal).value = u at written facts
  simp only [pure_eq_ok, Prod.mk.injEq] at facts
  obtain ⟨offset, rfl, listed⟩ := facts
  have same := (Font.load_eq_ok.1 loaded).file
  have parsed := (Font.load_eq_ok.1 loaded).parsed
  obtain ⟨source, file, parsed', located, tabled, made⟩ := letterFont_subset
  rw [same, offset] at parsed
  cases parsed.symm.trans parsed'
  obtain ⟨sameFont, asSubset, sameOptions⟩ := font_run begun letterCalls
  have subset : ((u.run letterCalls).font.subset (u.run letterCalls).glyphSet
      (u.run letterCalls).options).result = .ok ⟨file, Subset.nestedRetained, 4⟩ := by
    rw [sameFont, sameOptions, Font.subset, offset, same, glyphSet,
      ← Std.TreeMap.map_fst_toList_eq_keys, listed]
    exact made
  refine ⟨font, u, loaded, begun, same, by rw [same, located], tabled, written, listed, ?_⟩
  rw [result_embed, program_of_subset asSubset subset]
  exact ⟨_, rfl⟩

theorem embed_covers_letters : ∃ font u e s,
    (Font.load Sample.letterFont none).result = .ok font ∧
      (ofFont font true .minimal).value = u ∧ (u.run letterCalls).embed.result = .ok e ∧
      (font.subset (u.run letterCalls).glyphSet .minimal).result = .ok s ∧ 3 ∈ s.retained ∧
      WidthArray.widthOf? e.widths 1 = some 600 ∧
      WidthArray.widthOf? e.widths 3 = some 1000 := by
  obtain ⟨font, u, loaded, begun, -, located, -, written, listed, e, embedded⟩ := letterCalls_embed
  obtain ⟨⟨locations, s, found, made, -, covers⟩, widths⟩ :=
    embed_covers loaded begun letterCalls embedded
  rw [Locations.result_read, located] at found
  cases found
  have entry {g : GlyphId} {r : UsedGlyph} (mem : (g, r) ∈ (u.run letterCalls).used.toList) :=
    (widths g r (Std.TreeMap.mem_toList_iff_getElem?_eq_some.1 mem)).2.2
  rw [listed] at entry
  refine ⟨font, u, e, s, loaded, begun, embedded, made, ?_, ?_, ?_⟩
  · exact covers [.mark [3, 9]] "AB" [] rfl 1 3 written (by decide)
  · exact entry List.mem_cons_self
  · exact entry (List.mem_cons_of_mem _ List.mem_cons_self)

end FontUse

end FontSubset
