import FontSubset.Proofs.Embedding.TextRecovery

/-!
# The history of a font

A document shows texts with a font and marks glyphs of it, in any order.

* `text_of_firstShown`: a glyph that is shown keeps the characters of its first occurrence, unless
  it had been marked before; then it has no text, whatever it is shown for.
-/

namespace FontSubset

/-- What a document does with a font. -/
inductive UseCall
  | write (text : String)
  | mark (glyphs : List GlyphId)

/-- The map to text, as it is read back, has the text for the glyph. -/
def Embedding.Maps (e : Embedding) (g : GlyphId) (text : String) : Prop :=
  ∃ s map, e.toUnicode = some s ∧ (CodeMap.read (Bytes.ofText s)).result = .ok map ∧
    map.text? g.toUInt32 = some text

namespace FontUse

def call [ScriptTable] (u : FontUse) : UseCall → FontUse
  | .write text => (u.write text).value.2
  | .mark glyphs => (u.mark glyphs).value

def run [ScriptTable] (u : FontUse) (calls : List UseCall) : FontUse := calls.foldl call u

/-- The glyphs whose numbers a call writes. -/
def shown [ScriptTable] (u : FontUse) : UseCall → List GlyphInfo
  | .write text => (u.typesetter.glyphs text).value
  | .mark _ => []

/-- The glyphs of the font that a call names by their numbers. -/
def marked (u : FontUse) : UseCall → List GlyphId
  | .write _ => []
  | .mark glyphs => glyphs.filter u.inFont

def markedGlyph (u : FontUse) (g : GlyphId) : UsedGlyph := ⟨g, u.font.width g, ""⟩

/-- The entries of a call, which count if there are none for the glyphs yet. -/
def entries [ScriptTable] (u : FontUse) (call : UseCall) : List UsedGlyph :=
  (u.shown call).map usedGlyph ++ (u.marked call).map u.markedGlyph

/-- The text is the first one, after the calls before it, that the glyph is shown for. -/
def FirstShown [ScriptTable] (u : FontUse) (before : List UseCall) (text : String) (info : GlyphInfo) : Prop :=
  (∀ call ∈ before, ∀ i ∈ u.shown call, i.code ≠ info.code) ∧
    (u.shown (.write text)).find? (·.code = info.code) = some info

section
variable [ScriptTable] {u : FontUse} {calls before after : List UseCall} {text : String} {g : GlyphId}
  {info : GlyphInfo}

theorem bytes_write (u : FontUse) (text : String) :
    (u.write text).value.1 = Bytes.concat ((u.shown (.write text)).map fun i => be16 i.code) := rfl

theorem call_eq (u : FontUse) (call : UseCall) :
    u.call call = { u with used := u.used.noteAll (u.entries call) } := by
  cases call with
  | write text => simp only [entries, marked, List.map_nil, List.append_nil]; rfl
  | mark glyphs => rfl

theorem run_eq (u : FontUse) (calls : List UseCall) :
    u.run calls = { u with used := u.used.noteAll (calls.flatMap u.entries) } := by
  induction calls generalizing u with
  | nil => rfl
  | cons call rest ih =>
    rw [run, List.foldl_cons, ← run, ih, call_eq, List.flatMap_cons]
    congr 1
    exact (List.foldl_append (f := UsedGlyphs.note)).symm

theorem used_run {font : Font} {asSubset : Bool} {options : SubsetOptions}
    (begun : (ofFont font asSubset options).value = u) (calls : List UseCall) :
    (u.run calls).used = UsedGlyphs.ofList (calls.flatMap u.entries) := by
  rw [run_eq, ← begun]
  rfl

theorem exists_firstShown (occurs : ∃ call ∈ calls, ∃ i ∈ u.shown call, i.code = g) :
    ∃ before text after info, calls = before ++ .write text :: after ∧
      u.FirstShown before text info ∧ info.code = g := by
  induction calls with
  | nil =>
    obtain ⟨_, mem, -⟩ := occurs
    cases mem
  | cons call rest ih =>
    by_cases here : ∃ i ∈ u.shown call, i.code = g
    · cases call with
      | mark glyphs =>
        obtain ⟨_, mem, -⟩ := here
        cases mem
      | write text =>
        have isSome : ((u.shown (.write text)).find? (·.code = g)).isSome := by
          simpa [List.find?_isSome] using here
        obtain ⟨info, found⟩ := Option.isSome_iff_exists.1 isSome
        have code := List.find?_some found
        rw [decide_eq_true_eq] at code
        subst code
        exact ⟨[], text, rest, info, rfl, ⟨nofun, found⟩, rfl⟩
    · have later : ∃ call ∈ rest, ∃ i ∈ u.shown call, i.code = g := by
        obtain ⟨call', mem, occurs⟩ := occurs
        rcases List.mem_cons.1 mem with rfl | mem
        · exact absurd occurs here
        · exact ⟨call', mem, occurs⟩
      obtain ⟨before, text, after, info, rfl, ⟨fresh, found⟩, rfl⟩ := ih later
      refine ⟨call :: before, text, after, info, rfl, ⟨?_, found⟩, rfl⟩
      intro call' mem i shown same
      rcases List.mem_cons.1 mem with rfl | mem
      · exact here ⟨i, shown, same⟩
      · exact fresh call' mem i shown same

/-! ## Entries before a glyph is shown -/

theorem eq_markedGlyph {r : UsedGlyph}
    (fresh : ∀ call ∈ before, ∀ i ∈ u.shown call, i.code ≠ g)
    (mem : r ∈ before.flatMap u.entries) (same : r.glyph = g) :
    r = u.markedGlyph g ∧ ∃ call ∈ before, g ∈ u.marked call := by
  obtain ⟨call, there, mem⟩ := List.mem_flatMap.1 mem
  rcases List.mem_append.1 mem with mem | mem
  · obtain ⟨i, shown, rfl⟩ := List.mem_map.1 mem
    exact absurd same (fresh call there i shown)
  · obtain ⟨g', marked, rfl⟩ := List.mem_map.1 mem
    obtain rfl : g' = g := same
    exact ⟨rfl, call, there, marked⟩

theorem find?_entries_of_marked (fresh : ∀ call ∈ before, ∀ i ∈ u.shown call, i.code ≠ g)
    (marked : ∃ call ∈ before, g ∈ u.marked call) :
    (before.flatMap u.entries).find? (·.glyph = g) = some (u.markedGlyph g) := by
  obtain ⟨call, there, marked⟩ := marked
  have mem : u.markedGlyph g ∈ before.flatMap u.entries :=
    List.mem_flatMap.2 ⟨call, there, List.mem_append_right _ (List.mem_map_of_mem marked)⟩
  have isSome : ((before.flatMap u.entries).find? (·.glyph = g)).isSome :=
    List.find?_isSome.2 ⟨_, mem, decide_eq_true rfl⟩
  obtain ⟨r, found⟩ := Option.isSome_iff_exists.1 isSome
  have same := List.find?_some found
  rw [decide_eq_true_eq] at same
  rw [found, (eq_markedGlyph fresh (List.mem_of_find?_eq_some found) same).1]

theorem find?_entries_of_not_marked (fresh : ∀ call ∈ before, ∀ i ∈ u.shown call, i.code ≠ g)
    (unmarked : ¬ ∃ call ∈ before, g ∈ u.marked call) :
    (before.flatMap u.entries).find? (·.glyph = g) = none := by
  refine List.find?_eq_none.2 fun r mem same => unmarked ?_
  exact (eq_markedGlyph fresh mem (of_decide_eq_true same)).2

theorem find?_entries_write (found : (u.shown (.write text)).find? (·.code = g) = some info) :
    (u.entries (.write text)).find? (·.glyph = g) = some (usedGlyph info) := by
  have first : ((u.shown (.write text)).map usedGlyph).find? (·.glyph = g) =
      some (usedGlyph info) := by
    rw [List.find?_map, Function.comp_def]
    exact congrArg (Option.map usedGlyph) found
  rw [entries, List.find?_append, first, Option.some_or]

/-- Only the calls before a text decide what is recorded for the glyphs first shown in it. -/
theorem find?_entries (first : u.FirstShown before text info) :
    ((before ++ .write text :: after).flatMap u.entries).find? (·.glyph = info.code) =
      ((before.flatMap u.entries).find? (·.glyph = info.code)).or (some (usedGlyph info)) := by
  rw [List.flatMap_append, List.flatMap_cons, List.find?_append, List.find?_append,
    find?_entries_write first.2, Option.some_or]

/-! ## Embedding -/

section
variable {recorded : List UsedGlyph} {e : Embedding}

omit [ScriptTable] in
theorem maps_of_recorded {r : UsedGlyph}
    (toUnicode : e.toUnicode = ToUnicode.ofGlyphs (UsedGlyphs.ofList recorded).values)
    (found : recorded.find? (·.glyph = r.glyph) = some r) (text : r.text ≠ "") :
    e.Maps r.glyph r.text := by
  have first := ToUnicode.firstWithText?_values found text
  cases written : e.toUnicode with
  | none =>
    rw [written] at toUnicode
    obtain ⟨mem, -⟩ := ToUnicode.firstWithText?_eq_some first
    exact absurd (ToUnicode.ofGlyphs_eq_none.1 toUnicode.symm r mem) text
  | some s =>
    rw [written] at toUnicode
    obtain ⟨map, read, textOf, -⟩ := ToUnicode.read_of_ofGlyphs toUnicode.symm
    exact ⟨s, map, written, read, by rw [textOf, first, Option.map_some]⟩

omit [ScriptTable] in
theorem not_maps_of_recorded {r : UsedGlyph} {text : String}
    (toUnicode : e.toUnicode = ToUnicode.ofGlyphs (UsedGlyphs.ofList recorded).values)
    (found : recorded.find? (·.glyph = r.glyph) = some r) (textless : r.text = "") :
    ¬ e.Maps r.glyph text := by
  rintro ⟨s, map, written, read, entry⟩
  rw [written] at toUnicode
  obtain ⟨map', read', textOf, -⟩ := ToUnicode.read_of_ofGlyphs toUnicode.symm
  obtain rfl := Except.ok.inj (read.symm.trans read')
  rw [textOf, Option.map_eq_some_iff] at entry
  obtain ⟨v, first, -⟩ := entry
  obtain ⟨mem, same, nonempty⟩ := ToUnicode.firstWithText?_eq_some first
  rw [UsedGlyphs.mem_values_ofList, same, found] at mem
  obtain rfl := Option.some.inj mem
  exact nonempty textless

end

/-- A glyph that is shown has the characters of its first occurrence, both in the table of used
glyphs and in the map to text. A glyph that was marked before has no text. -/
theorem text_of_firstShown [FaceParser] {data : Bytes} {member : Option UInt32} {font : Font}
    {asSubset : Bool} {options : SubsetOptions} (calls : List UseCall)
    (loaded : (Font.load data member).result = .ok font)
    (begun : (ofFont font asSubset options).value = u) :
    (∀ before text after, calls = before ++ .write text :: after →
      ((u.run before).write text).value.1 =
        Bytes.concat ((u.shown (.write text)).map fun i => be16 i.code)) ∧
    (∀ call ∈ calls, ∀ i ∈ u.shown call, ∃ before text after info,
      calls = before ++ .write text :: after ∧ u.FirstShown before text info ∧
        info.code = i.code) ∧
    ∀ before text after info, calls = before ++ .write text :: after →
      u.FirstShown before text info → info.characters ≠ "" ∧
        ((∀ call ∈ before, info.code ∉ u.marked call) →
          ((u.run calls).used[info.code]?.map (·.text)) = some info.characters ∧
            ∀ e, (u.run calls).embed.result = .ok e → e.Maps info.code info.characters) ∧
        ((∃ call ∈ before, info.code ∈ u.marked call) →
          ((u.run calls).used[info.code]?.map (·.text)) = some "" ∧
            ∀ e, (u.run calls).embed.result = .ok e → ∀ text, ¬ e.Maps info.code text) := by
  have used := used_run begun calls
  have toUnicode {e : Embedding} (run : (u.run calls).embed.result = .ok e) :
      e.toUnicode = ToUnicode.ofGlyphs (UsedGlyphs.ofList (calls.flatMap u.entries)).values := by
    rw [toUnicode_of_embed run, used]
  refine ⟨fun before text after eq => ?_, fun call mem i shown => ?_,
    fun before text after info eq first => ?_⟩
  · rw [run_eq]
    exact bytes_write _ text
  · exact exists_firstShown ⟨call, mem, i, shown, rfl⟩
  · have characters : info.characters ≠ "" := by
      have spelled := Font.wellSpelled_of_load loaded
      rw [← Typesetter.font_ofFont font] at spelled
      have mem := List.mem_of_find?_eq_some first.2
      rw [← begun] at mem
      exact Typesetter.characters_ne_empty _ spelled mem
    have found : (calls.flatMap u.entries).find? (·.glyph = info.code) = _ :=
      eq ▸ find?_entries first
    rw [used, UsedGlyphs.getElem?_ofList]
    refine ⟨characters, fun unmarked => ?_, fun marked => ?_⟩
    · rw [find?_entries_of_not_marked first.1 (by simpa using unmarked), Option.none_or] at found
      rw [found]
      exact ⟨rfl, fun e run =>
        maps_of_recorded (r := usedGlyph info) (toUnicode run) found characters⟩
    · rw [find?_entries_of_marked first.1 marked, Option.some_or] at found
      rw [found]
      exact ⟨rfl, fun e run text =>
        not_maps_of_recorded (r := u.markedGlyph info.code) (toUnicode run) found rfl⟩

end

/-- The second glyph is marked before the text that shows it, the first one after it. -/
def markedCalls : List UseCall := [.mark [2], .write "AB", .mark [1]]

set_option maxRecDepth 20000 in
theorem markedCalls_run : ((Font.load Sample.mappedFont none).result >>= fun font =>
    let u := (ofFont font false .minimal).value
    (u.run markedCalls).embed.result.map fun _ =>
      (u.shown (.write "AB"), u.marked (.mark [2]))) =
      .ok ([⟨1, 600, "A"⟩, ⟨2, 700, "B"⟩], [2]) := by
  decide +kernel

theorem text_of_firstShown_markedCalls : ∃ font u e,
    (Font.load Sample.mappedFont none).result = .ok font ∧
      (ofFont font false .minimal).value = u ∧ (u.run markedCalls).embed.result = .ok e ∧
      e.Maps 1 "A" ∧ ⟨2, 700, "B"⟩ ∈ u.shown (.write "AB") ∧ ∀ text, ¬ e.Maps 2 text := by
  obtain ⟨font, loaded, shown⟩ := bind_eq_ok.1 markedCalls_run
  obtain ⟨e, embedded, shown⟩ := map_eq_ok.1 shown
  generalize begun : (ofFont font false .minimal).value = u at embedded shown
  obtain ⟨shown, marked⟩ := Prod.mk.inj shown
  obtain ⟨-, -, texts⟩ := text_of_firstShown markedCalls loaded begun
  have unshown (g : GlyphId) : ∀ call ∈ [.mark [2]], ∀ i ∈ u.shown call, i.code ≠ g := by
    intro call mem i shown
    obtain rfl := List.mem_singleton.1 mem
    cases shown
  refine ⟨font, u, e, loaded, begun, embedded, ?_, ?_, ?_⟩
  · have first : u.FirstShown [.mark [2]] "AB" ⟨1, 600, "A"⟩ := ⟨unshown 1, by rw [shown]; decide⟩
    refine ((texts _ _ [.mark [1]] _ rfl first).2.1 ?_).2 e embedded
    intro call mem
    obtain rfl := List.mem_singleton.1 mem
    rw [marked]
    decide
  · rw [shown]
    decide
  · have first : u.FirstShown [.mark [2]] "AB" ⟨2, 700, "B"⟩ := ⟨unshown 2, by rw [shown]; decide⟩
    refine ((texts _ _ [.mark [1]] _ rfl first).2.2 ?_).2 e embedded
    exact ⟨_, List.mem_singleton_self _, by rw [marked]; decide⟩

end FontUse

end FontSubset
