import FontSubset.Job
import FontSubset.Proofs.Embedding.ToUnicode
import FontSubset.Proofs.Shaping.Typesetter
import FontSubset.Proofs.Shown.Dictionary
import FontSubset.Provided.Face.Parser
import FontSubset.Provided.Script
import FontSubset.Sample.Font

/-!
# Recovering the text of a document

* `decode_content`: what a job writes is decoded to the characters of the glyphs that it has
  written, as long as each glyph stands for the same characters wherever it is written.
-/

namespace FontSubset

/-! ## Fonts as they are shown -/

namespace ShownFont

theorem pairCodes_toBytes (units : List UInt16) :
    pairCodes (Utf16.toBytes units) = units.map UInt16.toUInt32 := by
  induction units with
  | nil => rfl
  | cons unit rest ih =>
    rw [List.map_cons, ← ih, ← ToUnicode.codeOf_toBytes]
    rfl

section
variable {resources : Resources} {d : FontDictionary} {f : ShownFont}

/-- Only a map to text and a character collection can fail to be read. -/
theorem ofDictionary_ok
    (readable : ∀ data ∈ d.toUnicode, ∃ map, (CodeMap.read data).result = .ok map)
    (known : d.toUnicode.isSome ∨ d.collection = none) :
    ∃ f, (ofDictionary resources d).result = .ok f := by
  have texts := @loadCidTexts_eq_none resources d (known.imp_right .inr)
  cases toUnicode : d.toUnicode with
  | none => simp [ofDictionary, toUnicode, texts, Except.map]
  | some data =>
    obtain ⟨map, read⟩ := readable data toUnicode
    simp [ofDictionary, toUnicode, texts, read, Except.map]

theorem ofDictionary_ok_of_ofGlyphs {glyphs : List UsedGlyph}
    (mapped : d.toUnicode = (ToUnicode.ofGlyphs glyphs).map Bytes.ofText)
    (known : (ToUnicode.ofGlyphs glyphs).isSome ∨ d.collection = none) :
    ∃ f, (ofDictionary resources d).result = .ok f := by
  refine ofDictionary_ok (fun data mem => ?_) (by rwa [mapped, Option.isSome_map])
  rw [mapped] at mem
  obtain ⟨s, written, rfl⟩ := Option.map_eq_some_iff.1 mem
  obtain ⟨map, run, -⟩ := ToUnicode.read_of_ofGlyphs written
  exact ⟨map, run⟩

end

theorem decode_toBytes {f : ShownFont} (encoding : f.encoding = .identity) {map : CodeMap}
    (mapped : f.toUnicode = some map) {α : Type} {items : List α} {code : α → GlyphId}
    {text : α → String} (known : ∀ a ∈ items, map.text? (code a).toUInt32 = some (text a)) :
    f.decode (Utf16.toBytes (items.map code)) = String.join (items.map text) := by
  have texts : (items.map (UInt16.toUInt32 ∘ code)).filterMap f.text? = items.map text := by
    induction items with
    | nil => rfl
    | cons a rest ih =>
      obtain ⟨first, others⟩ := List.forall_mem_cons.1 known
      have here : f.text? (code a).toUInt32 = some (text a) := by
        rw [text?, mapped, Option.bind_some, first, Option.some_or]
      rw [List.map_cons, List.filterMap_cons, Function.comp, here, ih others]
      rfl
  rw [decode, codes, encoding, pairCodes_toBytes, List.map_map, texts]

end ShownFont

/-! ## Jobs -/

/-- The glyphs that show a text. -/
def Font.glyphs [ScriptTable] (font : Font) (text : String) : List GlyphInfo :=
  ((Typesetter.ofFont font).value.glyphs text).value

theorem FontUse.used_mark (u : FontUse) (glyphs : List GlyphId) :
    ∃ marked, (u.mark glyphs).value.used = u.used.noteAll marked :=
  ⟨_, rfl⟩

theorem FontUse.result_embed (u : FontUse) : u.embed.result = u.program.result.map fun program =>
    { fontName := program.2 ++ u.font.name
      fontData := program.1
      isSubset := u.asSubset
      widths := widthArray (WidthRun.ofGlyphs u.used.values)
      toUnicode := ToUnicode.ofGlyphs u.used.values
      descriptor := .ofFont u.font } := by
  rw [embed, Traced.result_bind]
  cases u.program.result <;> rfl

theorem FontUse.toUnicode_of_embed {u : FontUse} {e : Embedding} (run : u.embed.result = .ok e) :
    e.toUnicode = ToUnicode.ofGlyphs u.used.values := by
  rw [result_embed] at run
  obtain ⟨_, -, rfl⟩ := map_eq_ok.1 run
  rfl

namespace Job
variable {job : Job} {font : Font} {out : JobOutput}

/-- What a job records begins with the glyphs of its text. -/
theorem runWith_eq_ok [ScriptTable] (run : (job.runWith font).result = .ok out) : ∃ marked,
    out.content = Bytes.concat ((font.glyphs job.text).map fun g => be16 g.code) ∧
      out.embedding.toUnicode = ToUnicode.ofGlyphs (UsedGlyphs.ofList
        ((font.glyphs job.text).map FontUse.usedGlyph ++ marked)).values := by
  simp only [runWith, Traced.result_bind, bind_eq_ok, Traced.result_ofLogged, Traced.result_pure,
    Except.ok.injEq] at run
  obtain ⟨use, rfl, ⟨content, use'⟩, written, use'', rfl, embedding, embedded, rfl⟩ := run
  obtain ⟨rfl, rfl⟩ := Prod.mk.inj written
  obtain ⟨marked, used⟩ := FontUse.used_mark _ job.glyphs
  refine ⟨marked, rfl, (FontUse.toUnicode_of_embed embedded).trans ?_⟩
  rw [used]
  exact congrArg (fun used : UsedGlyphs => ToUnicode.ofGlyphs used.values)
    (UsedGlyphs.noteAll_noteAll _ _)

def Unambiguous (glyphs : List GlyphInfo) : Prop :=
  ∀ a ∈ glyphs, ∀ b ∈ glyphs, a.code = b.code → a.characters = b.characters

instance (glyphs : List GlyphInfo) : Decidable (Unambiguous glyphs) :=
  inferInstanceAs (Decidable (∀ a ∈ glyphs, ∀ b ∈ glyphs, _))

theorem toList_concat_codes (glyphs : List GlyphInfo) :
    (Bytes.concat (glyphs.map fun g => be16 g.code)).toList =
      Utf16.toBytes (glyphs.map (·.code)) := by
  rw [Bytes.toList_concat, List.flatMap_map, Utf16.toBytes, List.flatMap_map]
  rfl

section
variable {glyphs : List GlyphInfo} (unambiguous : Unambiguous glyphs)
  (texts : ∀ g ∈ glyphs, g.characters ≠ "") (marked : List UsedGlyph)
include unambiguous texts

/-- Each glyph that is written is recorded with its characters, whatever is marked afterwards. -/
theorem firstWithText?_recorded {g : GlyphInfo} (mem : g ∈ glyphs) :
    ∃ u, ToUnicode.firstWithText?
      (UsedGlyphs.ofList (glyphs.map FontUse.usedGlyph ++ marked)).values g.code = some u ∧
        u.text = g.characters := by
  have isSome : ((glyphs.map FontUse.usedGlyph).find? (·.glyph = g.code)).isSome :=
    List.find?_isSome.2 ⟨_, List.mem_map_of_mem mem, decide_eq_true rfl⟩
  obtain ⟨u, first⟩ := Option.isSome_iff_exists.1 isSome
  have code := List.find?_some first
  rw [decide_eq_true_eq] at code
  obtain ⟨a, mem', rfl⟩ := List.mem_map.1 (List.mem_of_find?_eq_some first)
  have recorded : (glyphs.map FontUse.usedGlyph ++ marked).find? (·.glyph = g.code) =
      some (FontUse.usedGlyph a) := by rw [List.find?_append, first, Option.some_or]
  rw [← code] at recorded ⊢
  exact ⟨_, ToUnicode.firstWithText?_values recorded (texts a mem'), unambiguous a mem' g mem code⟩

theorem decode_recorded {resources : Resources} {d : FontDictionary} {f : ShownFont}
    (encoding : d.encoding = .identity)
    (mapped : d.toUnicode = (ToUnicode.ofGlyphs (UsedGlyphs.ofList
      (glyphs.map FontUse.usedGlyph ++ marked)).values).map Bytes.ofText)
    (shown : (ShownFont.ofDictionary resources d).result = .ok f) :
    f.decode (Utf16.toBytes (glyphs.map (·.code))) = String.join (glyphs.map (·.characters)) := by
  have described := ShownFont.described shown
  have recorded := @firstWithText?_recorded _ unambiguous texts marked
  cases written : ToUnicode.ofGlyphs
      (UsedGlyphs.ofList (glyphs.map FontUse.usedGlyph ++ marked)).values with
  | none =>
    have empty : glyphs = [] := by
      refine List.eq_nil_iff_forall_not_mem.2 fun g mem => ?_
      obtain ⟨u, found, -⟩ := recorded mem
      obtain ⟨mem', -, nonempty⟩ := ToUnicode.firstWithText?_eq_some found
      exact nonempty (ToUnicode.ofGlyphs_eq_none.1 written u mem')
    rw [empty, ShownFont.decode, ShownFont.codes, described.encoding, encoding]
    rfl
  | some s =>
    obtain ⟨map, run, textOf, -⟩ := ToUnicode.read_of_ofGlyphs written
    rw [written] at mapped
    obtain ⟨map', run', known⟩ := described.toUnicode_eq_some mapped
    obtain rfl := Except.ok.inj (run.symm.trans run')
    refine ShownFont.decode_toBytes (described.encoding.trans encoding) known fun g mem => ?_
    obtain ⟨u, found, text⟩ := recorded mem
    rw [textOf, found, Option.map_some, text]

end

theorem decode_content [FaceParser] [ScriptTable] {data : Bytes} {member : Option UInt32}
    (loaded : (Font.load data member).result = .ok font)
    (run : (job.runWith font).result = .ok out)
    (unambiguous : Unambiguous (font.glyphs job.text)) (resources : Resources) (d : FontDictionary)
    (encoding : d.encoding = .identity)
    (mapped : d.toUnicode = out.embedding.toUnicode.map Bytes.ofText) :
    (∀ f, (ShownFont.ofDictionary resources d).result = .ok f →
      f.decode out.content.toList = String.join ((font.glyphs job.text).map (·.characters)) ∧
      ((Typesetter.ofFont font).value.languageOf? job.text.toList = none →
        f.decode out.content.toList = String.ofList
          (job.text.toList.filter fun c => (font.metric? c.val).isSome))) ∧
    (out.embedding.toUnicode.isSome ∨ d.collection = none →
      ∃ f, (ShownFont.ofDictionary resources d).result = .ok f) := by
  obtain ⟨marked, content, toUnicode⟩ := runWith_eq_ok run
  have spelled := Font.wellSpelled_of_load loaded
  rw [← Typesetter.font_ofFont font] at spelled
  have texts (g : GlyphInfo) (mem : g ∈ font.glyphs job.text) : g.characters ≠ "" :=
    Typesetter.characters_ne_empty _ spelled mem
  rw [toUnicode] at mapped ⊢
  rw [content, toList_concat_codes]
  refine ⟨fun f shown => ?_, ShownFont.ofDictionary_ok_of_ofGlyphs mapped⟩
  have decoded := decode_recorded unambiguous texts marked encoding mapped shown
  refine ⟨decoded, fun plain => decoded.trans ?_⟩
  have characters := Typesetter.join_characters_of_plain _ plain
  rwa [Typesetter.font_ofFont] at characters

/-- The font maps the letters of the text, but not the mark at its end. -/
def lettersJob : Job where
  font := ""
  text := "ABBA!"
  glyphs := [0]
  asSubset := false
  options := .minimal

def lettersGlyphs : List GlyphInfo :=
  [⟨1, 600, "A"⟩, ⟨2, 700, "B"⟩, ⟨2, 700, "B"⟩, ⟨1, 600, "A"⟩]

set_option maxRecDepth 20000 in
theorem lettersJob_run : ((Font.load Sample.mappedFont none).result >>= fun font =>
    (lettersJob.runWith font).result.map fun _ => font.glyphs lettersJob.text) =
      .ok lettersGlyphs := by
  decide +kernel

theorem decode_content_letters : ∃ font out f,
    (Font.load Sample.mappedFont none).result = .ok font ∧
      (lettersJob.runWith font).result = .ok out ∧
      (ShownFont.ofDictionary (fun _ => pure none)
        ⟨.identity, out.embedding.toUnicode.map Bytes.ofText, none, none, [], 0⟩).result = .ok f ∧
      f.decode out.content.toList = "ABBA" := by
  obtain ⟨font, loaded, written⟩ := bind_eq_ok.1 lettersJob_run
  obtain ⟨out, run, glyphs⟩ := map_eq_ok.1 written
  obtain ⟨decoded, shown⟩ := decode_content loaded run (glyphs ▸ by decide) (fun _ => pure none)
    ⟨.identity, out.embedding.toUnicode.map Bytes.ofText, none, none, [], 0⟩ rfl rfl
  obtain ⟨f, shown⟩ := shown (.inr rfl)
  refine ⟨font, out, f, loaded, run, shown, ?_⟩
  rw [(decoded f shown).1, glyphs]
  decide

end Job

end FontSubset
