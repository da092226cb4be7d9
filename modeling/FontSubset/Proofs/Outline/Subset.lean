import FontSubset.Proofs.Outline.Closure
import FontSubset.Proofs.Outline.Rebuild
import FontSubset.Proofs.Sfnt.ReadBack
import FontSubset.Sample.Font

/-!
# Reading back a subset

* `ofFile_readsBack`: a subset is a font in which every retained glyph has its old outline, every
  other glyph is empty, and the other tables are those of the source (`Subset.ReadsBack`).
-/

namespace FontSubset

@[simp] theorem Locations.result_read (data : Bytes) (d : Directory) :
    (Locations.read data d).result = Locations.parse data d := by
  cases h : Locations.parse data d <;> simp [Locations.read, h, Except.map]

theorem Directory.require_eq_ok {d : Directory} {tag : Tag} {r : TableRecord} :
    d.require tag = .ok r ↔ d.table? tag = some r := by
  rw [require]
  cases d.table? tag <;> simp

namespace Subset

/-! ## Copied tables -/

/-- The listed tables that a font has. -/
def present (d : Directory) (tags : List Tag) : List (Tag × TableRecord) :=
  tags.filterMap fun tag => (d.table? tag).map (tag, ·)

def copy (data : Bytes) (entry : Tag × TableRecord) : Except FontError Table :=
  (entry.2.body data).map (⟨entry.1, entry.2.checksum, ·⟩)

theorem foldlM_copy {data : Bytes} {d : Directory}
    {step : List Table → Tag → Except FontError (List Table)}
    (each : ∀ copied tag, step copied tag =
      (d.table? tag).elim (.ok copied) fun r => (copy data (tag, r)).map (· :: copied))
    (tags : List Tag) (copied : List Table) : tags.foldlM step copied =
      ((present d tags).mapM (copy data)).map (·.reverse ++ copied) := by
  induction tags generalizing copied with
  | nil => rfl
  | cons tag rest ih =>
    rw [List.foldlM_cons, each, present, List.filterMap_cons]
    cases d.table? tag with
    | none => exact ih copied
    | some r =>
      simp only [Option.elim_some, Option.map_some, List.mapM_cons]
      cases copy data (tag, r) with
      | error e => rfl
      | ok t =>
        refine (ih (t :: copied)).trans ?_
        rw [present]
        cases (rest.filterMap fun tag => (d.table? tag).map (tag, ·)).mapM (copy data) <;>
          simp [Except.map, bind, Except.bind, pure, Except.pure]

theorem result_copyTables (data : Bytes) (d : Directory) (tags : List Tag) :
    (copyTables data d tags).result = (present d tags).mapM (copy data) := by
  rw [copyTables, Traced.result_bind, Traced.result_foldl, foldlM_copy fun copied tag => ?_]
  · cases (present d tags).mapM (copy data) <;> simp [bind, Except.bind, Except.map]
  · cases d.table? tag with
    | none => rfl
    | some r => cases body : r.body data <;> simp [copy, body, Except.map]

theorem find?_present (d : Directory) (tags : List Tag) (tag : Tag) :
    (present d tags).reverse.find? (·.1 = tag) =
      (if tag ∈ tags then d.table? tag else none).map (tag, ·) := by
  induction tags with
  | nil => rfl
  | cons first rest ih =>
    rw [present, List.filterMap_cons]
    cases found : d.table? first with
    | none =>
      rw [Option.map_none]
      refine ih.trans ?_
      by_cases same : tag = first
      · subst same
        simp [found]
      · simp [same]
    | some r =>
      rw [Option.map_some]
      dsimp only
      rw [List.reverse_cons, List.find?_append, ← present, ih]
      by_cases same : tag = first
      · subst same
        simp only [found, List.mem_cons, true_or, if_true]
        split <;> simp
      · simp [same, Ne.symm same]

section
variable {data : Bytes} {d : Directory} {tags : List Tag} {copied : List Table}
  (run : (copyTables data d tags).result = .ok copied)
include run

theorem forall₂_copied :
    List.Forall₂ (fun entry t => copy data entry = .ok t) (present d tags) copied :=
  mapM_eq_ok.1 (result_copyTables data d tags ▸ run)

theorem length_copied : copied.length ≤ tags.length := by
  rw [← (forall₂_copied run).length_eq]
  exact List.length_filterMap_le _ _

theorem find?_copied (tag : Tag) :
    Option.Rel (fun r t => copy data (tag, r) = .ok t)
      (if tag ∈ tags then d.table? tag else none) (copied.reverse.find? (·.tag = tag)) := by
  rw [← rel_map_left (R := fun entry t => copy data entry = .ok t), ← find?_present]
  refine find?_rel (fun entry t same => ?_) (List.forall₂_reverse_iff.2 (forall₂_copied run))
  obtain ⟨_, -, rfl⟩ := map_eq_ok.1 same
  rfl

end

/-! ## The tables of a subset -/

theorem length_tables_le (options : SubsetOptions) : options.tables.length ≤ 12 := by
  obtain ⟨_ | _, _ | _⟩ := options <;> decide

theorem header_mem_tables (options : SubsetOptions) : Tag.header ∈ options.tables := by
  obtain ⟨_ | _, _ | _⟩ := options <;> decide

theorem rebuilt_mem_tables {tag : Tag} (rebuilt : isRebuilt tag) (options : SubsetOptions) :
    tag ∈ options.tables := by
  rcases of_decide_eq_true rebuilt with rfl | rfl <;>
    obtain ⟨_ | _, _ | _⟩ := options <;> decide

theorem write_eq_ok {data fontData : Bytes} {source : Directory} {rebuilt : RebuiltOutlines}
    {options : SubsetOptions} : (write data source rebuilt options).result = .ok fontData ↔
      ∃ copied,
        (copyTables data source (options.tables.filter fun tag => ¬ isRebuilt tag)).result =
          .ok copied ∧
        fontData = assemble (.ofBody .outlines rebuilt.outlines ::
          .ofBody .locations rebuilt.locations.toBytes :: copied) := by
  simp only [write, Traced.result_bind, Traced.result_pure, bind_eq_ok, Except.ok.injEq,
    eq_comm (a := fontData)]

theorem few_of_copied {data : Bytes} {source : Directory} {options : SubsetOptions}
    {copied : List Table} (outlines locations : Table)
    (run : (copyTables data source (options.tables.filter fun tag => ¬ isRebuilt tag)).result =
      .ok copied) : (outlines :: locations :: copied).length < UInt16.size := by
  have few : copied.length ≤ 12 := Nat.le_trans (length_copied run)
    (Nat.le_trans (List.length_filter_le _ _) (length_tables_le options))
  exact Nat.lt_of_le_of_lt (Nat.succ_le_succ (Nat.succ_le_succ few)) (by decide)

section
variable {data fontData : Bytes} {source : Directory} {rebuilt : RebuiltOutlines}
  {options : SubsetOptions} (run : (write data source rebuilt options).result = .ok fontData)
  (small : fontData.size < UInt32.size)
include run small

/-- What a reader finds under a tag: a table that was rebuilt, or one of the source's. -/
theorem parse_write : ∃ d, Directory.parse fontData 0 = .ok d ∧
    (∃ r, d.table? .outlines = some r ∧ Listed fontData (.ofBody .outlines rebuilt.outlines) r) ∧
    (∃ r, d.table? .locations = some r ∧
      Listed fontData (.ofBody .locations rebuilt.locations.toBytes) r) ∧
    ∀ tag, ¬ isRebuilt tag → Option.Rel
      (fun r r' => ∃ t, copy data (tag, r) = .ok t ∧ Listed fontData t r')
      (if tag ∈ options.tables then source.table? tag else none) (d.table? tag) := by
  obtain ⟨copied, copying, rfl⟩ := write_eq_ok.1 run
  obtain ⟨d, parsed, -, lookup⟩ := parse_assemble (few_of_copied _ _ copying) small
  have copies := find?_copied copying
  simp only [List.reverse_cons, List.append_assoc, List.find?_append, List.cons_append,
    List.nil_append] at lookup
  refine ⟨d, parsed, ?_, ?_, fun tag kept => ?_⟩
  · have own := copies .outlines
    rw [if_neg (by simp [isRebuilt]), rel_none_left] at own
    have found := lookup .outlines
    rw [own] at found
    exact rel_some_left.1 found
  · have own := copies .locations
    rw [if_neg (by simp [isRebuilt]), rel_none_left] at own
    have found := lookup .locations
    rw [own] at found
    exact rel_some_left.1 found
  · have own := copies tag
    have found := lookup tag
    have copiedOnly : tag ∈ options.tables.filter (fun tag => ¬ isRebuilt tag) ↔
        tag ∈ options.tables := by simp [kept]
    have others : [Table.ofBody .locations rebuilt.locations.toBytes,
        Table.ofBody .outlines rebuilt.outlines].find? (·.tag = tag) = none := by
      simp only [isRebuilt, decide_eq_true_eq, not_or] at kept
      simp [Table.ofBody, Ne.symm kept.1, Ne.symm kept.2]
    rw [others, Option.or_none] at found
    simp only [copiedOnly] at own
    exact rel_comp own found

end

/-! ## Reading back -/

/-- What a reader finds in a subset of the font `source` of a file. -/
structure ReadsBack (data : Bytes) (source : Directory) (locations : Locations) (used : GlyphSet)
    (options : SubsetOptions) (s : Subset) (d : Directory) (found : Locations) : Prop where
  parsed : (Directory.read s.fontData 0).result = .ok d
  located : (Locations.read s.fontData d).result = .ok found
  format : found.format = locations.format
  size : found.offsets.size = locations.offsets.size
  ascending : found.Ascending
  /-- Every retained glyph has its old outline. -/
  retained : ∃ table table', source.table? .outlines = some table ∧
    d.table? .outlines = some table' ∧
    (glyphClosure data table.start locations used).result = .ok s.retained ∧
    ∀ glyph ∈ s.retained, ∃ outline, locations.Locates data table glyph outline ∧
      found.Locates s.fontData table' glyph outline
  /-- The span of any other glyph is empty. -/
  dropped : ∀ index start stop, (∀ glyph ∈ s.retained, glyph.toNat ≠ index) →
    found.offsets[index]? = some start → found.offsets[index + 1]? = some stop → start = stop
  /-- All other tables that are to be there are copied. -/
  copied : ∀ tag ∈ options.tables, ¬ isRebuilt tag → ∀ r, source.table? tag = some r →
    ∃ r' body, d.table? tag = some r' ∧ r'.checksum = r.checksum ∧ r.body data = .ok body ∧
      r'.body s.fontData = .ok body
  listed : ∀ tag r, d.table? tag = some r → tag ∈ options.tables

section
variable {data : Bytes} {offset : Nat} {used : GlyphSet} {options : SubsetOptions} {s : Subset}

theorem ofFontAt_eq_ok : (ofFontAt data offset used options).result = .ok s ↔
    ∃ source header locations table rebuilt, Directory.parse data offset = .ok source ∧
      source.flavor ≠ .compact ∧ source.table? .header = some header ∧
      Locations.parse data source = .ok locations ∧ source.table? .outlines = some table ∧
      (glyphClosure data table.start locations used).result = .ok s.retained ∧
      rebuildOutlines data table locations s.retained = .ok rebuilt ∧
      (write data source rebuilt options).result = .ok s.fontData ∧
      s.glyphCount = locations.count := by
  rw [ofFontAt, Traced.result_bind, Directory.result_read]
  constructor
  · intro run
    obtain ⟨source, parsed, run⟩ := bind_eq_ok.1 run
    split at run
    · cases run
    · rename_i flavor
      simp only [Traced.result_bind, bind_eq_ok, Locations.result_read, Traced.result_lift,
        Directory.require_eq_ok, Traced.result_pure, Except.ok.injEq] at run
      obtain ⟨header, tabled, locations, located, table, listed, retained, closed, rebuilt, built,
        fontData, written, _, -, rfl⟩ := run
      exact ⟨source, header, locations, table, rebuilt, parsed, flavor, tabled, located, listed,
        closed, built, written, rfl⟩
  · rintro ⟨source, header, locations, table, rebuilt, parsed, flavor, tabled, located, listed,
      closed, built, written, count⟩
    rw [parsed, ok_bind, if_neg flavor]
    simp only [Traced.result_bind, bind_eq_ok, Locations.result_read, Traced.result_lift,
      Directory.require_eq_ok, Traced.result_pure, Except.ok.injEq]
    exact ⟨header, tabled, locations, located, table, listed, s.retained, closed, rebuilt, built,
      s.fontData, written, (), rfl, by rw [← count]⟩

/-- The format flag lies within the header, and is copied with it. -/
theorem read_format {fontData : Bytes} {source d : Directory} {format : LocationFormat}
    {header header' : TableRecord} {body : Bytes}
    (flag : LocationFormat.read data source = .ok format)
    (listed : source.table? .header = some header) (long : 54 ≤ header.length.toNat)
    (here : header.body data = .ok body) (listed' : d.table? .header = some header')
    (there : header'.body fontData = .ok body) : LocationFormat.read fontData d = .ok format := by
  obtain ⟨_, flag, found, holds, eq⟩ := Locations.format_eq_ok.1 flag
  cases listed.symm.trans (Directory.require_eq_ok.1 found)
  obtain ⟨outer, size⟩ := Bytes.slice_eq_ok.1 here
  have before : LocationFormat.headerField + 1 ≤ 54 := by decide
  have inner : body.Holds LocationFormat.headerField #[flag] :=
    outer.within holds (size ▸ Nat.le_trans before long)
  exact Locations.format_eq_ok.2 ⟨header', flag, Directory.require_eq_ok.2 listed',
    (Bytes.slice_eq_ok.1 there).1.trans inner, eq⟩

theorem parse_locations {fontData : Bytes} {d : Directory} {l : Locations} {r : TableRecord}
    (fits : l.Representable) (flag : LocationFormat.read fontData d = .ok l.format)
    (found : d.table? .locations = some r)
    (listed : Listed fontData (.ofBody .locations l.toBytes) r) :
    Locations.parse fontData d = .ok l := by
  have count : r.length.toNat / l.format.entrySize = l.offsets.size := by
    rw [listed.length, Table.ofBody, Locations.size_toBytes]
    exact Nat.mul_div_cancel_left _ (by cases l.format <;> decide)
  refine Locations.parse_eq_ok.2 ⟨flag, r, Directory.require_eq_ok.2 found, ?_⟩
  rw [count]
  exact Locations.entries_of_holds fits listed.holds

theorem ofFile_readsBack {member : Option UInt32} {source : Directory} {locations : Locations}
    {header : TableRecord} (run : (ofFile data member used options).result = .ok s)
    (selected : Collection.directoryOffset data member = .ok offset)
    (parsed : (Directory.read data offset).result = .ok source)
    (located : (Locations.read data source).result = .ok locations)
    (ascending : locations.Ascending) (listed : source.table? .header = some header)
    (long : 54 ≤ header.length.toNat) (small : s.fontData.size < UInt32.size) :
    ∃ d found, ReadsBack data source locations used options s d found := by
  simp only [ofFile, Traced.result_bind, Traced.result_lift, selected, ok_bind] at run
  obtain ⟨_, _, _, table, rebuilt, parsed', -, -, located', tabled, closed, built, written, -⟩ :=
    ofFontAt_eq_ok.1 run
  rw [Directory.result_read] at parsed
  rw [Locations.result_read] at located
  cases parsed.symm.trans parsed'
  cases located.symm.trans located'
  obtain ⟨d, reparsed, ⟨outlines, foundOutlines, outlinesListed⟩,
    ⟨places, foundPlaces, placesListed⟩, others⟩ := parse_write written small
  have copied : ∀ tag ∈ options.tables, ¬ isRebuilt tag → ∀ r, source.table? tag = some r →
      ∃ r' body, d.table? tag = some r' ∧ r'.checksum = r.checksum ∧ r.body data = .ok body ∧
        r'.body s.fontData = .ok body := by
    intro tag mem kept r found
    have other := others tag kept
    rw [if_pos mem, found, rel_some_left] at other
    obtain ⟨r', found', _, copy, listed'⟩ := other
    obtain ⟨body, bytes, rfl⟩ := map_eq_ok.1 copy
    exact ⟨r', body, found', listed'.checksum, bytes, listed'.body_eq⟩
  have flag : LocationFormat.read s.fontData d = .ok rebuilt.locations.format := by
    obtain ⟨header', body, found', -, here, there⟩ :=
      copied .header (header_mem_tables options) (by decide) header listed
    rw [RebuiltOutlines.rebuilt_format built]
    exact read_format (Locations.parse_eq_ok.1 located).1 listed long here found' there
  have fits := RebuiltOutlines.rebuilt_representable built ascending
    (Locations.representable_of_parse located)
  refine ⟨d, rebuilt.locations, ?_⟩
  exact {
    parsed := by rw [Directory.result_read, reparsed]
    located := by rw [Locations.result_read, parse_locations fits flag foundPlaces placesListed]
    format := RebuiltOutlines.rebuilt_format built
    size := RebuiltOutlines.rebuilt_size built
    ascending := RebuiltOutlines.rebuilt_ascending built ascending
    retained := by
      refine ⟨table, outlines, tabled, foundOutlines, closed, fun glyph mem => ?_⟩
      obtain ⟨outline, start, stop, old, span, size, bound, holds⟩ :=
        RebuiltOutlines.rebuilt_locates built ascending mem (lt_count_of_mem_closure closed mem)
      refine ⟨outline, old, start, stop, span, size, ?_, outlinesListed.holds.trans holds⟩
      rwa [UInt32.le_iff_toNat_le, outlinesListed.length]
    dropped := fun index start stop => RebuiltOutlines.rebuilt_dropped built ascending
    copied := copied
    listed := by
      intro tag r found
      by_cases rebuilt : isRebuilt tag
      · exact rebuilt_mem_tables rebuilt options
      · have other := others tag rebuilt
        by_contra absent
        rw [if_neg absent, rel_none_left, found] at other
        cases other }

end

/-! ## A subset of a sample font -/

def nestedUsed : GlyphSet := .ofList [(3 : GlyphId), 9]

def nestedRetained : GlyphSet := .ofList [(0 : GlyphId), 1, 3]

theorem nestedFont_selected : Collection.directoryOffset Sample.nestedFont none = .ok 0 := by
  decide +kernel

set_option maxRecDepth 10000 in
/-- Glyph 2 is gone. -/
theorem nestedFont_closed : (glyphClosure Sample.nestedFont Sample.nestedTable.start
    Sample.nestedLocations nestedUsed).result = .ok nestedRetained := by
  cbv

theorem nestedFont_run : (do
    let source ← Directory.parse Sample.nestedFont 0
    let locations ← Locations.parse Sample.nestedFont source
    let rebuilt ← rebuildOutlines Sample.nestedFont Sample.nestedTable locations nestedRetained
    let copied ← (copyTables Sample.nestedFont source
      (SubsetOptions.minimal.tables.filter fun tag => ¬ isRebuilt tag)).result
    let tables := Table.ofBody .outlines rebuilt.outlines ::
      .ofBody .locations rebuilt.locations.toBytes :: copied
    return (source.flavor, source.table? .header, source.table? .outlines, locations,
      directorySize tables.length + (Bytes.concat (tables.map Table.padded)).size)) =
      .ok (.trueType, some ⟨.header, 0, 112, 54⟩, some Sample.nestedTable, Sample.nestedLocations,
        160) := by
  decide +kernel

theorem nestedFont_ofFile : ∃ source file, Directory.parse Sample.nestedFont 0 = .ok source ∧
    Locations.parse Sample.nestedFont source = .ok Sample.nestedLocations ∧
    source.table? .header = some ⟨.header, 0, 112, 54⟩ ∧
    source.table? .outlines = some Sample.nestedTable ∧
    (ofFile Sample.nestedFont none nestedUsed .minimal).result = .ok ⟨file, nestedRetained, 4⟩ ∧
    file.size = 160 := by
  obtain ⟨source, parsed, rest⟩ := bind_eq_ok.1 nestedFont_run
  obtain ⟨locations, located, rest⟩ := bind_eq_ok.1 rest
  obtain ⟨rebuilt, built, rest⟩ := bind_eq_ok.1 rest
  obtain ⟨copied, copies, rest⟩ := bind_eq_ok.1 rest
  have facts := Except.ok.inj rest
  simp only [Prod.mk.injEq] at facts
  obtain ⟨flavor, header, table, rfl, size⟩ := facts
  obtain ⟨file, written, small⟩ : ∃ file,
      (write Sample.nestedFont source rebuilt .minimal).result = .ok file ∧ file.size = 160 :=
    ⟨_, write_eq_ok.2 ⟨copied, copies, rfl⟩, (size_assemble _).trans size⟩
  refine ⟨source, file, parsed, located, header, table, ?_, small⟩
  rw [ofFile, Traced.result_bind, Traced.result_lift, nestedFont_selected, ok_bind]
  exact ofFontAt_eq_ok.2 ⟨source, _, _, _, rebuilt, parsed, by rw [flavor]; decide, header,
    located, table, nestedFont_closed, built, written, rfl⟩

theorem nestedFont_readsBack : ∃ source s d found,
    (ofFile Sample.nestedFont none nestedUsed .minimal).result = .ok s ∧
      ReadsBack Sample.nestedFont source Sample.nestedLocations nestedUsed .minimal s d found := by
  obtain ⟨source, file, parsed, located, header, -, run, size⟩ := nestedFont_ofFile
  obtain ⟨d, found, back⟩ := ofFile_readsBack run nestedFont_selected
    (by rw [Directory.result_read, parsed]) (by rw [Locations.result_read, located]) (by decide)
    header (by decide) (by rw [size]; decide)
  exact ⟨source, _, d, found, run, back⟩

end Subset

end FontSubset
