import FontSubset.Proofs.Outline.Cycle
import FontSubset.Proofs.Outline.Glyph
import FontSubset.Proofs.Outline.Subset

/-!
# Subsets of subsets

* `ofFile_ofFile`: a subset of a subset is the subset of the font by the same glyphs; a subset by
  the glyphs it was made for is the file itself.

A subset preserves what smaller subsets are made of (`Preserves`), and two fonts of which one
preserves the other have the same smaller subsets (`Preserves.ofFontAt_ok`).
-/

namespace FontSubset.Subset

/-! ## Tables -/

/-- The tag leads to the same table in both fonts, or to none. -/
def SameTable (data : Bytes) (d : Directory) (data' : Bytes) (d' : Directory) (tag : Tag) : Prop :=
  Option.Rel (fun r r' => copy data' (tag, r') = copy data (tag, r)) (d.table? tag) (d'.table? tag)

section
variable {data data' : Bytes} {d d' : Directory} {tags : List Tag} {options : SubsetOptions}

theorem sameTable_of_listed {tag : Tag}
    (listed : Option.Rel (fun r r' => ∃ t, copy data (tag, r) = .ok t ∧ Listed data' t r')
      (d.table? tag) (d'.table? tag)) : SameTable data d data' d' tag := by
  cases found : d.table? tag with
  | none =>
    rw [found, rel_none_left] at listed
    rw [SameTable, found, listed]
    exact .none
  | some r =>
    rw [found, rel_some_left] at listed
    obtain ⟨r', found', _, copying, listed⟩ := listed
    obtain ⟨body, bytes, rfl⟩ := map_eq_ok.1 copying
    rw [SameTable, found, rel_some_left]
    exact ⟨r', found', by rw [copy, copy, listed.body_eq, bytes, listed.checksum]⟩

theorem mapM_present_congr (same : ∀ tag ∈ tags, SameTable data d data' d' tag) :
    (present d' tags).mapM (copy data') = (present d tags).mapM (copy data) := by
  induction tags with
  | nil => rfl
  | cons tag rest ih =>
    obtain ⟨first, others⟩ := List.forall_mem_cons.1 same
    have tail := ih others
    simp only [present] at tail
    rw [present, present, List.filterMap_cons, List.filterMap_cons]
    cases listed : d.table? tag with
    | none =>
      rw [SameTable, listed, rel_none_left] at first
      rw [first]
      exact tail
    | some r =>
      rw [SameTable, listed, rel_some_left] at first
      obtain ⟨r', listed', copied⟩ := first
      rw [listed']
      dsimp only [Option.map_some]
      rw [List.mapM_cons, List.mapM_cons, copied, tail]

theorem result_write_congr (rebuilt : RebuiltOutlines)
    (same : ∀ tag ∈ options.tables, ¬ isRebuilt tag → SameTable data d data' d' tag) :
    (write data' d' rebuilt options).result = (write data d rebuilt options).result := by
  rw [write, write, Traced.result_bind, Traced.result_bind, result_copyTables, result_copyTables,
    mapM_present_congr fun tag mem => ?_]
  simp only [List.mem_filter, decide_eq_true_eq] at mem
  exact same tag mem.1 (by simpa using mem.2)

end

/-! ## Fonts with the same outlines -/

/-- What is read of a font before its glyphs are. -/
structure Opened (data : Bytes) (offset : Nat) (d : Directory) (l : Locations)
    (table : TableRecord) : Prop where
  parsed : Directory.parse data offset = .ok d
  flavor : d.flavor ≠ .compact
  header : (d.table? .header).isSome
  located : Locations.parse data d = .ok l
  tabled : d.table? .outlines = some table

/-- The second font has the outlines of some glyphs, and the other tables of a subset, in common
with the first one. -/
structure Preserves (data : Bytes) (d : Directory) (l : Locations) (table : TableRecord)
    (data' : Bytes) (d' : Directory) (l' : Locations) (table' : TableRecord) (glyphs : GlyphSet)
    (options : SubsetOptions) : Prop where
  format : l'.format = l.format
  size : l'.offsets.size = l.offsets.size
  outlines : ∀ g ∈ glyphs, ∃ outline, l.Locates data table g outline ∧
    l'.Locates data' table' g outline
  tables : ∀ tag ∈ options.tables, ¬ isRebuilt tag → SameTable data d data' d' tag

section
variable {data data' : Bytes} {offset offset' : Nat} {d d' : Directory} {l l' : Locations}
  {table table' : TableRecord} {used used' glyphs : GlyphSet} {options : SubsetOptions}
  {s : Subset}

theorem Opened.ofFontAt_eq_ok (opened : Opened data offset d l table) :
    (ofFontAt data offset used options).result = .ok s ↔ ∃ rebuilt,
      (glyphClosure data table.start l used).result = .ok s.retained ∧
      rebuildOutlines data table l s.retained = .ok rebuilt ∧
      (write data d rebuilt options).result = .ok s.fontData ∧ s.glyphCount = l.count := by
  rw [Subset.ofFontAt_eq_ok]
  constructor
  · rintro ⟨_, _, _, _, rebuilt, parsed, -, -, located, tabled, rest⟩
    cases opened.parsed.symm.trans parsed
    cases opened.located.symm.trans located
    cases opened.tabled.symm.trans tabled
    exact ⟨rebuilt, rest⟩
  · rintro ⟨rebuilt, rest⟩
    obtain ⟨header, listed⟩ := Option.isSome_iff_exists.1 opened.header
    exact ⟨d, header, l, table, rebuilt, opened.parsed, opened.flavor, listed, opened.located,
      opened.tabled, rest⟩

/-- Reading a glyph looks at nothing behind the end of its span. -/
def Contained (data : Bytes) (outlines : Nat) (l : Locations) (glyphs : GlyphSet) : Prop :=
  ∀ g ∈ glyphs, ∀ glyph start stop, Glyph.read data outlines l g = .ok glyph →
    l.span? g = some (start, stop) → start.toNat + glyph.decodedSize ≤ stop.toNat

theorem Preserves.read_eq (preserves : Preserves data d l table data' d' l' table' glyphs options)
    (contained : Contained data table.start l glyphs) {g : GlyphId} (mem : g ∈ glyphs)
    {glyph : Glyph} (run : Glyph.read data table.start l g = .ok glyph) :
    Glyph.read data' table'.start l' g = .ok glyph := by
  obtain ⟨outline, here, there⟩ := preserves.outlines g mem
  refine Glyph.read_of_locates run here there ?_
  obtain ⟨start, stop, span, size, -⟩ := here
  have inside := contained g mem glyph start stop run span
  omega

/-- Whatever the closure of the glyphs in the first font is made of can be made of the second, if
the glyphs are read there. -/
theorem Preserves.ofFontAt_ok_of_read (opened : Opened data offset d l table)
    (opened' : Opened data' offset' d' l' table')
    (run : (ofFontAt data offset used options).result = .ok s)
    (preserves : Preserves data d l table data' d' l' table' s.retained options)
    (reads : ∀ g ∈ s.retained, ∀ glyph, Glyph.read data table.start l g = .ok glyph →
      Glyph.read data' table'.start l' g = .ok glyph)
    (sub : ∀ g : GlyphId, g.toNat < l.count → g ∈ used' → g ∈ s.retained) :
    ∃ s', (ofFontAt data offset used' options).result = .ok s' ∧
      (ofFontAt data' offset' used' options).result = .ok s' := by
  obtain ⟨_, closed, -, written, -⟩ := opened.ofFontAt_eq_ok.1 run
  obtain ⟨retained, closed', inside⟩ := glyphClosure_ok_of_subset closed sub
  have count : l'.count = l.count := by rw [Locations.count, preserves.size, Locations.count]
  have closed'' := glyphClosure_congr closed' count fun g mem => by
    obtain ⟨glyph, read⟩ := read_of_mem_closure closed' mem
    rw [read, reads g (inside g mem) glyph read]
  obtain ⟨rebuilt, built, built'⟩ := RebuiltOutlines.rebuildOutlines_of_locates preserves.format
    preserves.size fun g mem => preserves.outlines g (inside g mem)
  -- Whether the tables can be copied does not depend on the outlines that go with them.
  obtain ⟨copied, copying, -⟩ := write_eq_ok.1 written
  obtain ⟨file, rewritten⟩ : ∃ file, (write data d rebuilt options).result = .ok file :=
    ⟨_, write_eq_ok.2 ⟨copied, copying, rfl⟩⟩
  refine ⟨⟨file, retained, l.count⟩, ?_, ?_⟩
  · exact opened.ofFontAt_eq_ok.2 ⟨rebuilt, closed', built, rewritten, rfl⟩
  · rw [← result_write_congr rebuilt preserves.tables] at rewritten
    exact opened'.ofFontAt_eq_ok.2 ⟨rebuilt, closed'', built', rewritten, count.symm⟩

theorem Preserves.ofFontAt_ok (opened : Opened data offset d l table)
    (opened' : Opened data' offset' d' l' table')
    (run : (ofFontAt data offset used options).result = .ok s)
    (preserves : Preserves data d l table data' d' l' table' s.retained options)
    (contained : Contained data table.start l s.retained)
    (sub : ∀ g : GlyphId, g.toNat < l.count → g ∈ used' → g ∈ s.retained) :
    ∃ s', (ofFontAt data offset used' options).result = .ok s' ∧
      (ofFontAt data' offset' used' options).result = .ok s' :=
  preserves.ofFontAt_ok_of_read opened opened' run
    (fun _ mem _ read => preserves.read_eq contained mem read) sub

/-! ## A subset preserves its font -/

/-- A subset can be opened as a font, and has all that is left of its source. -/
theorem Opened.preserves_of_subset (opened : Opened data offset d l table)
    (run : (ofFontAt data offset used options).result = .ok s)
    (ascending : l.Ascending) {header : TableRecord} (listed : d.table? .header = some header)
    (long : 54 ≤ header.length.toNat) (small : s.fontData.size < UInt32.size) :
    Collection.directoryOffset s.fontData none = .ok 0 ∧ ∃ d' l' table',
      Opened s.fontData 0 d' l' table' ∧
        Preserves data d l table s.fontData d' l' table' s.retained options := by
  obtain ⟨rebuilt, closed, built, written, -⟩ := opened.ofFontAt_eq_ok.1 run
  obtain ⟨d', parsed, ⟨outlines, foundOutlines, outlinesListed⟩,
    ⟨places, foundPlaces, placesListed⟩, others⟩ := parse_write written small
  have header' := others .header (by decide)
  rw [if_pos (header_mem_tables options), listed, rel_some_left] at header'
  obtain ⟨header', foundHeader, _, copying, listed'⟩ := header'
  obtain ⟨body, bytes, rfl⟩ := map_eq_ok.1 copying
  have format := RebuiltOutlines.rebuilt_format built
  have flag : LocationFormat.read s.fontData d' = .ok rebuilt.locations.format := by
    rw [format]
    exact read_format (Locations.parse_eq_ok.1 opened.located).1 listed long bytes foundHeader
      listed'.body_eq
  have fits := RebuiltOutlines.rebuilt_representable built ascending
    (Locations.representable_of_parse opened.located)
  obtain ⟨copied, copying, eq⟩ := write_eq_ok.1 written
  refine ⟨eq ▸ directoryOffset_assemble _, d', rebuilt.locations, outlines, ?_, ?_⟩
  · refine ⟨parsed, ?_, by rw [foundHeader]; rfl, ?_, foundOutlines⟩
    · rw [eq, parse_assemble_eq (few_of_copied _ _ copying)] at parsed
      cases parsed
      nofun
    · exact parse_locations fits flag foundPlaces placesListed
  · refine ⟨format, RebuiltOutlines.rebuilt_size built, fun g mem => ?_, fun tag mem kept => ?_⟩
    · obtain ⟨outline, start, stop, old, span, size, bound, holds⟩ :=
        RebuiltOutlines.rebuilt_locates built ascending mem (lt_count_of_mem_closure closed mem)
      refine ⟨outline, old, start, stop, span, size, ?_, outlinesListed.holds.trans holds⟩
      rwa [UInt32.le_iff_toNat_le, outlinesListed.length]
    · have other := others tag kept
      rw [if_pos mem] at other
      exact sameTable_of_listed other

end

section
variable {data : Bytes} {offset : Nat} {used used' : GlyphSet} {options : SubsetOptions}
  {s : Subset}

theorem ofFile_ofFile {member : Option UInt32} {source : Directory} {locations : Locations}
    {header table : TableRecord} (run : (ofFile data member used options).result = .ok s)
    (selected : Collection.directoryOffset data member = .ok offset)
    (parsed : (Directory.read data offset).result = .ok source)
    (located : (Locations.read data source).result = .ok locations)
    (ascending : locations.Ascending) (listed : source.table? .header = some header)
    (long : 54 ≤ header.length.toNat) (tabled : source.table? .outlines = some table)
    (contained : Contained data table.start locations s.retained)
    (small : s.fontData.size < UInt32.size)
    (sub : ∀ g : GlyphId, g.toNat < locations.count → g ∈ used' → g ∈ s.retained) :
    (∃ s', (ofFile data member used' options).result = .ok s' ∧
        (ofFile s.fontData none used' options).result = .ok s') ∧
      (ofFile s.fontData none used options).result = .ok s := by
  simp only [ofFile, Traced.result_bind, Traced.result_lift, selected, ok_bind] at run ⊢
  rw [Directory.result_read] at parsed
  rw [Locations.result_read] at located
  have opened : Opened data offset source locations table := by
    obtain ⟨_, _, _, _, _, parsed', flavor, -⟩ := ofFontAt_eq_ok.1 run
    cases parsed.symm.trans parsed'
    exact ⟨parsed, flavor, by rw [listed]; rfl, located, tabled⟩
  obtain ⟨selected', _, _, _, opened', preserves⟩ :=
    opened.preserves_of_subset run ascending listed long small
  -- Used for the smaller subset, and for the glyphs that the subset was made for.
  have both {used'' : GlyphSet}
      (sub : ∀ g : GlyphId, g.toNat < locations.count → g ∈ used'' → g ∈ s.retained) :=
    preserves.ofFontAt_ok opened opened' run contained sub
  rw [selected', ok_bind, ok_bind]
  refine ⟨both sub, ?_⟩
  obtain ⟨s', again, there⟩ := both fun g bound mem => by
    obtain ⟨_, closed, -⟩ := opened.ofFontAt_eq_ok.1 run
    exact (glyphClosure_closed closed).1.seeds g bound (.inr mem)
  obtain rfl := Except.ok.inj (run.symm.trans again)
  exact there

end

/-! ## Subsets of a sample font -/

theorem nestedFont_contained : Contained Sample.nestedFont Sample.nestedTable.start
    Sample.nestedLocations nestedRetained := by
  have sizes : ∀ g ∈ [(0 : GlyphId), 1, 3], ∃ size start stop,
      (Glyph.read Sample.nestedFont Sample.nestedTable.start Sample.nestedLocations g).map
        Glyph.decodedSize = .ok size ∧ Sample.nestedLocations.span? g = some (start, stop) ∧
          start.toNat + size ≤ stop.toNat := by
    intro g mem
    simp only [List.mem_cons, List.not_mem_nil, or_false] at mem
    rcases mem with rfl | rfl | rfl
    · exact ⟨0, 0, 0, by decide +kernel⟩
    · exact ⟨2, 0, 16, by decide +kernel⟩
    · exact ⟨16, 34, 50, by decide +kernel⟩
  intro g mem glyph start stop run span
  rw [nestedRetained, Std.TreeSet.mem_ofList, List.contains_iff_mem] at mem
  obtain ⟨size, start', stop', read, span', inside⟩ := sizes g mem
  cases span.symm.trans span'
  rw [run] at read
  cases read
  exact inside

/-- The subset by glyph 3 has a subset by glyph 1, which is that of the font. -/
theorem nestedFont_resubset : ∃ s s',
    (ofFile Sample.nestedFont none nestedUsed .minimal).result = .ok s ∧
      (ofFile Sample.nestedFont none (.ofList [(1 : GlyphId)]) .minimal).result = .ok s' ∧
      (ofFile s.fontData none (.ofList [(1 : GlyphId)]) .minimal).result = .ok s' ∧
      (ofFile s.fontData none nestedUsed .minimal).result = .ok s := by
  obtain ⟨source, file, parsed, located, header, tabled, run, small⟩ := nestedFont_ofFile
  have kept (g : GlyphId) (_ : g.toNat < Sample.nestedLocations.count)
      (mem : g ∈ (.ofList [(1 : GlyphId)] : GlyphSet)) : g ∈ nestedRetained := by
    simp only [nestedRetained, Std.TreeSet.mem_ofList, List.contains_iff_mem] at mem ⊢
    rw [List.mem_singleton.1 mem]
    decide
  obtain ⟨⟨s', here, there⟩, again⟩ := ofFile_ofFile run nestedFont_selected
    (by rw [Directory.result_read, parsed]) (by rw [Locations.result_read, located]) (by decide)
    header (by decide) tabled nestedFont_contained (by rw [small]; decide) kept
  exact ⟨_, s', run, here, there, again⟩

end FontSubset.Subset
