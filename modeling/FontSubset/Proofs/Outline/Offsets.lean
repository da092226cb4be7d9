import FontSubset.Proofs.Outline.Subset

/-!
# Offsets of rebuilt outlines

* `rebuilt_exact_iff`: the new locations say where each outline begins, and are read back from their
  bytes, just when the outlines are short enough for the format. Nothing checks this. While the
  source locations ascend it always holds, but spans that overlap are copied once for each glyph, and
  can become too long.
* `rebuildOutlines_all`: when every glyph is retained, and the outlines of the source follow one
  another, the same outlines and locations come out.
-/

namespace FontSubset

/-- The offsets that a location table of this format can hold lie below this one. -/
def LocationFormat.limit : LocationFormat → Nat
  | short => 0x20000
  | long => UInt32.size

theorem Locations.Representable.lt_limit {l : Locations} (fits : l.Representable)
    {offset : UInt32} (mem : offset ∈ l.offsets) : offset.toNat < l.format.limit := by
  cases format : l.format with
  | short => exact (fits format offset mem).2
  | long => exact offset.toNat_lt

namespace RebuiltOutlines

/-- Each offset is the size of the outlines before it, and the location table is read back. -/
structure Exact (rebuilt : RebuiltOutlines) (pieces : List Bytes) : Prop where
  places : ∀ index offset, rebuilt.locations.offsets[index]? = some offset →
    offset.toNat = Bytes.place pieces index
  readBack : Locations.entries rebuilt.locations.toBytes rebuilt.locations.format 0
    rebuilt.locations.offsets.size = .ok rebuilt.locations.offsets.toList

section
variable {data : Bytes} {table : TableRecord} {l : Locations} {retained : GlyphSet}
  {pieces : List Bytes} {index : Nat} {rebuilt : RebuiltOutlines}

/-! ## Outlines that fit -/

section
variable (made : Pieces data table l retained pieces)
include made

/-- The last location is the end of the outlines. -/
theorem Pieces.place_last (last : index + 1 = l.offsets.size) :
    Bytes.place pieces index = (Bytes.concat pieces).size := by
  have bound : index < l.offsets.size := by omega
  obtain ⟨bytes, part, run⟩ := made.getElem? bound
  rw [← Bytes.place_length, made.length_eq, ← last, Bytes.place_succ part]
  rcases piece_fills run with rfl | ⟨start, stop, -, next, -⟩
  · rfl
  · have behind := (Array.getElem?_eq_some_iff.1 next).1
    omega

theorem Pieces.size_lt_of_place_lt {limit : Nat} (positive : 0 < limit)
    (below : ∀ index < l.offsets.size, Bytes.place pieces index < limit) :
    (Bytes.concat pieces).size < limit := by
  cases size : l.offsets.size with
  | zero => rwa [← Bytes.place_length, made.length_eq, size]
  | succ last =>
    rw [← made.place_last size.symm]
    exact below last (by omega)

end

theorem limit_pos (format : LocationFormat) : 0 < format.limit := by
  cases format <;> decide

theorem limit_le (format : LocationFormat) : format.limit ≤ UInt32.size := by
  cases format <;> decide

theorem Exact.lt_limit {offset : UInt32} (exact : Exact rebuilt pieces)
    (mem : offset ∈ rebuilt.locations.offsets) :
    offset.toNat < rebuilt.locations.format.limit := by
  refine Locations.Representable.lt_limit (fun format offset mem => ?_) mem
  have run := exact.readBack
  rw [format] at run
  exact Locations.bounds_of_entries run offset (Array.mem_toList_iff.2 mem)

theorem Pieces.exact_iff (made : Pieces data table l retained pieces) (fits : l.Representable) :
    Exact ⟨Bytes.concat pieces, ⟨l.format, starts pieces⟩⟩ pieces ↔
      (Bytes.concat pieces).size < l.format.limit := by
  have size : (starts pieces).size = l.offsets.size := by simp [starts_eq, made.length_eq]
  constructor
  · intro exact
    refine made.size_lt_of_place_lt (limit_pos _) fun index bound => ?_
    have found := Array.getElem?_eq_getElem (size ▸ bound)
    rw [← exact.places index _ found]
    exact exact.lt_limit (Array.getElem_mem _)
  · intro short
    have below (index : Nat) : Bytes.place pieces index < l.format.limit :=
      Nat.lt_of_le_of_lt (Bytes.place_le_size pieces index) short
    have places : ∀ index offset, (starts pieces)[index]? = some offset →
        offset.toNat = Bytes.place pieces index := by
      intro index offset found
      have bound := (Array.getElem?_eq_some_iff.1 found).1
      obtain ⟨_, found', place⟩ := made.getElem?_starts_of_lt (size ▸ bound)
        (Nat.lt_of_lt_of_le (below index) (limit_le _))
      cases found.symm.trans found'
      exact place
    refine ⟨places, Locations.entries_of_holds (fun format offset mem => ?_)
      (Bytes.holds_self _)⟩
    obtain ⟨index, found⟩ := Array.mem_iff_getElem?.1 mem
    have limit := below index
    rw [show l.format = .short from format] at limit
    rw [places index offset found]
    exact ⟨made.place_even fits format index, limit⟩

variable {d : Directory}

theorem rebuilt_exact_iff (located : (Locations.read data d).result = .ok l)
    (run : rebuildOutlines data table l retained = .ok rebuilt) :
    ∃ pieces, Pieces data table l retained pieces ∧ rebuilt.outlines = Bytes.concat pieces ∧
      (rebuilt.Exact pieces ↔ rebuilt.outlines.size < l.format.limit) ∧
        (l.Ascending → rebuilt.Exact pieces) := by
  rw [Locations.result_read] at located
  have fits := Locations.representable_of_parse located
  obtain ⟨pieces, made, rfl⟩ := rebuildOutlines_eq_ok.1 run
  refine ⟨pieces, made, rfl, made.exact_iff fits, fun ascending => ?_⟩
  refine (made.exact_iff fits).2 (made.size_lt_of_place_lt (limit_pos _) fun index bound => ?_)
  exact Nat.lt_of_le_of_lt (made.place_le ascending (Array.getElem?_eq_getElem bound))
    (fits.lt_limit (Array.getElem_mem bound))

/-- Two glyphs have all outlines, for which the location between them goes back. -/
def overlapLocations : Locations :=
  ⟨.short, #[0, 0x10000, 0, 0x10000]⟩

/-- The outlines, which can also be read as a header, and the locations. -/
def overlapFont : Bytes :=
  Sample.zeros 0x10000 ++ overlapLocations.toBytes

def overlapDirectory : Directory :=
  .ofRecords .trueType 0 [⟨.header, 0, 0, 54⟩, ⟨.locations, 0, 0x10000, 8⟩]

def overlapTable : TableRecord :=
  ⟨.outlines, 0, 0, 0x10000⟩

def overlapGlyphs : GlyphSet :=
  .ofList [(0 : GlyphId), 2]

theorem overlap_located :
    (Locations.read overlapFont overlapDirectory).result = .ok overlapLocations := by
  rw [Locations.result_read, Locations.parse_eq_ok, Locations.format_eq_ok]
  have flag : (Sample.zeros 0x10000).Holds 51 #[0] := by
    have bound : 51 + (#[0] : Bytes).size ≤ (Sample.zeros 0x10000).size := by
      rw [Sample.zeros, Array.size_replicate]
      decide
    refine Bytes.holds_of_getElem? bound fun i small => ?_
    obtain rfl : i = 0 := Nat.lt_one_iff.1 small
    rw [Sample.zeros, Array.getElem?_replicate]
    rfl
  have places : overlapFont.Holds 0x10000 overlapLocations.toBytes := by
    refine ⟨Sample.zeros 0x10000, #[], ?_, Array.size_replicate⟩
    rw [overlapFont, Array.append_empty]
  have fits : overlapLocations.Representable := by
    intro _ offset mem
    simp only [overlapLocations, List.mem_toArray, List.mem_cons, List.not_mem_nil, or_false] at mem
    rcases mem with rfl | rfl | rfl | rfl <;> decide
  refine ⟨⟨⟨.header, 0, 0, 54⟩, 0, rfl, ?_, rfl⟩, ⟨.locations, 0, 0x10000, 8⟩, rfl, ?_⟩
  · exact (Bytes.holds_append_left _ _).trans flag
  · exact Locations.entries_of_holds fits places

theorem rebuilt_exact_overlap : ∃ rebuilt pieces,
    rebuildOutlines overlapFont overlapTable overlapLocations overlapGlyphs = .ok rebuilt ∧
      Pieces overlapFont overlapTable overlapLocations overlapGlyphs pieces ∧
        ¬ rebuilt.Exact pieces := by
  have size : (Sample.zeros 0x10000).size = 0x10000 := Array.size_replicate
  have kept (glyph : GlyphId) (listed : [(0 : GlyphId), 2].contains glyph)
      (span : overlapLocations.span? glyph = some (0, 0x10000)) :
      piece overlapFont overlapTable overlapLocations overlapGlyphs glyph.toNat =
        .ok (Sample.zeros 0x10000) := by
    refine piece_of_locates (Std.TreeSet.mem_ofList.2 listed) ⟨0, 0x10000, span, ?_, by decide, ?_⟩
    · rw [size]
      rfl
    · exact Bytes.holds_append_left _ _
  have dropped (index : Nat) (other : index ≠ 0 ∧ index ≠ 2) :
      piece overlapFont overlapTable overlapLocations overlapGlyphs index = .ok #[] := by
    refine piece_dropped fun glyph mem same => ?_
    rw [overlapGlyphs, Std.TreeSet.mem_ofList, List.contains_iff_mem] at mem
    simp only [List.mem_cons, List.not_mem_nil, or_false] at mem
    rcases mem with rfl | rfl
    · exact other.1 same.symm
    · exact other.2 same.symm
  have made : Pieces overlapFont overlapTable overlapLocations overlapGlyphs
      [Sample.zeros 0x10000, #[], Sample.zeros 0x10000, #[]] :=
    .cons (kept 0 (by decide) (by decide)) (.cons (dropped 1 (by decide))
      (.cons (kept 2 (by decide) (by decide)) (.cons (dropped 3 (by decide)) .nil)))
  have run := rebuildOutlines_eq_ok.2 ⟨_, made, rfl⟩
  obtain ⟨pieces, made', whole, exact, -⟩ := rebuilt_exact_iff overlap_located run
  refine ⟨_, pieces, run, made', fun places => ?_⟩
  have short := exact.1 places
  simp only [Bytes.concat_cons, Array.size_append, size] at short
  exact absurd short (by decide)

end

/-! ## Fonts of which every glyph is retained -/

/-- The outlines of a font follow one another from the start of their table up to `last`. -/
structure Gapless (data : Bytes) (table : TableRecord) (l : Locations) (last : UInt32) : Prop where
  ascending : l.Ascending
  first : l.offsets[0]? = some 0
  final : l.offsets.back? = some last
  inside : last ≤ table.length
  held : table.start + table.length.toNat ≤ data.size

section
variable {data : Bytes} {table : TableRecord} {l : Locations} {retained : GlyphSet}
  {pieces : List Bytes} {last offset : UInt32} {index : Nat} (gapless : Gapless data table l last)
include gapless

theorem Gapless.le_last (found : l.offsets[index]? = some offset) : offset ≤ last := by
  have bound := (Array.getElem?_eq_some_iff.1 found).1
  have final := gapless.final
  rw [Array.back?_eq_getElem?] at final
  rcases Nat.lt_or_eq_of_le (Nat.le_sub_one_of_lt bound) with before | rfl
  · exact gapless.ascending.le before found final
  · exact UInt32.le_of_eq (Option.some.inj (found.symm.trans final))

theorem Gapless.start_le (found : l.offsets[index]? = some offset) :
    table.start + offset.toNat ≤ data.size := by
  have le := UInt32.le_iff_toNat_le.1 (gapless.le_last found)
  have inside := UInt32.le_iff_toNat_le.1 gapless.inside
  have held := gapless.held
  omega

theorem Gapless.locates {g : GlyphId} (bound : g.toNat < l.count) :
    ∃ outline, l.Locates data table g outline := by
  obtain ⟨⟨start, stop⟩, span⟩ := Option.isSome_iff_exists.1 (Locations.span?_isSome.2 bound)
  obtain ⟨first, second⟩ := Locations.span?_eq_some.1 span
  have ordered := UInt32.le_iff_toNat_le.1 (gapless.ascending.le (Nat.lt_succ_self _) first second)
  have held := gapless.start_le second
  have bound : table.start + start.toNat + (stop.toNat - start.toNat) ≤ data.size := by omega
  refine ⟨_, start, stop, span, ?_, UInt32.le_trans (gapless.le_last second) gapless.inside,
    Bytes.holds_extract bound⟩
  simp only [Array.size_extract]
  omega

section
variable (all : ∀ g : GlyphId, g ∈ retained ↔ g.toNat < l.count) (few : l.count ≤ UInt16.size)
include all few

omit gapless in
theorem exists_retained (bound : index < l.count) : ∃ g ∈ retained, g.toNat = index := by
  have same : (UInt16.ofNat index).toNat = index :=
    UInt16.toNat_ofNat_of_lt' (Nat.lt_of_lt_of_le bound few)
  exact ⟨.ofNat index, (all _).2 (same.symm ▸ bound), same⟩

theorem Gapless.exists_pieces : ∃ pieces, Pieces data table l retained pieces := by
  have each (index : Nat) : ∃ bytes, piece data table l retained index = .ok bytes := by
    by_cases bound : index < l.count
    · obtain ⟨g, kept, rfl⟩ := exists_retained all few bound
      obtain ⟨outline, located⟩ := gapless.locates bound
      exact ⟨outline, piece_of_locates kept located⟩
    · exact ⟨#[], piece_dropped fun g kept same => bound (same ▸ (all g).1 kept)⟩
  obtain ⟨pieces, made, -⟩ := exists_mapM_eq_ok fun index
    (_ : index ∈ List.range l.offsets.size) => (each index).imp fun _ run => ⟨run, run⟩
  exact ⟨pieces, mapM_eq_ok.1 made⟩

variable (made : Pieces data table l retained pieces)
include made

/-- Each piece begins where the outline did. -/
theorem Gapless.place_eq (found : l.offsets[index]? = some offset) :
    Bytes.place pieces index = offset.toNat := by
  induction index generalizing offset with
  | zero =>
    cases gapless.first.symm.trans found
    rfl
  | succ index ih =>
    have bound := (Array.getElem?_eq_some_iff.1 found).1
    obtain ⟨g, kept, rfl⟩ := exists_retained all few (Nat.lt_sub_of_add_lt bound)
    obtain ⟨outline, part, run⟩ := made.getElem? (Nat.lt_of_succ_lt bound)
    obtain ⟨start, stop, span, size, -⟩ := locates_of_piece kept run
    obtain ⟨first, second⟩ := Locations.span?_eq_some.1 span
    cases second.symm.trans found
    rw [Bytes.place_succ part, ih first, size]

theorem Gapless.holds_piece {bytes : Bytes} (part : pieces[index]? = some bytes) :
    data.Holds (table.start + Bytes.place pieces index) bytes := by
  obtain ⟨bound, run⟩ := made.of_getElem? part
  by_cases counted : index < l.count
  · obtain ⟨g, kept, rfl⟩ := exists_retained all few counted
    obtain ⟨start, stop, span, -, -, holds⟩ := locates_of_piece kept run
    rwa [gapless.place_eq all few made (Locations.span?_eq_some.1 span).1]
  · -- No glyph has the last location: its piece is empty.
    cases run.symm.trans (piece_dropped fun g kept same => counted (same ▸ (all g).1 kept))
    have found := Array.getElem?_eq_getElem bound
    rw [gapless.place_eq all few made found]
    exact Bytes.holds_of_getElem? (gapless.start_le found) nofun

theorem Gapless.starts_eq_offsets : starts pieces = l.offsets := by
  apply Array.ext
  · simp [starts_eq, made.length_eq]
  · intro index _ bound
    simp [starts_eq, gapless.place_eq all few made (Array.getElem?_eq_getElem bound)]

theorem Gapless.concat_eq :
    Bytes.concat pieces = data.extract table.start (table.start + last.toNat) := by
  have start : table.start ≤ data.size := gapless.start_le gapless.first
  have parts := Bytes.holds_concat_of_parts start
    fun index bytes => gapless.holds_piece all few made
  have final := gapless.final
  rw [Array.back?_eq_getElem?] at final
  have bound := (Array.getElem?_eq_some_iff.1 final).1
  have whole : Bytes.place pieces (l.offsets.size - 1) = (Bytes.concat pieces).size :=
    made.place_last (by omega)
  rw [← parts.extract_eq, ← whole, gapless.place_eq all few made final]

end

/-- The outlines and the locations stay as they are when every glyph is retained. -/
theorem rebuildOutlines_all (all : ∀ g : GlyphId, g ∈ retained ↔ g.toNat < l.count)
    (few : l.count ≤ UInt16.size) : rebuildOutlines data table l retained =
      .ok ⟨data.extract table.start (table.start + last.toNat), l⟩ := by
  obtain ⟨pieces, made⟩ := gapless.exists_pieces all few
  rw [rebuildOutlines_eq_ok]
  exact ⟨pieces, made, by
    rw [gapless.concat_eq all few made, gapless.starts_eq_offsets all few made]⟩

end

theorem nestedFont_gapless :
    Gapless Sample.nestedFont Sample.nestedTable Sample.nestedLocations 50 where
  ascending := by decide
  first := by decide
  final := by decide
  inside := by decide
  held := by decide +kernel

theorem nestedFont_rebuilt_all :
    rebuildOutlines Sample.nestedFont Sample.nestedTable Sample.nestedLocations
        (.ofList [(0 : GlyphId), 1, 2, 3]) =
      .ok ⟨Sample.nestedOutlines, Sample.nestedLocations⟩ := by
  have all (g : GlyphId) : g ∈ Std.TreeSet.ofList [(0 : GlyphId), 1, 2, 3] ↔
      g.toNat < Sample.nestedLocations.count := by
    rw [Std.TreeSet.mem_ofList, List.contains_iff_mem,
      show Sample.nestedLocations.count = 4 from rfl]
    simp only [List.mem_cons, List.not_mem_nil, or_false, ← UInt16.toNat_inj, UInt16.reduceToNat]
    omega
  rw [rebuildOutlines_all nestedFont_gapless all (by decide)]
  have outlines : Sample.nestedFont.extract Sample.nestedTable.start
      (Sample.nestedTable.start + (50 : UInt32).toNat) = Sample.nestedOutlines := by
    decide +kernel
  rw [outlines]

end RebuiltOutlines

end FontSubset
