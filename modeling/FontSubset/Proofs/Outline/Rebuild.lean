import FontSubset.Proofs.Outline.Locations
import FontSubset.Outline.Subset

/-!
# Rebuilt outlines

The outline table of a subset is a concatenation of pieces, one per location: the bytes of a
retained glyph, or nothing. `rebuilt_locates` finds every retained outline in it, and
`rebuilt_dropped` says that the other spans are empty.

No piece is longer than the span it replaces. While the source locations ascend, each piece
therefore begins no later than the old outline did (`place_le`), so offsets never wrap around, and
even offsets stay even.
-/

namespace FontSubset

/-- The span of the glyph lies within the outline table and holds `outline`. -/
def Locations.Locates (l : Locations) (data : Bytes) (table : TableRecord) (glyph : GlyphId)
    (outline : Bytes) : Prop :=
  ∃ start stop, l.span? glyph = some (start, stop) ∧ start.toNat + outline.size = stop.toNat ∧
    stop ≤ table.length ∧ data.Holds (table.start + start.toNat) outline

theorem Locations.span?_eq_some {l : Locations} {glyph : GlyphId} {start stop : UInt32} :
    l.span? glyph = some (start, stop) ↔
      l.offsets[glyph.toNat]? = some start ∧ l.offsets[glyph.toNat + 1]? = some stop := by
  simp only [span?, Option.bind_eq_bind, Option.bind_eq_some_iff, Option.pure_def,
    Option.some.injEq, Prod.mk.injEq]
  constructor
  · rintro ⟨_, first, _, second, rfl, rfl⟩
    exact ⟨first, second⟩
  · rintro ⟨first, second⟩
    exact ⟨_, first, _, second, rfl, rfl⟩

theorem Locations.Ascending.le {l : Locations} (ascending : l.Ascending) {i j : Nat}
    {a b : UInt32} (lt : i < j) (first : l.offsets[i]? = some a)
    (second : l.offsets[j]? = some b) : a ≤ b := by
  obtain ⟨boundA, rfl⟩ := Array.getElem?_eq_some_iff.1 first
  obtain ⟨boundB, rfl⟩ := Array.getElem?_eq_some_iff.1 second
  exact List.pairwise_iff_getElem.1 ascending i j boundA boundB lt

namespace RebuiltOutlines

section
variable {data : Bytes} {table : TableRecord} {locations : Locations} {retained : GlyphSet}
  {pieces : List Bytes} {index : Nat} {bytes : Bytes}

/-! ## Pieces -/

theorem piece_dropped (dropped : ∀ glyph ∈ retained, glyph.toNat ≠ index) :
    piece data table locations retained index = .ok #[] := by
  rw [piece, if_neg]
  rintro ⟨bound, kept⟩
  exact dropped _ kept (UInt16.toNat_ofNat_of_lt' bound)

theorem locates_of_piece {glyph : GlyphId} (kept : glyph ∈ retained)
    (run : piece data table locations retained glyph.toNat = .ok bytes) :
    locations.Locates data table glyph bytes := by
  rw [piece, UInt16.ofNat_toNat, if_pos ⟨glyph.toNat_lt, kept⟩] at run
  cases span : locations.span? glyph with
  | none => rw [span] at run; cases run
  | some range =>
    obtain ⟨start, stop⟩ := range
    rw [span] at run
    dsimp only at run
    split at run
    · cases run
    · rename_i ordered
      split at run
      · cases run
      · rename_i inside
        obtain ⟨holds, size⟩ := Bytes.slice_eq_ok.1 run
        have le : start.toNat ≤ stop.toNat := Nat.le_of_not_lt ordered
        exact ⟨start, stop, span, by omega, UInt32.not_lt.1 inside, holds⟩

theorem piece_of_locates {glyph : GlyphId} (kept : glyph ∈ retained)
    (located : locations.Locates data table glyph bytes) :
    piece data table locations retained glyph.toNat = .ok bytes := by
  obtain ⟨start, stop, span, size, inside, holds⟩ := located
  have ordered : ¬ stop < start := by
    rw [UInt32.lt_iff_toNat_lt]
    omega
  rw [piece, UInt16.ofNat_toNat, if_pos ⟨glyph.toNat_lt, kept⟩, span]
  dsimp only
  rw [if_neg ordered, if_neg (UInt32.not_lt.2 inside)]
  exact Bytes.slice_eq_ok.2 ⟨holds, by omega⟩

/-- A piece that is not empty fills the span of a glyph. -/
theorem piece_fills (run : piece data table locations retained index = .ok bytes) :
    bytes = #[] ∨ ∃ start stop, locations.offsets[index]? = some start ∧
      locations.offsets[index + 1]? = some stop ∧ start.toNat + bytes.size = stop.toNat := by
  by_cases kept : ∃ glyph ∈ retained, glyph.toNat = index
  · obtain ⟨glyph, mem, rfl⟩ := kept
    obtain ⟨start, stop, span, size, -⟩ := locates_of_piece mem run
    obtain ⟨first, second⟩ := Locations.span?_eq_some.1 span
    exact .inr ⟨start, stop, first, second, size⟩
  · have empty : piece data table locations retained index = .ok #[] :=
      piece_dropped (by simpa using kept)
    rw [run] at empty
    exact .inl (Except.ok.inj empty)

/-! ## All pieces -/

variable (data table locations retained) in
/-- One piece per location, in order. -/
def Pieces (pieces : List Bytes) : Prop :=
  List.Forall₂ (fun index bytes => piece data table locations retained index = .ok bytes)
    (List.range locations.offsets.size) pieces

theorem rebuildOutlines_eq_ok {rebuilt : RebuiltOutlines} :
    rebuildOutlines data table locations retained = .ok rebuilt ↔
      ∃ pieces, Pieces data table locations retained pieces ∧
        rebuilt = ⟨Bytes.concat pieces, ⟨locations.format, starts pieces⟩⟩ := by
  simp only [rebuildOutlines, bind_eq_ok, mapM_eq_ok, pure_eq_ok, Pieces, eq_comm (a := rebuilt)]

/-- Two fonts in which the retained glyphs have the same outlines are rebuilt alike. -/
theorem rebuildOutlines_of_locates {data' : Bytes} {table' : TableRecord} {locations' : Locations}
    (format : locations'.format = locations.format)
    (size : locations'.offsets.size = locations.offsets.size)
    (same : ∀ glyph ∈ retained, ∃ outline, locations.Locates data table glyph outline ∧
      locations'.Locates data' table' glyph outline) :
    ∃ rebuilt, rebuildOutlines data table locations retained = .ok rebuilt ∧
      rebuildOutlines data' table' locations' retained = .ok rebuilt := by
  have each (index : Nat) : ∃ bytes, piece data table locations retained index = .ok bytes ∧
      piece data' table' locations' retained index = .ok bytes := by
    by_cases kept : ∃ glyph ∈ retained, glyph.toNat = index
    · obtain ⟨glyph, mem, rfl⟩ := kept
      obtain ⟨outline, here, there⟩ := same glyph mem
      exact ⟨outline, piece_of_locates mem here, piece_of_locates mem there⟩
    · have dropped : ∀ glyph ∈ retained, glyph.toNat ≠ index := by simpa using kept
      exact ⟨#[], piece_dropped dropped, piece_dropped dropped⟩
  obtain ⟨pieces, made, made'⟩ := exists_mapM_eq_ok fun index
    (_ : index ∈ List.range locations.offsets.size) => each index
  refine ⟨⟨Bytes.concat pieces, ⟨locations.format, starts pieces⟩⟩, ?_, ?_⟩
  · rw [rebuildOutlines, made]
    rfl
  · rw [rebuildOutlines, size, format, made']
    rfl

theorem starts_eq (pieces : List Bytes) : starts pieces =
    ((List.range pieces.length).map fun i => UInt32.ofNat (Bytes.place pieces i)).toArray := by
  suffices h : ∀ (offsets : Array UInt32) (next : Nat),
      (pieces.foldl (fun (offsets, next) piece =>
        (offsets.push (UInt32.ofNat next), next + piece.size)) (offsets, next)).1 = offsets ++
          ((List.range pieces.length).map fun i =>
            UInt32.ofNat (next + Bytes.place pieces i)).toArray by
    simpa [starts] using h #[] 0
  induction pieces with
  | nil => simp
  | cons piece rest ih =>
    intro offsets next
    rw [List.foldl_cons, ih, List.length_cons, List.range_succ_eq_map]
    simp [Function.comp_def, Bytes.place_cons, Nat.add_assoc]

section
variable (made : Pieces data table locations retained pieces)
include made

theorem Pieces.length_eq : pieces.length = locations.offsets.size := by
  simpa using (List.Forall₂.length_eq made).symm

theorem Pieces.getElem? (bound : index < locations.offsets.size) :
    ∃ bytes, pieces[index]? = some bytes ∧
      piece data table locations retained index = .ok bytes := by
  have bound' : index < pieces.length := made.length_eq ▸ bound
  refine ⟨pieces[index], List.getElem?_eq_getElem bound', ?_⟩
  simpa using (List.forall₂_iff_get.1 made).2 index (by simpa using bound) bound'

theorem Pieces.of_getElem? (part : pieces[index]? = some bytes) :
    index < locations.offsets.size ∧ piece data table locations retained index = .ok bytes := by
  have bound := (List.getElem?_eq_some_iff.1 part).1
  rw [made.length_eq] at bound
  obtain ⟨_, part', run⟩ := made.getElem? bound
  cases part.symm.trans part'
  exact ⟨bound, run⟩

/-- Each piece begins no later than the outline did. -/
theorem Pieces.place_le (ascending : locations.Ascending) {start : UInt32}
    (found : locations.offsets[index]? = some start) : Bytes.place pieces index ≤ start.toNat := by
  induction index generalizing start with
  | zero => exact Nat.zero_le _
  | succ index ih =>
    have bound := (Array.getElem?_eq_some_iff.1 found).1
    have before := Array.getElem?_eq_getElem (Nat.lt_of_succ_lt bound)
    obtain ⟨bytes, part, run⟩ := made.getElem? (Nat.lt_of_succ_lt bound)
    have ordered := UInt32.le_iff_toNat_le.1 (ascending.le (Nat.lt_succ_self _) before found)
    have first := ih before
    rw [Bytes.place_succ part]
    rcases piece_fills run with rfl | ⟨start', stop, here, next, size⟩
    · exact Nat.le_trans first ordered
    · cases before.symm.trans here
      cases found.symm.trans next
      omega

theorem Pieces.place_even (fits : locations.Representable) (short : locations.format = .short)
    (index : Nat) : Bytes.place pieces index % 2 = 0 := by
  induction index with
  | zero => rfl
  | succ index ih =>
    cases part : pieces[index]? with
    | none =>
      rw [Bytes.place, List.take_add_one, part]
      simpa [Bytes.place] using ih
    | some bytes =>
      rw [Bytes.place_succ part]
      rcases piece_fills (made.of_getElem? part).2 with rfl | ⟨start, stop, first, second, size⟩
      · exact ih
      · have even := (fits short start (Array.mem_of_getElem? first)).1
        have even' := (fits short stop (Array.mem_of_getElem? second)).1
        omega

end

theorem Pieces.getElem?_starts_of_lt (made : Pieces data table locations retained pieces)
    (bound : index < locations.offsets.size) (fits : Bytes.place pieces index < UInt32.size) :
    ∃ offset, (starts pieces)[index]? = some offset ∧
      offset.toNat = Bytes.place pieces index := by
  refine ⟨UInt32.ofNat (Bytes.place pieces index), ?_, UInt32.toNat_ofNat_of_lt' fits⟩
  simp [starts_eq, made.length_eq, bound]

theorem Pieces.getElem?_starts (made : Pieces data table locations retained pieces)
    (ascending : locations.Ascending) (bound : index < locations.offsets.size) :
    ∃ offset, (starts pieces)[index]? = some offset ∧
      offset.toNat = Bytes.place pieces index :=
  made.getElem?_starts_of_lt bound (Nat.lt_of_le_of_lt
    (made.place_le ascending (Array.getElem?_eq_getElem bound)) (UInt32.toNat_lt _))

/-! ## The new locations -/

variable {rebuilt : RebuiltOutlines}

section
variable (run : rebuildOutlines data table locations retained = .ok rebuilt)
include run

theorem rebuilt_format : rebuilt.locations.format = locations.format := by
  obtain ⟨pieces, -, rfl⟩ := rebuildOutlines_eq_ok.1 run
  rfl

theorem rebuilt_size : rebuilt.locations.offsets.size = locations.offsets.size := by
  obtain ⟨pieces, made, rfl⟩ := rebuildOutlines_eq_ok.1 run
  simp [starts_eq, made.length_eq]

theorem rebuilt_ascending (ascending : locations.Ascending) : rebuilt.locations.Ascending := by
  have size := rebuilt_size run
  obtain ⟨pieces, made, rfl⟩ := rebuildOutlines_eq_ok.1 run
  refine List.pairwise_iff_getElem.2 fun i j boundI boundJ lt => ?_
  rw [Array.length_toList, size] at boundI boundJ
  obtain ⟨a, first, placeA⟩ := made.getElem?_starts ascending boundI
  obtain ⟨b, second, placeB⟩ := made.getElem?_starts ascending boundJ
  obtain ⟨_, rfl⟩ := Array.getElem?_eq_some_iff.1 first
  obtain ⟨_, rfl⟩ := Array.getElem?_eq_some_iff.1 second
  simp only [Array.getElem_toList, UInt32.le_iff_toNat_le, placeA, placeB]
  exact Bytes.place_mono pieces (Nat.le_of_lt lt)

theorem rebuilt_representable (ascending : locations.Ascending)
    (fits : locations.Representable) : rebuilt.locations.Representable := by
  have size := rebuilt_size run
  obtain ⟨pieces, made, rfl⟩ := rebuildOutlines_eq_ok.1 run
  intro short offset mem
  obtain ⟨index, bound, rfl⟩ := Array.mem_iff_getElem.1 mem
  rw [size] at bound
  obtain ⟨offset, found, place⟩ := made.getElem?_starts ascending bound
  obtain ⟨_, rfl⟩ := Array.getElem?_eq_some_iff.1 found
  have below := (fits short _ (Array.getElem_mem bound)).2
  have le := made.place_le ascending (Array.getElem?_eq_getElem bound)
  rw [place]
  exact ⟨made.place_even fits short index, Nat.lt_of_le_of_lt le below⟩

theorem rebuilt_locates (ascending : locations.Ascending) {glyph : GlyphId}
    (kept : glyph ∈ retained) (bound : glyph.toNat < locations.count) :
    ∃ outline start stop, locations.Locates data table glyph outline ∧
      rebuilt.locations.span? glyph = some (start, stop) ∧
        start.toNat + outline.size = stop.toNat ∧ stop.toNat ≤ rebuilt.outlines.size ∧
          rebuilt.outlines.Holds start.toNat outline := by
  obtain ⟨pieces, made, rfl⟩ := rebuildOutlines_eq_ok.1 run
  have next : glyph.toNat + 1 < locations.offsets.size := Nat.add_lt_of_lt_sub bound
  have here := Nat.lt_of_succ_lt next
  obtain ⟨outline, part, piece⟩ := made.getElem? here
  obtain ⟨start, first, placeStart⟩ := made.getElem?_starts ascending here
  obtain ⟨stop, second, placeStop⟩ := made.getElem?_starts ascending next
  have holds := Bytes.holds_concat part
  have placeNext := Bytes.place_succ part
  refine ⟨outline, start, stop, locates_of_piece kept piece,
    Locations.span?_eq_some.2 ⟨first, second⟩, by omega, ?_, by rwa [placeStart]⟩
  have := holds.size_le
  dsimp only
  omega

/-- A location that no retained glyph has is the location of the next one. -/
theorem rebuilt_dropped (ascending : locations.Ascending) {index : Nat} {start stop : UInt32}
    (dropped : ∀ glyph ∈ retained, glyph.toNat ≠ index)
    (first : rebuilt.locations.offsets[index]? = some start)
    (second : rebuilt.locations.offsets[index + 1]? = some stop) : start = stop := by
  have size := rebuilt_size run
  obtain ⟨pieces, made, rfl⟩ := rebuildOutlines_eq_ok.1 run
  have bound := (Array.getElem?_eq_some_iff.1 second).1
  rw [size] at bound
  obtain ⟨_, part, piece⟩ := made.getElem? (Nat.lt_of_succ_lt bound)
  cases (piece_dropped dropped).symm.trans piece
  obtain ⟨a, foundA, placeA⟩ := made.getElem?_starts ascending (Nat.lt_of_succ_lt bound)
  obtain ⟨b, foundB, placeB⟩ := made.getElem?_starts ascending bound
  cases first.symm.trans foundA
  cases second.symm.trans foundB
  rw [← UInt32.toNat_inj, placeA, placeB, Bytes.place_succ part]
  rfl

end

end

end RebuiltOutlines

end FontSubset
