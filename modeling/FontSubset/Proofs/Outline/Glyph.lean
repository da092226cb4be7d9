import FontSubset.Outline.Glyph
import FontSubset.Proofs.Outline.Rebuild

/-!
# Glyphs as bytes

* `Glyph.readAt_transfer`: what a glyph is depends on the fields among its first bytes, as many as
  `Glyph.decisiveSize` says.
* `Glyph.read_of_locates`: two fonts with the same outline for a glyph read the same glyph, as long
  as all that is read of it lies within its outline (`Glyph.decodedSize`).
-/

namespace FontSubset

/-! ## Fields that two files have in common -/

namespace Bytes
variable {data data' : Bytes} {pos pos' size : Nat}

/-- The fields of two bytes among the first `size` bytes behind `pos` are found in the second file
at the same distance from `pos'`. -/
def SameFields (data data' : Bytes) (pos pos' size : Nat) : Prop :=
  ∀ offset field, offset + 2 ≤ size → data.Holds (pos + offset) (be16 field) →
    data'.Holds (pos' + offset) (be16 field)

theorem SameFields.mono {less : Nat} (same : SameFields data data' pos pos' size)
    (le : less ≤ size) : SameFields data data' pos pos' less :=
  fun offset field inside => same offset field (Nat.le_trans inside le)

theorem SameFields.behind {front : Nat} (same : SameFields data data' pos pos' (front + size)) :
    SameFields data data' (pos + front) (pos' + front) size := by
  intro offset field inside here
  rw [Nat.add_assoc] at here ⊢
  exact same (front + offset) field (by omega) here

theorem sameFields_of_holds {part : Bytes} (here : data.Holds pos part)
    (there : data'.Holds pos' part) : SameFields data data' pos pos' part.size :=
  fun _ _ inside field => there.trans (here.within field inside)

end Bytes

open Bytes

namespace Component

/-- The size of a record. -/
def size (c : Component) : Nat := 4 + trailing c.flags

def totalSize : List Component → Nat
  | [] => 0
  | c :: rest => c.size + totalSize rest

/-- How many bytes of the records tell what they are: the arguments of the last one do not. -/
def decisiveSize : List Component → Nat
  | [] => 0
  | [_] => 4
  | c :: next :: rest => c.size + decisiveSize (next :: rest)

theorem decisiveSize_le_totalSize (records : List Component) :
    decisiveSize records ≤ totalSize records := by
  fun_induction decisiveSize records with
  | case1 => exact Nat.le_refl 0
  | case2 c => exact Nat.le_add_right 4 _
  | case3 c next rest ih => exact Nat.add_le_add_left ih c.size

/-- The flags and the glyph of a record lie at `pos`. -/
structure At (data : Bytes) (pos : Nat) (c : Component) : Prop where
  flags : data.Holds pos (be16 c.flags)
  glyph : data.Holds (pos + 2) (be16 c.glyph)
  supported : supported c.flags

/-- The records lie one after another from `pos` on, and all but the last one announce another. -/
inductive Spelled (data : Bytes) : Nat → List Component → Prop
  | last {pos : Nat} {c : Component} (here : At data pos c) (last : ¬ has c.flags moreFollow) :
    Spelled data pos [c]
  | more {pos : Nat} {c : Component} {rest : List Component} (here : At data pos c)
    (more : has c.flags moreFollow) (after : Spelled data (pos + c.size) rest) :
    Spelled data pos (c :: rest)

section
variable {data data' : Bytes} {glyph : GlyphId} {pos pos' : Nat} {flags : UInt16}
  {records : List Component}

theorem at_of_read (found : data.u16At pos = .ok flags) (bound : pos + 4 ≤ data.size)
    (known : supported flags) : At data pos ⟨flags, UInt16.ofNat (data.number (pos + 2) 2)⟩ := by
  refine ⟨Bytes.u16At_eq_ok.1 found, Bytes.u16At_eq_ok.1 ?_, known⟩
  rw [Bytes.u16At, Bytes.numberAt, if_pos bound]
  rfl

theorem At.readAll {c : Component} (here : At data pos c) : readAll data glyph pos =
    if has c.flags moreFollow then (readAll data glyph (pos + c.size)).map (c :: ·)
    else .ok [c] := by
  have bound : pos + 4 ≤ data.size := here.glyph.size_le
  have second := Bytes.u16At_eq_ok.2 here.glyph
  rw [Bytes.u16At, Bytes.numberAt, if_pos bound] at second
  rw [Component.readAll, Bytes.u16At_eq_ok.2 here.flags]
  simp only [dif_pos bound, Except.ok.inj second, here.supported, not_true, if_false, size,
    Nat.add_assoc]

theorem readAll_eq_ok : readAll data glyph pos = .ok records ↔ Spelled data pos records := by
  constructor
  · intro run
    fun_induction readAll data glyph pos generalizing records with
    | case1 => cases run
    | case2 => cases run
    | case3 pos flags found bound component known more =>
      rename_i ih
      obtain ⟨rest, others, rfl⟩ := map_eq_ok.1 run
      have after := ih others
      rw [Nat.add_assoc] at after
      exact .more (at_of_read found bound (by simpa using known)) more after
    | case4 pos flags found bound component known =>
      rename_i last
      cases run
      exact .last (at_of_read found bound (by simpa using known)) last
    | case5 => cases run
  · intro spelled
    induction spelled with
    | last here last => rw [here.readAll, if_neg last]
    | more here more _ ih =>
      rw [here.readAll, if_pos more, ih]
      rfl

theorem At.transfer {c : Component} (record : At data pos c)
    (same : SameFields data data' pos pos' 4) : At data' pos' c :=
  ⟨same 0 _ (by decide) record.flags, same 2 _ (Nat.le_refl 4) record.glyph, record.supported⟩

theorem Spelled.decisiveSize_cons {c : Component} (after : Spelled data pos records) :
    decisiveSize (c :: records) = c.size + decisiveSize records := by
  cases after <;> rfl

theorem Spelled.transfer (spelled : Spelled data pos records)
    (same : SameFields data data' pos pos' (decisiveSize records)) :
    Spelled data' pos' records := by
  induction spelled generalizing pos' with
  | last record last => exact .last (record.transfer same) last
  | more record more after ih =>
    rw [after.decisiveSize_cons] at same
    have first := same.mono (Nat.le_add_right_of_le (Nat.le_add_right 4 _))
    exact .more (record.transfer first) more (ih same.behind)

theorem Spelled.decisiveSize_le (spelled : Spelled data pos records) :
    pos + decisiveSize records ≤ data.size := by
  induction spelled with
  | last record => exact record.glyph.size_le
  | more record more after ih =>
    rw [after.decisiveSize_cons]
    omega

end

end Component

namespace Glyph

/-- How many bytes of the outline of a glyph are read: the first field of a simple glyph; the
header and all records of a composite one. -/
def decodedSize : Glyph → Nat
  | empty => 0
  | simple _ => 2
  | composite records => headSize + Component.totalSize records

/-- How many of these bytes tell what the glyph is. -/
def decisiveSize : Glyph → Nat
  | empty => 0
  | simple _ => 2
  | composite records => headSize + Component.decisiveSize records

section
variable {data data' outline : Bytes} {g : GlyphId} {pos pos' : Nat} {glyph : Glyph}
  {l l' : Locations} {table table' : TableRecord}

theorem decisiveSize_le_decodedSize (glyph : Glyph) :
    glyph.decisiveSize ≤ glyph.decodedSize := by
  cases glyph with
  | composite records => exact Nat.add_le_add_left (Component.decisiveSize_le_totalSize records) _
  | _ => exact Nat.le_refl _

theorem readAt_eq_ok : readAt data g pos = .ok glyph ↔ ∃ contours,
    data.u16At pos = .ok contours ∧ (contours < 0x8000 ∧ glyph = .simple contours.toNat ∨
      ¬ contours < 0x8000 ∧ ∃ records, Component.Spelled data (pos + headSize) records ∧
        glyph = .composite records) := by
  simp only [readAt, bind_eq_ok, eq_comm (a := glyph)]
  refine exists_congr fun contours => and_congr_right fun _ => ?_
  split
  · rename_i few
    simp only [pure_eq_ok, few, not_true, true_and, false_and, or_false]
  · rename_i many
    simp only [bind_eq_ok, pure_eq_ok, Component.readAll_eq_ok, many, not_false_iff, true_and,
      false_and, false_or]

theorem readAt_transfer (run : readAt data g pos = .ok glyph)
    (same : SameFields data data' pos pos' glyph.decisiveSize) :
    readAt data' g pos' = .ok glyph := by
  have field {contours : UInt16} (found : data.u16At pos = .ok contours)
      (bound : 2 ≤ glyph.decisiveSize) : data'.u16At pos' = .ok contours :=
    u16At_eq_ok.2 (same 0 contours bound (u16At_eq_ok.1 found))
  obtain ⟨contours, found, ⟨few, rfl⟩ | ⟨many, records, spelled, rfl⟩⟩ := readAt_eq_ok.1 run
  · exact readAt_eq_ok.2 ⟨contours, field found (Nat.le_refl 2), .inl ⟨few, rfl⟩⟩
  · have first : 2 ≤ headSize + Component.decisiveSize records :=
      Nat.le_add_right_of_le (by decide)
    exact readAt_eq_ok.2 ⟨contours, field found first,
      .inr ⟨many, records, spelled.transfer same.behind, rfl⟩⟩

theorem readAt_of_holds (run : readAt data g pos = .ok glyph) (here : data.Holds pos outline)
    (there : data'.Holds pos' outline) (inside : glyph.decodedSize ≤ outline.size) :
    readAt data' g pos' = .ok glyph :=
  readAt_transfer run ((sameFields_of_holds here there).mono
    (Nat.le_trans (decisiveSize_le_decodedSize glyph) inside))

/-- A glyph that has a place in the outline table is read there. -/
theorem exists_read_eq (here : l.Locates data table g outline) : ∃ pos, data.Holds pos outline ∧
    read data table.start l g = if outline.size = 0 then .ok .empty else readAt data g pos := by
  obtain ⟨start, stop, span, size, -, holds⟩ := here
  refine ⟨table.start + start.toNat, holds, ?_⟩
  rw [read, span]
  by_cases blank : outline.size = 0
  · have same : start = stop := by
      rw [← UInt32.toNat_inj]
      omega
    simp [same, blank]
  · have apart : start ≠ stop := by
      rw [ne_eq, ← UInt32.toNat_inj]
      omega
    have ordered : ¬ stop < start := by
      rw [UInt32.lt_iff_toNat_lt]
      omega
    simp [apart, ordered, blank]

/-- A glyph is read from its outline, wherever that lies. -/
theorem read_of_locates (run : read data table.start l g = .ok glyph)
    (here : l.Locates data table g outline) (there : l'.Locates data' table' g outline)
    (inside : glyph.decodedSize ≤ outline.size) : read data' table'.start l' g = .ok glyph := by
  obtain ⟨pos, holds, eq⟩ := exists_read_eq here
  obtain ⟨pos', holds', eq'⟩ := exists_read_eq there
  rw [eq] at run
  rw [eq']
  split at run
  · rename_i blank
    rwa [if_pos blank]
  · rename_i blank
    rw [if_neg blank]
    exact readAt_of_holds run holds holds' inside

end

end Glyph

end FontSubset
