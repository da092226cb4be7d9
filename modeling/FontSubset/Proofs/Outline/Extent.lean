import FontSubset.Proofs.Outline.Glyph
import FontSubset.Sample.Outline

/-!
# How far a glyph is read

* `Glyph.read_confined_iff`: a glyph is read from its first bytes, as many as its records take. Its
  span tells what it is just when they lie within the span.

Of the span itself only the start counts. Records that run past its end are taken from the outline
that follows (`Glyph.read_confined_overrun`).
-/

namespace FontSubset

namespace Bytes
variable {data data' part : Bytes} {start stop pos : Nat}

/-- The two files have the same bytes from `start` up to `stop`. -/
def Agree (data data' : Bytes) (start stop : Nat) : Prop :=
  ∀ i, start ≤ i → i < stop → data'[i]? = data[i]?

theorem Agree.mono {sooner : Nat} (agree : Agree data data' start stop) (le : sooner ≤ stop) :
    Agree data data' start sooner :=
  fun i behind before => agree i behind (Nat.lt_of_lt_of_le before le)

theorem Agree.holds (agree : Agree data data' start stop) (behind : start ≤ pos)
    (before : pos + part.size ≤ stop) (some : 0 < part.size) (here : data.Holds pos part) :
    data'.Holds pos part := by
  have same : ∀ i < part.size, data'[pos + i]? = part[i]? := fun i bound => by
    rw [agree (pos + i) (by omega) (by omega), here.getElem? bound]
  refine holds_of_getElem? ?_ same
  have last : part.size - 1 < part.size := Nat.sub_one_lt (Nat.ne_of_gt some)
  have found := (same _ last).trans (Array.getElem?_eq_getElem last)
  have := (Array.getElem?_eq_some_iff.1 found).1
  omega

theorem Agree.sameFields {size : Nat} (agree : Agree data data' start (start + size)) :
    SameFields data data' start start size := by
  intro offset field inside
  refine agree.holds (Nat.le_add_right _ _) ?_ (by simp)
  rw [size_be16]
  omega

theorem agree_extract (data : Bytes) (start stop : Nat) :
    Agree data (data.extract 0 stop) start stop := by
  intro i _ before
  rw [Array.getElem?_extract, Nat.zero_add]
  split
  · rfl
  · rw [Array.getElem?_eq_none (by omega)]

end Bytes

open Bytes

namespace Glyph

section
variable {data : Bytes} {outlines pos : Nat} {l : Locations} {g : GlyphId} {glyph : Glyph}
  {start stop : UInt32}

theorem decisiveSize_le_size (run : readAt data g pos = .ok glyph) :
    pos + glyph.decisiveSize ≤ data.size := by
  obtain ⟨contours, found, ⟨few, rfl⟩ | ⟨many, records, spelled, rfl⟩⟩ := readAt_eq_ok.1 run
  · exact (u16At_eq_ok.1 found).size_le
  · have inside := spelled.decisiveSize_le
    rw [decisiveSize]
    omega

/-- Of a span that is not empty, only the start decides what is read. -/
theorem read_of_span (data : Bytes) (outlines : Nat) (span : l.span? g = some (start, stop))
    (filled : start < stop) : read data outlines l g = readAt data g (outlines + start.toNat) := by
  have ordered : ¬ stop < start := UInt32.not_lt.2 (UInt32.le_of_lt filled)
  rw [read, span]
  simp [UInt32.ne_of_lt filled, ordered]

theorem lt_of_read (run : read data outlines l g = .ok glyph)
    (span : l.span? g = some (start, stop)) (filled : start ≠ stop) : start < stop := by
  rw [read, span] at run
  dsimp only at run
  rw [if_neg filled] at run
  split at run
  · cases run
  · rename_i ordered
    exact UInt32.lt_of_le_of_ne (UInt32.not_lt.1 ordered) filled

theorem read_confined_iff (run : read data outlines l g = .ok glyph)
    (span : l.span? g = some (start, stop)) (filled : start ≠ stop) :
    (∀ data', Agree data data' (outlines + start.toNat)
        (outlines + start.toNat + glyph.decisiveSize) → read data' outlines l g = .ok glyph) ∧
      ((∀ data', Agree data data' (outlines + start.toNat) (outlines + stop.toNat) →
          read data' outlines l g = .ok glyph) ↔
        start.toNat + glyph.decisiveSize ≤ stop.toNat) := by
  have ordered := lt_of_read run span filled
  have here {data' : Bytes} := read_of_span data' outlines span ordered
  rw [here] at run
  have enough (data' : Bytes) (agree : Agree data data' (outlines + start.toNat)
      (outlines + start.toNat + glyph.decisiveSize)) : read data' outlines l g = .ok glyph := by
    rw [here]
    exact readAt_transfer run agree.sameFields
  refine ⟨enough, fun confined => ?_, fun inside data' agree => ?_⟩
  · -- The file that ends with the span agrees on it, and has all that was read.
    have cut := confined _ (agree_extract data _ _)
    rw [here] at cut
    have bound := decisiveSize_le_size cut
    rw [Array.size_extract] at bound
    omega
  · exact enough data' (agree.mono (by omega))

end

/-- The outline of glyph 0 ends behind its bounding box; the record that is missing is found in that
of glyph 1. -/
def overrunOutlines : Bytes :=
  Sample.fields16 [0xFFFF, 0, 0, 0, 0] ++ Sample.component 0 1

def overrunLocations : Locations :=
  ⟨.short, #[0, 10, 16]⟩

theorem read_confined_overrun :
    read overrunOutlines 0 overrunLocations 0 = .ok (.composite [⟨0, 1⟩]) ∧
      overrunLocations.span? 0 = some (0, 10) ∧
        ¬ ∀ data', Agree overrunOutlines data' 0 10 →
          read data' 0 overrunLocations 0 = .ok (.composite [⟨0, 1⟩]) := by
  have run : read overrunOutlines 0 overrunLocations 0 = .ok (.composite [⟨0, 1⟩]) := by
    decide +kernel
  have span : overrunLocations.span? 0 = some (0, 10) := by decide
  refine ⟨run, span, fun confined => ?_⟩
  have inside := (read_confined_iff run span (by decide)).2.1 confined
  exact absurd inside (by decide)

end Glyph

end FontSubset
