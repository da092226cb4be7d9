import FontSubset.Proofs.Outline.Extent

/-!
# Composites as they are laid out

* `Glyph.read_layout`: the components of a composite are read as they were laid out, if their flags
  are supported; else the first one that is not is reported.

The size of a record depends on its flags, so the induction over the records has to find each of
them right behind the one before (`Component.Layout.readAll_concat`).
-/

namespace FontSubset

namespace Component

def argumentSize (flags : UInt16) : Nat :=
  if has flags wordArguments then 4 else 2

def transformSize (flags : UInt16) : Nat :=
  (if has flags oneScale then 2 else 0) + (if has flags twoScales then 4 else 0) +
    if has flags matrix then 8 else 0

theorem trailing_of_supported {flags : UInt16} (known : supported flags) :
    trailing flags = argumentSize flags + transformSize flags := by
  have single : transforms flags ≤ 1 := (of_decide_eq_true known).2
  unfold trailing argumentSize transformSize
  congr 1
  by_cases one : has flags oneScale <;> by_cases two : has flags twoScales <;>
    by_cases four : has flags matrix <;> simp_all [transforms]

/-- A record with the bytes of its arguments and of its transform. How long they are is settled
only for flags that are supported. -/
structure Layout where
  component : Component
  arguments : Bytes
  transform : Bytes
  arguments_size : supported component.flags → arguments.size = argumentSize component.flags
  transform_size : supported component.flags → transform.size = transformSize component.flags

namespace Layout

def toBytes (r : Layout) : Bytes :=
  be16 r.component.flags ++ be16 r.component.glyph ++ r.arguments ++ r.transform

theorem size_toBytes {r : Layout} (known : supported r.component.flags) :
    r.toBytes.size = r.component.size := by
  unfold toBytes Component.size
  rw [trailing_of_supported known, ← r.arguments_size known, ← r.transform_size known]
  simp only [Array.size_append, Bytes.size_be16]
  omega

/-- All records but the last announce another one. -/
structure Linked (records : List Layout) : Prop where
  more : ∀ r ∈ records.dropLast, has r.component.flags moreFollow
  last : ∀ r ∈ records.getLast?, ¬ has r.component.flags moreFollow

def unsupported? (records : List Layout) : Option Layout :=
  records.find? fun r => ¬ supported r.component.flags

section
variable {data : Bytes} {pos : Nat} {glyph : GlyphId} {r : Layout} {records : List Layout}

theorem fields_of_holds (here : data.Holds pos r.toBytes) :
    data.Holds pos (be16 r.component.flags) ∧ data.Holds (pos + 2) (be16 r.component.glyph) := by
  unfold toBytes at here
  obtain ⟨⟨⟨flags, glyph⟩, _⟩, _⟩ := by simpa only [Bytes.holds_append_iff] using here
  exact ⟨flags, glyph⟩

theorem at_of_holds (here : data.Holds pos r.toBytes) (known : supported r.component.flags) :
    At data pos r.component :=
  ⟨(fields_of_holds here).1, (fields_of_holds here).2, known⟩

theorem readAll_of_unsupported (here : data.Holds pos r.toBytes)
    (unknown : ¬ supported r.component.flags) :
    readAll data glyph pos = .error (.unsupportedComposite glyph r.component.flags) := by
  obtain ⟨flags, second⟩ := fields_of_holds here
  have bound : pos + 4 ≤ data.size := second.size_le
  rw [readAll, Bytes.u16At_eq_ok.2 flags]
  simp only [dif_pos bound, if_pos unknown]

theorem unsupported?_eq_none (known : ∀ r ∈ records, supported r.component.flags) :
    unsupported? records = none := by
  simpa [unsupported?] using known

theorem unsupported?_append {after : List Layout}
    (known : ∀ r ∈ records, supported r.component.flags) (unknown : ¬ supported r.component.flags) :
    unsupported? (records ++ r :: after) = some r := by
  have before := unsupported?_eq_none known
  unfold unsupported? at before ⊢
  rw [List.find?_append, before, Option.none_or, List.find?_cons_of_pos (by simpa using unknown)]

theorem unsupported?_cons (known : supported r.component.flags) :
    unsupported? (r :: records) = unsupported? records := by
  simp [unsupported?, known]

theorem readAll_concat (linked : Linked records) (some : records ≠ [])
    (here : data.Holds pos (Bytes.concat (records.map toBytes))) :
    readAll data glyph pos = (unsupported? records).elim (.ok (records.map (·.component)))
      fun r => .error (.unsupportedComposite glyph r.component.flags) := by
  induction records generalizing pos with
  | nil => exact absurd rfl some
  | cons r rest ih =>
    rw [List.map_cons, Bytes.concat_cons, Bytes.holds_append_iff] at here
    obtain ⟨first, others⟩ := here
    by_cases known : supported r.component.flags
    · rw [size_toBytes known] at others
      rw [(at_of_holds first known).readAll]
      cases rest with
      | nil =>
        have last := linked.last r rfl
        simp [unsupported?, known, last]
      | cons next rest =>
        have more := linked.more r (by simp)
        have linked' : Linked (next :: rest) :=
          ⟨fun r mem => linked.more r (by simp_all), fun r mem => linked.last r (by simpa using mem)⟩
        rw [if_pos more, ih linked' (by simp) others, unsupported?_cons known]
        cases unsupported? (next :: rest) <;> rfl
    · simp [readAll_of_unsupported first known, unsupported?, known]

end

end Layout

end Component

/-- A composite as it is laid out: a negative number of contours, the bounding box, and records. -/
structure CompositeLayout where
  contours : UInt16
  box : Bytes
  records : List Component.Layout
  negative : contours.toInt16 < 0
  box_size : box.size = 8
  records_ne_nil : records ≠ []
  linked : Component.Layout.Linked records

namespace CompositeLayout

def toBytes (o : CompositeLayout) : Bytes :=
  be16 o.contours ++ o.box ++ Bytes.concat (o.records.map (·.toBytes))

end CompositeLayout

namespace Glyph
variable {data : Bytes} {outlines pos : Nat} {l : Locations} {g : GlyphId} {start stop : UInt32}
  {o : CompositeLayout}

theorem not_lt_of_negative {contours : UInt16} (negative : contours.toInt16 < 0) :
    ¬ contours < 0x8000 := by
  have top : 2 ^ 16 ≤ 2 * contours.toBitVec.toNat :=
    BitVec.toInt_neg_iff.1 (Int16.lt_iff_toInt_lt.1 negative)
  rw [UInt16.toNat_toBitVec] at top
  change ¬ contours.toNat < 0x8000
  omega

theorem readAt_layout (here : data.Holds pos o.toBytes) : readAt data g pos =
    (Component.Layout.unsupported? o.records).elim
      (.ok (.composite (o.records.map (·.component))))
      fun r => .error (.unsupportedComposite g r.component.flags) := by
  obtain ⟨head, records⟩ := Bytes.holds_append_iff.1 here
  have contours := (Bytes.holds_append_iff.1 head).1
  rw [Array.size_append, o.box_size, Bytes.size_be16] at records
  rw [readAt, Bytes.u16At_eq_ok.2 contours, ok_bind, if_neg (not_lt_of_negative o.negative),
    headSize, Component.Layout.readAll_concat o.linked o.records_ne_nil records]
  cases Component.Layout.unsupported? o.records <;> rfl

theorem read_layout (o : CompositeLayout) (span : l.span? g = some (start, stop))
    (filled : start < stop) (here : data.Holds (outlines + start.toNat) o.toBytes) :
    ((∀ r ∈ o.records, Component.supported r.component.flags) →
      read data outlines l g = .ok (.composite (o.records.map (·.component)))) ∧
    ∀ before r after, o.records = before ++ r :: after →
      (∀ r ∈ before, Component.supported r.component.flags) →
      ¬ Component.supported r.component.flags →
      read data outlines l g = .error (.unsupportedComposite g r.component.flags) := by
  rw [read_of_span data outlines span filled, readAt_layout here]
  constructor
  · intro known
    rw [Component.Layout.unsupported?_eq_none known]
    rfl
  · intro before r after split known unknown
    rw [split, Component.Layout.unsupported?_append known unknown]
    rfl

/-- Word arguments with a scale, byte arguments with a matrix, and two scales at once. -/
def mixedComposite : CompositeLayout where
  contours := 0xFFFF
  box := Sample.zeros 8
  records := [
    ⟨⟨0x0029, 1⟩, #[0, 10, 0, 20], #[0x40, 0], fun _ => rfl, fun _ => rfl⟩,
    ⟨⟨0x00A0, 2⟩, #[5, 6], #[0x40, 0, 0, 0, 0, 0, 0x40, 0], fun _ => rfl, fun _ => rfl⟩,
    ⟨⟨0x0048, 3⟩, #[], #[], fun known => absurd known (by decide),
      fun known => absurd known (by decide)⟩]
  negative := by decide
  box_size := rfl
  records_ne_nil := List.cons_ne_nil _ _
  linked := ⟨by decide, by decide⟩

theorem read_layout_mixed : (⟨.short, #[0, 38]⟩ : Locations).span? 0 = some (0, 38) ∧
    read mixedComposite.toBytes 0 ⟨.short, #[0, 38]⟩ 0 =
      .error (.unsupportedComposite 0 0x0048) := by
  have span : (⟨.short, #[0, 38]⟩ : Locations).span? 0 = some (0, 38) := by decide
  have layout := read_layout mixedComposite span (by decide) (Bytes.holds_self _)
  refine ⟨span, layout.2 (mixedComposite.records.take 2) _ [] rfl ?_ (by decide)⟩
  decide

end Glyph

end FontSubset
