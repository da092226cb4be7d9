import FontSubset.Proofs.CodeMap.TextArrays
import FontSubset.Proofs.Text.Utf16

/-!
# Texts counted up

The texts of consecutive codes can be given by the first one of them, which is counted up on its
last UTF-16 unit.

* `countedSection_agrees_iff`: counted up from a character, a code gets the character that an array
  of consecutive characters has in its place, just when that character shares all units but the last
  with the first one (`SameBlock`).
-/

namespace FontSubset

/-- Both characters are in the basic plane, or in one block of 1024 supplementary characters. -/
def SameBlock (c d : Char) : Prop :=
  c.toNat < 0x10000 ∧ d.toNat < 0x10000 ∨ 0x10000 ≤ c.toNat ∧ c.toNat / 0x400 = d.toNat / 0x400

instance (c d : Char) : Decidable (SameBlock c d) :=
  inferInstanceAs (Decidable (_ ∨ _))

namespace CodeMap
open Utf16

/-! ## The last unit -/

theorem advanced_concat (front : List UInt16) (last : UInt16) (step : Nat) :
    advanced (front ++ [last]) step = front ++ [last + UInt16.ofNat step] := by
  simp [advanced]

theorem advanced_basic {c : Char} (basic : c.toNat < 0x10000) (step : Nat) :
    advanced (units c) step = [UInt16.ofNat (c.toNat + step)] := by
  rw [units_of_basic basic, UInt16.ofNat_add]
  exact advanced_concat [] _ step

theorem advanced_supplementary {c : Char} (beyond : 0x10000 ≤ c.toNat) (step : Nat) :
    advanced (units c) step = [UInt16.ofNat (0xD800 + (c.toNat - 0x10000) / 0x400),
      UInt16.ofNat (0xDC00 + (c.toNat - 0x10000) % 0x400 + step)] := by
  rw [units_of_supplementary beyond, UInt16.ofNat_add _ step]
  exact advanced_concat [_] _ step

theorem advanced_units {c d : Char} {step : Nat} (shifted : d.toNat = c.toNat + step)
    (same : SameBlock c d) : advanced (units c) step = units d := by
  rcases same with ⟨basic, basic'⟩ | ⟨beyond, block⟩
  · rw [advanced_basic basic, units_of_basic basic', shifted]
  · have beyond' : 0x10000 ≤ d.toNat := by omega
    have lead : (d.toNat - 0x10000) / 0x400 = (c.toNat - 0x10000) / 0x400 := by omega
    have trail : 0xDC00 + (d.toNat - 0x10000) % 0x400 =
        0xDC00 + (c.toNat - 0x10000) % 0x400 + step := by omega
    rw [advanced_supplementary beyond, units_of_supplementary beyond', lead, trail]

theorem sameBlock_of_advanced {c d : Char} {step : Nat} (shifted : d.toNat = c.toNat + step)
    (read : decodeLossy (advanced (units c) step) = [d]) : SameBlock c d := by
  by_cases basic : c.toNat < 0x10000
  · rw [advanced_basic basic] at read
    exact .inl ⟨basic, toNat_lt_of_decodeLossy_singleton read⟩
  · have beyond : 0x10000 ≤ c.toNat := Nat.not_lt.1 basic
    have lead := toNat_lead beyond
    have high : isHigh (UInt16.ofNat (0xD800 + (c.toNat - 0x10000) / 0x400)) := by
      have valid : c.toNat < 0xD800 ∨ 0xDFFF < c.toNat ∧ c.toNat < 0x110000 := c.valid
      rw [isHigh_iff, lead]
      omega
    rw [advanced_supplementary beyond] at read
    obtain ⟨low, pairs⟩ := eq_pair_of_decodeLossy high read
    have bounds := isLow_iff.1 low
    have paired := toNat_pair high low
    rw [← pairs, lead] at paired
    exact .inr ⟨beyond, by omega⟩

theorem textOf_eq_toString {units : List UInt16} {d : Char} :
    textOf units = d.toString ↔ decodeLossy units = [d] := by
  rw [textOf, Char.toString_eq_singleton, String.singleton_eq_ofList, String.ofList_inj]

theorem stringText_units (d : Char) : stringText (toBytes (units d)) = d.toString := by
  rw [stringText, ofBytes_toBytes, textOf_eq_toString, decodeLossy_units]

/-- What the last unit makes of a character that is counted up. -/
theorem textOf_advanced_iff {c d : Char} {step : Nat} (shifted : d.toNat = c.toNat + step) :
    textOf (advanced (units c) step) = d.toString ↔ SameBlock c d := by
  rw [textOf_eq_toString]
  constructor
  · exact sameBlock_of_advanced shifted
  · intro same
    rw [advanced_units shifted same, decodeLossy_units]

/-! ## The section -/

theorem texts_setTextRange (m : CodeMap) (low high : UInt32) (units : List UInt16) :
    (m.setTextRange low high units).texts =
      fillFrom low (fun step => some (textOf (advanced units step))) (rangeSize low high) m.texts :=
  (List.foldl_hom CodeMap.texts fun _ _ => rfl).symm

theorem filled_setTextRange (m : CodeMap) (low high : UInt32) (units : List UInt16) :
    Filled low high (fun code => some (textOf (advanced units (code.toNat - low.toNat))))
      m.texts (m.setTextRange low high units).texts := by
  intro code
  rw [texts_setTextRange, getElem?_fillFrom (rangeSize_le low high), if_congr covered_iff rfl rfl]

theorem reads_counted {low high base : List UInt8} (m : CodeMap) (lengths : Std.TreeSet Nat)
    (few : rangeSize (codeOf low) (codeOf high) ≤ maxRangeCodes) :
    reads ⟨.entry .bfRange, m, lengths⟩ [.hex low, .hex high, .hex base]
      ⟨.entry .bfRange, m.setTextRange (codeOf low) (codeOf high) (ofBytes base),
        lengths.insert low.length⟩ := by
  have text : reads ⟨.rangeText (codeOf low) (codeOf high), m, lengths.insert low.length⟩
      [.hex base] ⟨.entry .bfRange, m.setTextRange (codeOf low) (codeOf high) (ofBytes base),
        lengths.insert low.length⟩ := rfl
  exact reads_append (reads_bounds m lengths few) text

/-- A section with one entry for a range, of which the first text is given. -/
def countedSection (low high base : List UInt8) : String :=
  "1 beginbfrange\n" ++ hexString low ++ " " ++ hexString high ++ " " ++ hexString base ++ " " ++
    "endbfrange\n"

theorem spells_countedSection (low high base : List UInt8) :
    SpellsText (countedSection low high base) ([.integer 1, .keyword "beginbfrange"] ++
      [.hex low, .hex high, .hex base] ++ [.keyword "endbfrange"]) := by
  have opening : SpellsText "1 beginbfrange\n" [.integer 1, .keyword "beginbfrange"] :=
    spells_line (by decide +kernel) (by decide +kernel)
  have closing : SpellsText "endbfrange\n" [.keyword "endbfrange"] :=
    spells_line (by decide +kernel) (by decide +kernel)
  exact ((((((opening.append (spells_hexString low)).append spells_blank).append
    (spells_hexString high)).append spells_blank).append (spells_hexString base)).append
    spells_blank).append closing

theorem countedSection_agrees_iff {header : Bytes} {m : CodeMap}
    (readable : (read header).result = .ok m) {low high : List UInt8}
    (few : rangeSize (codeOf low) (codeOf high) ≤ maxRangeCodes) (c : Char)
    {strings : List (List UInt8)} (within : strings.length ≤ rangeSize (codeOf low) (codeOf high))
    (listed : ∀ step < rangeSize (codeOf low) (codeOf high), ∀ d : Char,
      d.toNat = c.toNat + step → strings[step]? = some (toBytes (units d))) :
    ∃ counted byArray,
      (read (header ++ #[10] ++ Bytes.ofText (countedSection low high (toBytes (units c))))).result =
        .ok counted ∧
      (read (header ++ #[10] ++ Bytes.ofText (arraySection low high strings))).result =
        .ok byArray ∧
      Filled (codeOf low) (codeOf high)
        (fun code => some (textOf (advanced (units c) (code.toNat - (codeOf low).toNat))))
        m.texts counted.texts ∧
      ∀ step < rangeSize (codeOf low) (codeOf high), ∀ d : Char, d.toNat = c.toNat + step →
        byArray.texts[codeOf low + UInt32.ofNat step]? = some d.toString ∧
        (counted.texts[codeOf low + UInt32.ofNat step]? = some d.toString ↔ SameBlock c d) := by
  obtain ⟨spaces, _, runCounted⟩ := read_append_section readable rfl
    (spells_countedSection low high (toBytes (units c)))
    fun m' lengths => ⟨_, reads_counted m' lengths few⟩
  obtain ⟨spaces', _, runArray⟩ := read_append_section readable rfl
    (spells_arraySection low high strings)
    fun m' lengths => ⟨_, reads_arrayTokens m' lengths strings few⟩
  rw [ofBytes_toBytes] at runCounted
  have counted := filled_setTextRange { m with spaces } (codeOf low) (codeOf high) (units c)
  have byArray := filled_setStrings_take (codeOf low) (codeOf high) strings
    { m with spaces := spaces' }
  rw [List.take_of_length_le within] at byArray
  refine ⟨_, _, runCounted, runArray, counted, fun step bound d shifted => ?_⟩
  have place : (codeOf low + UInt32.ofNat step).toNat - (codeOf low).toNat = step := by
    rw [toNat_add_of_lt bound, Nat.add_sub_cancel_left]
  constructor
  · refine byArray.getElem?_add bound ?_
    rw [place, listed step bound d shifted, Option.map_some, stringText_units]
  · have here := counted.getElem?_add bound rfl
    rw [place] at here
    refine (Eq.congr_left here).trans ?_
    rw [Option.some_inj]
    exact textOf_advanced_iff shifted

/-- The third of three characters is the first one of the next block. -/
theorem countedSection_agrees_iff_blockEnd : ∃ counted byArray,
    (read (Bytes.ofText "1 begincodespacerange <0000> <FFFF> endcodespacerange" ++ #[10] ++
      Bytes.ofText (countedSection [0, 7] [0, 9] (toBytes (units '𠏾'))))).result =
        .ok counted ∧
    (read (Bytes.ofText "1 begincodespacerange <0000> <FFFF> endcodespacerange" ++ #[10] ++
      Bytes.ofText (arraySection [0, 7] [0, 9]
        (['𠏾', '𠏿', '𠐀'].map fun d => toBytes (units d))))).result =
        .ok byArray ∧
    byArray.texts[(8 : UInt32)]? = some "𠏿" ∧
    counted.texts[(8 : UInt32)]? = some "𠏿" ∧
    byArray.texts[(9 : UInt32)]? = some "𠐀" ∧
    counted.texts[(9 : UInt32)]? ≠ some "𠐀" := by
  have listed : ∀ step < rangeSize (codeOf [0, 7]) (codeOf [0, 9]), ∀ d : Char,
      d.toNat = '𠏾'.toNat + step →
        (['𠏾', '𠏿', '𠐀'].map fun d => toBytes (units d))[step]? =
          some (toBytes (units d)) := by
    intro step bound d shifted
    rw [← Char.ofNat_toNat d, shifted]
    match step, bound with
    | 0, _ => rfl
    | 1, _ => rfl
    | 2, _ => rfl
  obtain ⟨counted, byArray, runCounted, runArray, -, agree⟩ :=
    countedSection_agrees_iff read_spaces (by decide) '𠏾' (by decide) listed
  obtain ⟨listed', counted'⟩ := agree 1 (by decide) '𠏿' rfl
  obtain ⟨listed'', counted''⟩ := agree 2 (by decide) '𠐀' rfl
  exact ⟨counted, byArray, runCounted, runArray, listed', counted'.2 (by decide), listed'',
    fun same => absurd (counted''.1 same) (by decide)⟩

/-- Counted past the end of its block a character falls apart. -/
theorem countedSection_pastBlock :
    (read (Bytes.ofText "1 beginbfrange <0000> <0001> <D840DFFF> endbfrange")).result.map
        (fun m => (m.texts[(0 : UInt32)]?, m.texts[(1 : UInt32)]?)) =
      .ok (some "𠏿", some "\ufffd\ue000") ∧
    Utf16.ofBytes [0xD8, 0x40, 0xDF, 0xFF] = units '𠏿' ∧
    '𠐀'.toNat = '𠏿'.toNat + 1 ∧ "\ufffd\ue000" ≠ "𠐀" := by
  decide +kernel

end CodeMap

end FontSubset
