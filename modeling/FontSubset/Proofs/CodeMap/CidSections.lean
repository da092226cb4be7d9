import FontSubset.Proofs.CodeMap.Codes
import FontSubset.Proofs.CodeMap.Reader

/-!
# CIDs of a range

The CIDs of consecutive codes can be given by one entry for the range or by an entry for each code.

* `cidSections_agree_iff`: the two sections give the same CIDs just when the last CID has 32 bits.
-/

namespace FontSubset.CodeMap

/-! ## Consecutive codes -/

/-- Gives consecutive codes the CIDs that there are for them. -/
def setCids (low : UInt32) (cid? : Nat → Option UInt32) (count : Nat) (m : CodeMap) : CodeMap :=
  (List.range count).foldl (fun m step =>
    (cid? step).elim m (m.setCid (low + UInt32.ofNat step))) m

theorem setCids_succ (low : UInt32) (cid? : Nat → Option UInt32) (count : Nat) (m : CodeMap) :
    setCids low cid? (count + 1) m = (cid? count).elim (setCids low cid? count m)
      ((setCids low cid? count m).setCid (low + UInt32.ofNat count)) := by
  rw [setCids, List.range_succ, List.foldl_append]
  rfl

theorem cids_setCids (low : UInt32) (cid? : Nat → Option UInt32) (count : Nat) (m : CodeMap) :
    (setCids low cid? count m).cids = fillFrom low cid? count m.cids := by
  refine (List.foldl_hom CodeMap.cids fun m step => ?_).symm
  cases cid? step <;> rfl

theorem getElem?_setCids {low : UInt32} {cid? : Nat → Option UInt32} {count : Nat}
    (fits : low.toNat + count ≤ UInt32.size) (m : CodeMap) (code : UInt32) :
    (setCids low cid? count m).cids[code]? =
      if low.toNat ≤ code.toNat ∧ code.toNat < low.toNat + count then
        (cid? (code.toNat - low.toNat)).or m.cids[code]?
      else m.cids[code]? := by
  rw [cids_setCids, getElem?_fillFrom fits]

theorem setCidRange_eq (low high first : UInt32) (m : CodeMap) :
    m.setCidRange low high first =
      setCids low (fun step => some (first + UInt32.ofNat step)) (cidCount low high first) m := rfl

/-! ## The tokens of the sections -/

/-- The CID that an entry for one code sets: its last 32 bits, unless it is no integer at all. -/
def singleCid? (n : Nat) : Option UInt32 :=
  if n < 0x8000000000000000 then some (UInt32.ofNat n) else none

section
variable (m : CodeMap) (lengths : Std.TreeSet Nat)

theorem reads_single (code : List UInt8) (n : Nat) : ∃ lengths',
    reads ⟨.entry .cidChar, m, lengths⟩ [.hex code, number n]
      ⟨.entry .cidChar, (singleCid? n).elim m (m.setCid (codeOf code)), lengths'⟩ := by
  have opened : reads ⟨.entry .cidChar, m, lengths⟩ [.hex code]
      ⟨.charCid code, m, lengths⟩ := rfl
  by_cases bound : n < 0x8000000000000000
  · refine ⟨lengths.insert code.length, reads_append opened ?_⟩
    rw [number_of_lt bound, singleCid?, if_pos bound]
    rfl
  · refine ⟨lengths, reads_append opened ?_⟩
    have other := number_of_le (Nat.not_lt.1 bound)
    rw [singleCid?, if_neg bound]
    generalize number n = token at other
    cases token with
    | integer value => exact absurd rfl (other value)
    | _ => rfl

/-- The entries for the first codes of a range. -/
def singleTokens (length : Nat) (low : UInt32) (first count : Nat) : List Token :=
  (List.range count).flatMap fun step =>
    [.hex (codeBytes length (low + UInt32.ofNat step)), number (first + step)]

theorem reads_singles {length : Nat} {low : UInt32} {count : Nat} (first : Nat)
    (fits : low.toNat + count ≤ Nat.pow 256 length) (small : low.toNat + count ≤ UInt32.size) :
    ∃ lengths', reads ⟨.entry .cidChar, m, lengths⟩ (singleTokens length low first count)
      ⟨.entry .cidChar, setCids low (fun step => singleCid? (first + step)) count m, lengths'⟩ := by
  induction count with
  | zero => exact ⟨lengths, rfl⟩
  | succ count ih =>
    obtain ⟨lengths', before⟩ := ih (by omega) (by omega)
    have here := toNat_add_ofNat (Nat.lt_of_succ_le small)
    have spelled : codeOf (codeBytes length (low + UInt32.ofNat count)) =
        low + UInt32.ofNat count := codeOf_codeBytes (by omega)
    obtain ⟨lengths'', last⟩ := reads_single
      (setCids low (fun step => singleCid? (first + step)) count m) lengths'
      (codeBytes length (low + UInt32.ofNat count)) (first + count)
    rw [spelled] at last
    refine ⟨lengths'', ?_⟩
    rw [singleTokens, List.range_succ, List.flatMap_append, ← singleTokens, setCids_succ]
    exact reads_append before last

/-- The map behind an entry for a range; where the first CID does not have 32 bits, nothing is
set. -/
def setRange (low high : UInt32) (first : Nat) : CodeMap :=
  if first < UInt32.size then m.setCidRange low high (UInt32.ofNat first) else m

theorem reads_range {low high : List UInt8} {first : Nat} (bound : first < 0x8000000000000000)
    (few : rangeSize (codeOf low) (codeOf high) ≤ maxRangeCodes) : ∃ lengths',
      reads ⟨.entry .cidRange, m, lengths⟩ [.hex low, .hex high, number first]
        ⟨.entry .cidRange, setRange m (codeOf low) (codeOf high) first, lengths'⟩ := by
  have opened : reads ⟨.entry .cidRange, m, lengths⟩ [.hex low, .hex high]
      ⟨.cidFirst low (some high), m, lengths⟩ := rfl
  have allowed : Reader.checkRange .cidRange (codeOf low) (codeOf high) = .ok () :=
    if_neg (Nat.not_lt.2 few)
  have integer (limit : Nat) : (0 : Int) ≤ first ∧ (first : Int) < limit ↔ first < limit := by
    omega
  have last : ∃ lengths', reads ⟨.cidFirst low (some high), m, lengths⟩ [.integer first]
      ⟨.entry .cidRange, setRange m (codeOf low) (codeOf high) first, lengths'⟩ := by
    rw [setRange]
    by_cases small : first < UInt32.size
    · refine ⟨lengths.insert low.length, ?_⟩
      simp only [reads, List.foldlM_cons, List.foldlM_nil, Reader.step, Reader.cidFirst, integer,
        small, if_true, allowed]
      simp [Reader.finishEntry]
      split <;> rfl
    · refine ⟨lengths, ?_⟩
      simp only [reads, List.foldlM_cons, List.foldlM_nil, Reader.step, Reader.cidFirst, integer,
        small, if_false]
      rfl
  obtain ⟨lengths', run⟩ := last
  rw [number_of_lt bound]
  have all := reads_append opened run
  exact ⟨lengths', all⟩

end

/-! ## The CIDs that have been read -/

/-- The CIDs that are counted up from `first` for the codes from `low` to `high`, as long as they
are less than `limit`; the other codes keep theirs. -/
def Counted (low high : UInt32) (first limit : Nat) (before after : Std.TreeMap UInt32 UInt32) :
    Prop :=
  ∀ code : UInt32, after[code]? =
    if low ≤ code ∧ code ≤ high ∧ first + (code.toNat - low.toNat) < limit then
      some (UInt32.ofNat (first + (code.toNat - low.toNat)))
    else before[code]?

theorem counted_singles (low high : UInt32) (first : Nat) (m : CodeMap) :
    Counted low high first 0x8000000000000000 m.cids
      (setCids low (fun step => singleCid? (first + step)) (rangeSize low high) m).cids := by
  intro code
  rw [getElem?_setCids (rangeSize_le low high), if_congr covered_iff rfl rfl, singleCid?]
  by_cases covered : low ≤ code ∧ code ≤ high
  · rw [if_pos covered]
    by_cases small : first + (code.toNat - low.toNat) < 0x8000000000000000
    · rw [if_pos small, if_pos ⟨covered.1, covered.2, small⟩, Option.some_or]
    · rw [if_neg small, if_neg fun counted => small counted.2.2, Option.none_or]
  · rw [if_neg covered, if_neg fun counted => covered ⟨counted.1, counted.2.1⟩]

theorem counted_setRange (low high : UInt32) (first : Nat) (m : CodeMap) :
    Counted low high first UInt32.size m.cids (setRange m low high first).cids := by
  intro code
  have size : UInt32.size = 4294967296 := rfl
  rw [setRange]
  by_cases small : first < UInt32.size
  · have room : (UInt32.ofNat first).toNat = first := by
      rw [UInt32.toNat_ofNat']
      omega
    have fits := rangeSize_le low high
    have within : low.toNat ≤ code.toNat ∧
        code.toNat < low.toNat + cidCount low high (UInt32.ofNat first) ↔
          low ≤ code ∧ code ≤ high ∧ first + (code.toNat - low.toNat) < UInt32.size := by
      rw [← and_assoc, ← covered_iff, cidCount, room]
      omega
    rw [if_pos small, setCidRange_eq, getElem?_setCids (by rw [cidCount]; omega),
      if_congr within rfl rfl, Option.some_or, ← UInt32.ofNat_add]
  · rw [if_neg small, if_neg fun counted => small (by omega)]

/-- Counted up to two limits, the CIDs differ only where the smaller one is reached. -/
theorem counted_agree_iff {low high : UInt32} {first limit limit' : Nat}
    {before after after' : Std.TreeMap UInt32 UInt32}
    (counted : Counted low high first limit before after)
    (counted' : Counted low high first limit' before after')
    (free : ∀ code, low ≤ code → code ≤ high → before[code]? = none)
    (few : rangeSize low high ≤ maxRangeCodes) (start : first < limit')
    (apart : limit + maxRangeCodes ≤ limit') :
    (∀ code : UInt32, after[code]? = after'[code]?) ↔
      high < low ∨ first + (high.toNat - low.toNat) < limit := by
  have differs (code : UInt32) (lower : low ≤ code) (upper : code ≤ high)
      (reached : limit ≤ first + (code.toNat - low.toNat))
      (below : first + (code.toNat - low.toNat) < limit') :
      after[code]? ≠ after'[code]? := by
    rw [counted code, counted' code, if_neg fun within => Nat.not_lt.2 reached within.2.2,
      if_pos ⟨lower, upper, below⟩, free code lower upper]
    nofun
  constructor
  · intro agree
    by_contra both
    obtain ⟨ordered, reached⟩ := not_or.1 both
    have ordered' : low ≤ high := UInt32.not_lt.1 ordered
    have size : rangeSize low high = high.toNat + 1 - low.toNat := rfl
    by_cases early : limit ≤ first
    · exact differs low UInt32.le_rfl ordered' (by omega) (by omega) (agree low)
    · exact differs high ordered' UInt32.le_rfl (by omega) (by omega) (agree high)
  · intro fits code
    rw [counted code, counted' code]
    refine if_congr ?_ rfl rfl
    constructor
    · rintro ⟨lower, upper, below⟩
      exact ⟨lower, upper, by omega⟩
    · rintro ⟨lower, upper, below⟩
      refine ⟨lower, upper, ?_⟩
      rcases fits with reversed | fits
      · exact absurd (UInt32.le_trans lower upper) (UInt32.not_le.2 reversed)
      · have := UInt32.le_iff_toNat_le.1 upper
        omega

/-! ## The text of the sections -/

/-- A section with one entry for a range. -/
def rangeSection (low high : List UInt8) (first : Nat) : String :=
  "1 begincidrange\n" ++ hexString low ++ " " ++ hexString high ++ " " ++ (toString first ++ "\n") ++
    "endcidrange\n"

def singleEntry (code : List UInt8) (cid : Nat) : String :=
  hexString code ++ " " ++ (toString cid ++ "\n")

/-- A section with an entry for each code of a range. -/
def singlesSection (low high : List UInt8) (first : Nat) : String :=
  let count := rangeSize (codeOf low) (codeOf high)
  toString count ++ " " ++ "begincidchar\n" ++
    String.join ((List.range count).map fun step =>
      singleEntry (codeBytes low.length (codeOf low + UInt32.ofNat step)) (first + step)) ++
    "endcidchar\n"

theorem spells_rangeSection (low high : List UInt8) (first : Nat) :
    SpellsText (rangeSection low high first) [.integer 1, .keyword "begincidrange", .hex low,
      .hex high, number first, .keyword "endcidrange"] := by
  have opening : SpellsText "1 begincidrange\n" [.integer 1, .keyword "begincidrange"] :=
    spells_line (by decide +kernel) (by decide +kernel)
  have closing : SpellsText "endcidrange\n" [.keyword "endcidrange"] :=
    spells_line (by decide +kernel) (by decide +kernel)
  exact (((((opening.append (spells_hexString low)).append spells_blank).append
    (spells_hexString high)).append spells_blank).append (spells_numberLine first)).append closing

theorem spells_singlesSection (low high : List UInt8) (first : Nat) :
    SpellsText (singlesSection low high first)
      ([number (rangeSize (codeOf low) (codeOf high)), .keyword "begincidchar"] ++
        singleTokens low.length (codeOf low) first (rangeSize (codeOf low) (codeOf high)) ++
        [.keyword "endcidchar"]) := by
  have count : SpellsText (toString (rangeSize (codeOf low) (codeOf high)) ++ " ")
      [number (rangeSize (codeOf low) (codeOf high))] :=
    spells_number _ (c := ' ') rfl (by decide) rfl
  have opening : SpellsText "begincidchar\n" [.keyword "begincidchar"] :=
    spells_line (by decide +kernel) (by decide +kernel)
  have closing : SpellsText "endcidchar\n" [.keyword "endcidchar"] :=
    spells_line (by decide +kernel) (by decide +kernel)
  have entry (step : Nat) :
      SpellsText (singleEntry (codeBytes low.length (codeOf low + UInt32.ofNat step)) (first + step))
        [.hex (codeBytes low.length (codeOf low + UInt32.ofNat step)), number (first + step)] :=
    ((spells_hexString _).append spells_blank).append (spells_numberLine _)
  have entries : SpellsText _ (singleTokens low.length (codeOf low) first
      (rangeSize (codeOf low) (codeOf high))) := spells_join entry
  exact ((count.append opening).append entries).append closing

theorem cidSections_agree_iff {header : Bytes} {m : CodeMap}
    (readable : (read header).result = .ok m) {low high : List UInt8}
    (same : low.length = high.length)
    (few : rangeSize (codeOf low) (codeOf high) ≤ maxRangeCodes) {first : Nat}
    (bound : first < 0x8000000000000000) :
    ∃ byRange bySingles,
      (read (header ++ #[10] ++ Bytes.ofText (rangeSection low high first))).result =
        .ok byRange ∧
      (read (header ++ #[10] ++ Bytes.ofText (singlesSection low high first))).result =
        .ok bySingles ∧
      Counted (codeOf low) (codeOf high) first UInt32.size m.cids byRange.cids ∧
      Counted (codeOf low) (codeOf high) first 0x8000000000000000 m.cids bySingles.cids ∧
      ((∀ code, codeOf low ≤ code → code ≤ codeOf high → m.cids[code]? = none) →
        ((∀ code : UInt32, byRange.cids[code]? = bySingles.cids[code]?) ↔
          codeOf high < codeOf low ∨
            first + ((codeOf high).toNat - (codeOf low).toNat) < UInt32.size)) := by
  have fits : (codeOf low).toNat + rangeSize (codeOf low) (codeOf high) ≤
      Nat.pow 256 low.length := by
    have := codeOf_lt low
    have := codeOf_lt high
    rw [← same] at this
    rw [rangeSize]
    omega
  have count : number (rangeSize (codeOf low) (codeOf high)) =
      .integer (rangeSize (codeOf low) (codeOf high)) :=
    number_of_lt (Nat.lt_of_le_of_lt few (by decide))
  have spelled := spells_singlesSection low high first
  rw [count] at spelled
  obtain ⟨spaces, _, runRange⟩ := read_append_section readable rfl
    (spells_rangeSection low high first) fun m' lengths => reads_range m' lengths bound few
  obtain ⟨spaces', _, runSingles⟩ := read_append_section readable rfl
    spelled fun m' lengths => reads_singles m' lengths first fits (rangeSize_le _ _)
  have counted := counted_setRange (codeOf low) (codeOf high) first { m with spaces }
  have counted' := counted_singles (codeOf low) (codeOf high) first { m with spaces := spaces' }
  refine ⟨_, _, runRange, runSingles, counted, counted', fun free => ?_⟩
  exact counted_agree_iff counted counted' free few bound (by decide)

/-- The second code of a range is left out where its CID does not have 32 bits, but an entry of its
own gives it the CID 0. -/
theorem cidSections_agree_iff_lastCid :
    ∃ byRange bySingles,
      (read (Bytes.ofText "1 begincodespacerange <0000> <FFFF> endcodespacerange" ++ #[10] ++
        Bytes.ofText (rangeSection [0, 0] [0, 1] 4294967295))).result = .ok byRange ∧
      (read (Bytes.ofText "1 begincodespacerange <0000> <FFFF> endcodespacerange" ++ #[10] ++
        Bytes.ofText (singlesSection [0, 0] [0, 1] 4294967295))).result = .ok bySingles ∧
      byRange.cids[(0 : UInt32)]? = some 4294967295 ∧
      bySingles.cids[(0 : UInt32)]? = some 4294967295 ∧
      byRange.cids[(1 : UInt32)]? = none ∧ bySingles.cids[(1 : UInt32)]? = some 0 := by
  obtain ⟨byRange, bySingles, runRange, runSingles, counted, counted', -⟩ :=
    cidSections_agree_iff read_spaces (show [(0 : UInt8), 0].length = [(0 : UInt8), 1].length from rfl)
      (by decide) (show 4294967295 < 0x8000000000000000 by decide)
  refine ⟨byRange, bySingles, runRange, runSingles, ?_, ?_, ?_, ?_⟩
  · rw [counted 0]; rfl
  · rw [counted' 0]; rfl
  · rw [counted 1]; rfl
  · rw [counted' 1]; rfl

end FontSubset.CodeMap
