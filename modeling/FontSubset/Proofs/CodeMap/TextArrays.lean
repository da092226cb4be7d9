import FontSubset.Proofs.CodeMap.Codes
import FontSubset.Proofs.CodeMap.Reader

/-!
# Texts of a range

The texts of consecutive codes can be given by an array for the range or by an entry for each code.

* `textSections_agree_iff`: the two sections give the same texts unless the range ends in the
  greatest code of all and more strings follow. Strings past the end of a range are left out, but
  the greatest code has no successor, and its text is that of the last string.
-/

namespace FontSubset.CodeMap

/-- The text that the bytes of a string spell. -/
def stringText (string : List UInt8) : String :=
  textOf (Utf16.ofBytes string)

/-! ## Consecutive codes -/

/-- Gives the strings of an array to the codes from `code` to `high`. -/
def setStrings (high : UInt32) : UInt32 → List (List UInt8) → CodeMap → CodeMap
  | _, [], m => m
  | code, string :: rest, m => setStrings high (Reader.nextCodeOf code) rest
      (if code ≤ high then m.setText code (stringText string) else m)

/-- The string of an array that counts for a code: the one in its place, but for the greatest code
the last one from its place on. -/
def arrayString? (low code : UInt32) (strings : List (List UInt8)) : Option (List UInt8) :=
  let behind := strings.drop (code.toNat - low.toNat)
  if code = 0xFFFFFFFF then behind.getLast? else behind.head?

theorem nextCodeOf_greatest : Reader.nextCodeOf 0xFFFFFFFF = 0xFFFFFFFF := rfl

theorem le_greatest (code : UInt32) : code ≤ 0xFFFFFFFF :=
  UInt32.le_iff_toNat_le.2 (Nat.le_of_lt_succ code.toNat_lt)

theorem ne_greatest {low code : UInt32} (behind : low < code) : low ≠ 0xFFFFFFFF := by
  rintro rfl
  exact UInt32.not_le.2 behind (le_greatest code)

theorem toNat_nextCodeOf {code : UInt32} (less : code ≠ 0xFFFFFFFF) :
    (Reader.nextCodeOf code).toNat = code.toNat + 1 := by
  have below : code.toNat ≠ 4294967295 := fun eq => less (UInt32.toNat_inj.1 eq)
  have bound := code.toNat_lt
  rw [Reader.nextCodeOf, if_neg less, UInt32.toNat_add]
  change (code.toNat + 1) % 4294967296 = _
  omega

theorem nextCodeOf_add {low : UInt32} {place : Nat} (bound : low.toNat + (place + 1) < UInt32.size) :
    Reader.nextCodeOf (low + UInt32.ofNat place) = low + UInt32.ofNat (place + 1) := by
  have here : (low + UInt32.ofNat place).toNat = low.toNat + place := toNat_add_ofNat (by omega)
  have after : (low + UInt32.ofNat (place + 1)).toNat = low.toNat + (place + 1) :=
    toNat_add_ofNat bound
  have less : low + UInt32.ofNat place ≠ 0xFFFFFFFF := by
    intro greatest
    rw [greatest] at here
    change 4294967295 = _ at here
    change _ < 4294967296 at bound
    omega
  rw [← UInt32.toNat_inj, toNat_nextCodeOf less, here, after, Nat.add_assoc]

theorem arrayString?_nil (low code : UInt32) : arrayString? low code [] = none := by
  simp [arrayString?]

theorem arrayString?_of_ne {code : UInt32} (less : code ≠ 0xFFFFFFFF) (low : UInt32)
    (strings : List (List UInt8)) :
    arrayString? low code strings = strings[code.toNat - low.toNat]? := by
  rw [arrayString?, if_neg less, List.head?_drop]

theorem arrayString?_cons {low code : UInt32} (behind : low < code) (string : List UInt8)
    (rest : List (List UInt8)) :
    arrayString? low code (string :: rest) = arrayString? (Reader.nextCodeOf low) code rest := by
  have before := UInt32.lt_iff_toNat_lt.1 behind
  have place : code.toNat - low.toNat = (code.toNat - (Reader.nextCodeOf low).toNat) + 1 := by
    rw [toNat_nextCodeOf (ne_greatest behind)]
    omega
  rw [arrayString?, place, List.drop_succ_cons, arrayString?]

theorem le_nextCodeOf (code : UInt32) : code ≤ Reader.nextCodeOf code := by
  by_cases greatest : code = 0xFFFFFFFF
  · rw [greatest, nextCodeOf_greatest]
    exact UInt32.le_refl _
  · rw [UInt32.le_iff_toNat_le, toNat_nextCodeOf greatest]
    omega

theorem nextCodeOf_le {low code : UInt32} (behind : low < code) :
    Reader.nextCodeOf low ≤ code := by
  have before := UInt32.lt_iff_toNat_lt.1 behind
  rw [UInt32.le_iff_toNat_le, toNat_nextCodeOf (ne_greatest behind)]
  omega

theorem getElem?_setText (m : CodeMap) (code other : UInt32) (text : String) :
    (m.setText code text).texts[other]? = if code = other then some text else m.texts[other]? := by
  simp [setText, Std.TreeMap.getElem?_insert]

theorem getElem?_setStrings (low high : UInt32) (strings : List (List UInt8)) (m : CodeMap)
    (code : UInt32) : (setStrings high low strings m).texts[code]? =
      if low ≤ code ∧ code ≤ high then
        ((arrayString? low code strings).map stringText).or m.texts[code]?
      else m.texts[code]? := by
  induction strings generalizing low m with
  | nil => simp [setStrings, arrayString?_nil]
  | cons string rest ih =>
    rw [setStrings, ih]
    by_cases covered : low ≤ code ∧ code ≤ high
    · rw [if_pos covered, if_pos (UInt32.le_trans covered.1 covered.2), getElem?_setText]
      rcases UInt32.lt_or_eq_of_le covered.1 with behind | rfl
      · rw [if_pos ⟨nextCodeOf_le behind, covered.2⟩, arrayString?_cons behind,
          if_neg (UInt32.ne_of_lt behind)]
      · by_cases greatest : low = 0xFFFFFFFF
        · subst greatest
          rw [nextCodeOf_greatest, if_pos covered, if_pos rfl]
          simp [arrayString?, List.getLast?_cons]
        · have past : ¬ Reader.nextCodeOf low ≤ low := by
            rw [UInt32.le_iff_toNat_le, toNat_nextCodeOf greatest]
            omega
          rw [if_neg fun within => past within.1, if_pos rfl, arrayString?_of_ne greatest]
          simp
    · have uncovered : ¬ (Reader.nextCodeOf low ≤ code ∧ code ≤ high) :=
        fun within => covered ⟨UInt32.le_trans (le_nextCodeOf low) within.1, within.2⟩
      rw [if_neg covered, if_neg uncovered]
      by_cases within : low ≤ high
      · have other : low ≠ code := by
          rintro rfl
          exact covered ⟨UInt32.le_refl _, within⟩
        rw [if_pos within, getElem?_setText, if_neg other]
      · rw [if_neg within]

theorem isSome_arrayString? (low code : UInt32) (strings : List (List UInt8)) :
    ((arrayString? low code strings).map stringText).isSome =
      (strings[code.toNat - low.toNat]?.map stringText).isSome := by
  rw [← List.head?_drop, arrayString?]
  cases strings.drop (code.toNat - low.toNat) <;> simp [apply_ite]

/-- Of the strings that do not go past the end of a range each one counts in its place. -/
theorem arrayString?_take {low high code : UInt32} (lower : low ≤ code) (upper : code ≤ high)
    (strings : List (List UInt8)) : arrayString? low code (strings.take (rangeSize low high)) =
      strings[code.toNat - low.toNat]? := by
  have lower' := UInt32.le_iff_toNat_le.1 lower
  have upper' := UInt32.le_iff_toNat_le.1 upper
  have size : rangeSize low high = high.toNat + 1 - low.toNat := rfl
  by_cases greatest : code = 0xFFFFFFFF
  · have last : rangeSize low high - (code.toNat - low.toNat) = 1 := by
      have := high.toNat_lt
      have : code.toNat = 4294967295 := by rw [greatest]; rfl
      omega
    rw [arrayString?, if_pos greatest, List.drop_take, last, ← List.head?_drop]
    cases strings.drop (code.toNat - low.toNat) <;> rfl
  · rw [arrayString?_of_ne greatest, List.getElem?_take_of_lt (by omega)]

/-- The codes of a range have got texts, as far as there are any; the other codes keep theirs. -/
def Filled (low high : UInt32) (text? : UInt32 → Option String)
    (before after : Std.TreeMap UInt32 String) : Prop :=
  ∀ code : UInt32, after[code]? =
    if low ≤ code ∧ code ≤ high then (text? code).or before[code]? else before[code]?

theorem filled_setStrings (low high : UInt32) (strings : List (List UInt8)) (m : CodeMap) :
    Filled low high (fun code => (arrayString? low code strings).map stringText)
      m.texts (setStrings high low strings m).texts :=
  getElem?_setStrings low high strings m

theorem filled_setStrings_take (low high : UInt32) (strings : List (List UInt8)) (m : CodeMap) :
    Filled low high (fun code => strings[code.toNat - low.toNat]?.map stringText)
      m.texts (setStrings high low (strings.take (rangeSize low high)) m).texts := by
  intro code
  rw [getElem?_setStrings]
  by_cases covered : low ≤ code ∧ code ≤ high
  · rw [if_pos covered, if_pos covered, arrayString?_take covered.1 covered.2]
  · rw [if_neg covered, if_neg covered]

theorem Filled.getElem?_add {low high : UInt32} {text? : UInt32 → Option String}
    {before after : Std.TreeMap UInt32 String} (filled : Filled low high text? before after)
    {step : Nat} (bound : step < rangeSize low high) {text : String}
    (found : text? (low + UInt32.ofNat step) = some text) :
    after[low + UInt32.ofNat step]? = some text := by
  rw [filled, if_pos (covered_add bound), found, Option.some_or]

/-- What differs are the texts of the range, whatever texts there are before. -/
theorem Filled.agree_iff {low high : UInt32} {text? text?' : UInt32 → Option String}
    {before after after' : Std.TreeMap UInt32 String} (filled : Filled low high text? before after)
    (filled' : Filled low high text?' before after')
    (same : ∀ code, (text? code).isSome = (text?' code).isSome) :
    (∀ code : UInt32, after[code]? = after'[code]?) ↔
      ∀ code, low ≤ code → code ≤ high → text? code = text?' code := by
  constructor
  · intro agree code lower upper
    have here := agree code
    rw [filled code, filled' code, if_pos ⟨lower, upper⟩, if_pos ⟨lower, upper⟩] at here
    have both := same code
    cases given : text? code with
    | none =>
      cases given' : text?' code with
      | none => rfl
      | some text' => simp [given, given'] at both
    | some text =>
      cases given' : text?' code with
      | none => simp [given, given'] at both
      | some text' => simpa [given, given'] using here
  · intro agree code
    rw [filled code, filled' code]
    by_cases covered : low ≤ code ∧ code ≤ high
    · rw [if_pos covered, if_pos covered, agree code covered.1 covered.2]
    · rw [if_neg covered, if_neg covered]

/-! ## The tokens of the sections -/

/-- The entry for a range that lists its texts. -/
def arrayTokens (low high : List UInt8) (strings : List (List UInt8)) : List Token :=
  [.hex low, .hex high] ++ ([.arrayStart] ++ (strings.map .hex ++ [.arrayEnd]))

section
variable (m : CodeMap) (lengths : Std.TreeSet Nat)

theorem reads_strings (high code : UInt32) (strings : List (List UInt8)) :
    reads ⟨.rangeArray high code, m, lengths⟩ (strings.map .hex ++ [.arrayEnd])
      ⟨.entry .bfRange, setStrings high code strings m, lengths⟩ := by
  induction strings generalizing code m with
  | nil => rfl
  | cons string rest ih =>
    rw [List.map_cons, List.cons_append, reads_cons]
    exact ⟨⟨.rangeArray high (Reader.nextCodeOf code), _, lengths⟩, rfl, ih _ _⟩

theorem reads_arrayTokens {low high : List UInt8} (strings : List (List UInt8))
    (few : rangeSize (codeOf low) (codeOf high) ≤ maxRangeCodes) :
    reads ⟨.entry .bfRange, m, lengths⟩ (arrayTokens low high strings)
      ⟨.entry .bfRange, setStrings (codeOf high) (codeOf low) strings m,
        lengths.insert low.length⟩ := by
  have opened : reads ⟨.rangeText (codeOf low) (codeOf high), m, lengths.insert low.length⟩
      [.arrayStart] ⟨.rangeArray (codeOf high) (codeOf low), m, lengths.insert low.length⟩ := rfl
  have texts := reads_strings m (lengths.insert low.length) (codeOf high) (codeOf low) strings
  exact reads_append (reads_bounds m lengths few) (reads_append opened texts)

end

/-- The entries for consecutive codes, each with its string and the place of the string. -/
def charTokens (length : Nat) (low : UInt32) (entries : List (List UInt8 × Nat)) : List Token :=
  entries.flatMap fun entry =>
    [.hex (codeBytes length (low + UInt32.ofNat entry.2)), .hex entry.1]

theorem reads_chars {length : Nat} {low high : UInt32} {strings : List (List UInt8)} (place : Nat)
    (m : CodeMap) (lengths : Std.TreeSet Nat) (fits : high.toNat < Nat.pow 256 length)
    (within : place + strings.length ≤ rangeSize low high) :
    ∃ lengths', reads ⟨.entry .bfChar, m, lengths⟩ (charTokens length low (strings.zipIdx place))
      ⟨.entry .bfChar, setStrings high (low + UInt32.ofNat place) strings m, lengths'⟩ := by
  induction strings generalizing place m lengths with
  | nil => exact ⟨lengths, rfl⟩
  | cons string rest ih =>
    rw [List.length_cons] at within
    have size : rangeSize low high = high.toNat + 1 - low.toNat := rfl
    have bound := rangeSize_le low high
    have here : (low + UInt32.ofNat place).toNat = low.toNat + place := toNat_add_ofNat (by omega)
    have spelled : codeOf (codeBytes length (low + UInt32.ofNat place)) =
        low + UInt32.ofNat place := codeOf_codeBytes (by omega)
    have inside : low + UInt32.ofNat place ≤ high := by
      rw [UInt32.le_iff_toNat_le]
      omega
    have first : reads ⟨.entry .bfChar, m, lengths⟩
        [.hex (codeBytes length (low + UInt32.ofNat place)), .hex string]
        ⟨.entry .bfChar,
          m.setText (codeOf (codeBytes length (low + UInt32.ofNat place))) (stringText string),
          lengths.insert (codeBytes length (low + UInt32.ofNat place)).length⟩ := rfl
    obtain ⟨lengths', others⟩ := ih (place + 1)
      (m.setText (low + UInt32.ofNat place) (stringText string))
      (lengths.insert (codeBytes length (low + UInt32.ofNat place)).length) (by omega)
    have next : setStrings high (Reader.nextCodeOf (low + UInt32.ofNat place)) rest =
        setStrings high (low + UInt32.ofNat (place + 1)) rest := by
      cases rest with
      | nil => rfl
      | cons _ _ =>
        rw [List.length_cons] at within
        rw [nextCodeOf_add (by omega)]
    rw [spelled] at first
    refine ⟨lengths', ?_⟩
    rw [setStrings, if_pos inside, next]
    have whole := reads_append first others
    exact whole

theorem reads_listed {length : Nat} {low high : UInt32} {strings : List (List UInt8)}
    (m : CodeMap) (lengths : Std.TreeSet Nat) (fits : high.toNat < Nat.pow 256 length)
    (within : strings.length ≤ rangeSize low high) :
    ∃ lengths', reads ⟨.entry .bfChar, m, lengths⟩ (charTokens length low strings.zipIdx)
      ⟨.entry .bfChar, setStrings high low strings m, lengths'⟩ := by
  have run := reads_chars 0 m lengths fits (by rwa [Nat.zero_add])
  rwa [show low + UInt32.ofNat 0 = low from UInt32.add_zero low] at run

/-! ## The text of the sections -/

/-- A section with one entry for a range, of which the texts are listed in an array. -/
def arraySection (low high : List UInt8) (strings : List (List UInt8)) : String :=
  "1 beginbfrange\n" ++ hexString low ++ " " ++ hexString high ++ " [\n" ++
    String.join (strings.map fun string => hexString string ++ " ") ++ "]\n" ++ "endbfrange\n"

/-- A section with an entry for each code of a range that has a string in its place. -/
def charsSection (low high : List UInt8) (strings : List (List UInt8)) : String :=
  let listed := strings.take (rangeSize (codeOf low) (codeOf high))
  toString listed.length ++ " " ++ "beginbfchar\n" ++
    String.join (listed.zipIdx.map fun entry =>
      hexString (codeBytes low.length (codeOf low + UInt32.ofNat entry.2)) ++ " " ++
        hexString entry.1 ++ " ") ++
    "endbfchar\n"

theorem spells_arraySection (low high : List UInt8) (strings : List (List UInt8)) :
    SpellsText (arraySection low high strings) ([.integer 1, .keyword "beginbfrange"] ++
      arrayTokens low high strings ++ [.keyword "endbfrange"]) := by
  have opening : SpellsText "1 beginbfrange\n" [.integer 1, .keyword "beginbfrange"] :=
    spells_line (by decide +kernel) (by decide +kernel)
  have bracket : SpellsText " [\n" [.arrayStart] :=
    spells_line (by decide +kernel) (by decide +kernel)
  have entry (string : List UInt8) : SpellsText (hexString string ++ " ") [.hex string] :=
    (spells_hexString string).append spells_blank
  have entries : SpellsText (String.join (strings.map fun string => hexString string ++ " "))
      (strings.map .hex) := by
    rw [List.map_eq_flatMap (f := Token.hex)]
    exact spells_join entry
  have unbracket : SpellsText "]\n" [.arrayEnd] :=
    spells_line (by decide +kernel) (by decide +kernel)
  have closing : SpellsText "endbfrange\n" [.keyword "endbfrange"] :=
    spells_line (by decide +kernel) (by decide +kernel)
  have whole := ((((((opening.append (spells_hexString low)).append spells_blank).append
    (spells_hexString high)).append bracket).append entries).append unbracket).append closing
  simp only [arrayTokens, List.append_assoc, List.cons_append, List.nil_append] at whole ⊢
  exact whole

theorem spells_charsSection (low high : List UInt8) (strings : List (List UInt8)) :
    SpellsText (charsSection low high strings)
      ([number (strings.take (rangeSize (codeOf low) (codeOf high))).length,
          .keyword "beginbfchar"] ++
        charTokens low.length (codeOf low)
          (strings.take (rangeSize (codeOf low) (codeOf high))).zipIdx ++
        [.keyword "endbfchar"]) := by
  have count (n : Nat) : SpellsText (toString n ++ " ") [number n] :=
    spells_number n (c := ' ') rfl (by decide) rfl
  have opening : SpellsText "beginbfchar\n" [.keyword "beginbfchar"] :=
    spells_line (by decide +kernel) (by decide +kernel)
  have closing : SpellsText "endbfchar\n" [.keyword "endbfchar"] :=
    spells_line (by decide +kernel) (by decide +kernel)
  have entry (item : List UInt8 × Nat) :
      SpellsText (hexString (codeBytes low.length (codeOf low + UInt32.ofNat item.2)) ++ " " ++
        hexString item.1 ++ " ")
        [.hex (codeBytes low.length (codeOf low + UInt32.ofNat item.2)), .hex item.1] :=
    (((spells_hexString _).append spells_blank).append (spells_hexString _)).append spells_blank
  have entries : SpellsText _ (charTokens low.length (codeOf low)
    (strings.take (rangeSize (codeOf low) (codeOf high))).zipIdx) := spells_join entry
  exact (((count _).append opening).append entries).append closing

theorem textSections_agree_iff {header : Bytes} {m : CodeMap}
    (readable : (read header).result = .ok m) {low high : List UInt8}
    (same : low.length = high.length)
    (few : rangeSize (codeOf low) (codeOf high) ≤ maxRangeCodes) (strings : List (List UInt8)) :
    ∃ byArray byChars,
      (read (header ++ #[10] ++ Bytes.ofText (arraySection low high strings))).result =
        .ok byArray ∧
      (read (header ++ #[10] ++ Bytes.ofText (charsSection low high strings))).result =
        .ok byChars ∧
      Filled (codeOf low) (codeOf high)
        (fun code => (arrayString? (codeOf low) code strings).map stringText)
        m.texts byArray.texts ∧
      Filled (codeOf low) (codeOf high)
        (fun code => strings[code.toNat - (codeOf low).toNat]?.map stringText)
        m.texts byChars.texts ∧
      ((∀ code : UInt32, byArray.texts[code]? = byChars.texts[code]?) ↔
        (codeOf high = 0xFFFFFFFF →
          (strings.drop ((codeOf high).toNat - (codeOf low).toNat)).getLast?.map stringText =
            strings[(codeOf high).toNat - (codeOf low).toNat]?.map stringText)) := by
  have fits : (codeOf high).toNat < Nat.pow 256 low.length := by
    rw [same]
    exact codeOf_lt high
  have listed : (strings.take (rangeSize (codeOf low) (codeOf high))).length ≤
      rangeSize (codeOf low) (codeOf high) := List.length_take_le _ _
  have count := number_of_lt (Nat.lt_of_le_of_lt (Nat.le_trans listed few) (by decide))
  have spelled := spells_charsSection low high strings
  rw [count] at spelled
  obtain ⟨spaces, _, runArray⟩ := read_append_section readable rfl
    (spells_arraySection low high strings)
    fun m' lengths => ⟨_, reads_arrayTokens m' lengths strings few⟩
  obtain ⟨spaces', _, runChars⟩ := read_append_section readable rfl spelled
    fun m' lengths => reads_listed m' lengths fits listed
  have filled := filled_setStrings (codeOf low) (codeOf high) strings { m with spaces }
  have filled' := filled_setStrings_take (codeOf low) (codeOf high) strings
    { m with spaces := spaces' }
  refine ⟨_, _, runArray, runChars, filled, filled', ?_⟩
  refine (filled.agree_iff filled' fun code =>
    isSome_arrayString? (codeOf low) code strings).trans ?_
  constructor
  · intro agree greatest
    have ordered : codeOf low ≤ codeOf high := by
      rw [greatest]
      exact le_greatest _
    have last := agree _ ordered (UInt32.le_refl _)
    rwa [arrayString?, if_pos greatest] at last
  · intro agree code lower upper
    by_cases greatest : code = 0xFFFFFFFF
    · have top : codeOf high = code :=
        UInt32.le_antisymm (greatest ▸ le_greatest _) upper
      rw [arrayString?, if_pos greatest, ← top]
      exact agree (top.trans greatest)
    · rw [arrayString?_of_ne greatest]

/-- Two strings for a range of one code, the greatest one. -/
theorem textSections_agree_iff_greatest :
    ∃ byArray byChars,
      (read (Bytes.ofText "1 begincodespacerange <0000> <FFFF> endcodespacerange" ++ #[10] ++
        Bytes.ofText (arraySection [255, 255, 255, 255] [255, 255, 255, 255]
          [[0, 0x41], [0, 0x42]]))).result = .ok byArray ∧
      (read (Bytes.ofText "1 begincodespacerange <0000> <FFFF> endcodespacerange" ++ #[10] ++
        Bytes.ofText (charsSection [255, 255, 255, 255] [255, 255, 255, 255]
          [[0, 0x41], [0, 0x42]]))).result = .ok byChars ∧
      byArray.texts[(0xFFFFFFFF : UInt32)]? = some "B" ∧
      byChars.texts[(0xFFFFFFFF : UInt32)]? = some "A" := by
  obtain ⟨byArray, byChars, runArray, runChars, filled, filled', -⟩ :=
    textSections_agree_iff read_spaces
      (show [(255 : UInt8), 255, 255, 255].length = [(255 : UInt8), 255, 255, 255].length from rfl)
      (by decide) [[0, 0x41], [0, 0x42]]
  refine ⟨byArray, byChars, runArray, runChars, ?_, ?_⟩
  · rw [filled 0xFFFFFFFF]
    decide +kernel
  · rw [filled' 0xFFFFFFFF]
    decide +kernel

end FontSubset.CodeMap
