import FontSubset.Proofs.CodeMap.Codes
import FontSubset.Proofs.CodeMap.Reader
import FontSubset.Proofs.Shown.Dictionary

/-!
# Codes of simple fonts

* `ShownFont.codes_single_iff`: the codes of a simple font are bytes, but where it has a map to text,
  the code spaces of the map split its strings. Each byte is a code just when no code of several
  bytes begins with a byte that is no code by itself.
-/

namespace FontSubset

namespace CodeMap

/-- A code of several bytes stands first, and its first byte is no code by itself. -/
def BeginsLong (m : CodeMap) (bytes : List UInt8) : Prop :=
  ∃ length, 2 ≤ length ∧ length ≤ 4 ∧ m.accepts bytes length ∧ ¬ m.accepts bytes 1

section
variable {m : CodeMap} {bytes : List UInt8}

theorem BeginsLong.two_le (long : m.BeginsLong bytes) : 2 ≤ bytes.length := by
  obtain ⟨length, two, -, accepted, -⟩ := long
  exact Nat.le_trans two (accepts_eq_true.1 accepted).1

theorem length_nextCode_eq_one_iff : (m.nextCode bytes).2 = 1 ↔ ¬ m.BeginsLong bytes := by
  rw [nextCode_eq]
  cases found : (List.range' 1 4).find? (m.accepts bytes) with
  | none =>
    refine iff_of_true rfl ?_
    rintro ⟨length, two, four, accepted, -⟩
    exact List.find?_eq_none.1 found length (List.mem_range'_1.2 (by omega)) accepted
  | some length =>
    obtain ⟨accepted, range, first⟩ := List.find?_range'_eq_some.1 found
    have bounds := List.mem_range'_1.1 range
    rw [Option.elim_some]
    constructor
    · rintro rfl ⟨-, -, -, -, rejected⟩
      exact rejected accepted
    · intro short
      by_contra long
      have rejected := first 1 (Nat.le_refl 1) (by omega)
      exact short ⟨length, by omega, by omega, accepted, by simpa using rejected⟩

theorem nextCode_of_length_one {b : UInt8} {rest : List UInt8}
    (one : (m.nextCode (b :: rest)).2 = 1) : m.nextCode (b :: rest) = (b.toUInt32, 1) := by
  rw [nextCode_eq] at one ⊢
  cases found : (List.range' 1 4).find? (m.accepts (b :: rest)) with
  | none => rfl
  | some length =>
    rw [found] at one
    obtain rfl : length = 1 := one
    have code : codeOf [b] = b.toUInt32 := by simp [codeOf]
    exact congrArg (·, 1) code

theorem Cuts.length_le {pieces : List (UInt32 × Nat)} (cuts : m.Cuts bytes pieces) :
    pieces.length ≤ bytes.length := by
  induction cuts with
  | done => exact Nat.le_refl 0
  | next more _ ih =>
    have := m.length_nextCode more
    rw [List.length_drop] at ih
    rw [List.length_cons]
    omega

theorem length_codes_le (m : CodeMap) (bytes : List UInt8) :
    (m.codes bytes).length ≤ bytes.length := by
  obtain ⟨pieces, cuts⟩ := m.exists_cuts bytes
  rw [← cuts.codes_eq, List.length_map]
  exact cuts.length_le

/-- A code of several bytes leaves fewer codes than there are bytes. -/
theorem codes_eq_map_iff : m.codes bytes = bytes.map UInt8.toUInt32 ↔
    ∀ rest, rest <:+ bytes → ¬ m.BeginsLong rest := by
  induction bytes with
  | nil =>
    refine iff_of_true (by rw [codes, List.map_nil]) fun rest behind long => ?_
    rw [List.suffix_nil.1 behind] at long
    exact absurd long.two_le (by decide)
  | cons b rest ih =>
    have split : (∀ tail, tail <:+ b :: rest → ¬ m.BeginsLong tail) ↔
        ¬ m.BeginsLong (b :: rest) ∧ ∀ tail, tail <:+ rest → ¬ m.BeginsLong tail := by
      simp only [List.suffix_cons_iff, or_imp, forall_and, forall_eq]
    rw [split, ← ih, ← length_nextCode_eq_one_iff, codes_eq m (List.cons_ne_nil b rest)]
    by_cases one : (m.nextCode (b :: rest)).2 = 1
    · rw [nextCode_of_length_one one, List.map_cons, List.drop_succ_cons, List.drop_zero]
      simp
    · refine iff_of_false (fun same => ?_) fun both => one both.1
      have bounds := m.length_nextCode (List.cons_ne_nil b rest)
      have fewer := length_codes_le m ((b :: rest).drop (m.nextCode (b :: rest)).2)
      have lengths := congrArg List.length same
      rw [List.length_drop] at fewer
      simp only [List.length_cons, List.length_map] at lengths fewer bounds
      omega

/-- The bytes of any string are its codes just when each byte that begins a longer code is one. -/
theorem forall_codes_eq_map_iff : (∀ bytes, m.codes bytes = bytes.map UInt8.toUInt32) ↔
    ∀ s ∈ m.spaces, ∀ b rest, rest ≠ [] → rest.length ≤ 3 →
      s.contains (codeOf (b :: rest)) (b :: rest).length →
        ∃ s' ∈ m.spaces, s'.contains b.toUInt32 1 := by
  have single (b : UInt8) (rest : List UInt8) : m.accepts (b :: rest) 1 ↔
      ∃ s' ∈ m.spaces, s'.contains b.toUInt32 1 := by
    have code : codeOf ((b :: rest).take 1) = b.toUInt32 := by simp [codeOf]
    rw [accepts_eq_true, code]
    exact and_iff_right (Nat.le_add_left 1 _)
  constructor
  · intro each s mem b rest more few contains
    rw [← single b rest]
    by_contra rejected
    refine codes_eq_map_iff.1 (each (b :: rest)) _ List.suffix_rfl
      ⟨(b :: rest).length, ?_, ?_, accepts_eq_true.2 ⟨Nat.le_refl _, s, mem, ?_⟩, rejected⟩
    · have := List.length_pos_iff.2 more
      rw [List.length_cons]
      omega
    · rw [List.length_cons]
      omega
    · rwa [List.take_length]
  · intro covered bytes
    refine codes_eq_map_iff.2 fun tail _ long => ?_
    obtain ⟨length, two, four, accepted, rejected⟩ := long
    obtain ⟨within, s, mem, contains⟩ := accepts_eq_true.1 accepted
    cases tail with
    | nil => exact absurd (Nat.le_trans two within) (by decide)
    | cons b rest =>
      obtain ⟨others, rfl⟩ := Nat.exists_eq_add_of_le' two
      have front : (b :: rest).take (others + 2) = b :: rest.take (others + 1) := List.take_succ_cons
      have taken : (rest.take (others + 1)).length = others + 1 :=
        List.length_take_of_le (Nat.le_of_succ_le_succ within)
      refine rejected ((single b rest).2 (covered s mem b (rest.take (others + 1)) ?_ (by omega) ?_))
      · exact List.ne_nil_of_length_pos (by omega)
      · rwa [List.length_cons, taken, ← front]

end

end CodeMap

namespace ShownFont

section
variable {resources : Resources} {d : FontDictionary} {f : ShownFont}

theorem Described.codes_of_toUnicode (described : Described resources d f)
    (single : d.encoding = .singleByte) {data : Bytes} {map : CodeMap}
    (mapped : d.toUnicode = some data) (read : (CodeMap.read data).result = .ok map)
    (bytes : List UInt8) : f.codes bytes = map.codes bytes := by
  obtain ⟨map', read', known⟩ := described.toUnicode_eq_some mapped
  obtain rfl := Except.ok.inj (read.symm.trans read')
  rw [codes, described.encoding, single, known]

theorem Described.codes_of_unmapped (described : Described resources d f)
    (single : d.encoding = .singleByte) (unmapped : d.toUnicode = none) (bytes : List UInt8) :
    f.codes bytes = bytes.map UInt8.toUInt32 := by
  rw [codes, described.encoding, single, described.toUnicode_eq_none unmapped]

/-- Without a map to text each byte is a code. With one, a string is split into its bytes just when
nowhere in it a longer code begins with a byte that is no code, and any string is just when each
byte that begins a longer code of a code space, declared or implied, is a code of one byte. -/
theorem codes_single_iff (run : (ofDictionary resources d).result = .ok f)
    (single : d.encoding = .singleByte) :
    (d.toUnicode = none → ∀ bytes, f.codes bytes = bytes.map UInt8.toUInt32) ∧
    ∀ data map, d.toUnicode = some data → (CodeMap.read data).result = .ok map →
      (∀ bytes, f.codes bytes = bytes.map UInt8.toUInt32 ↔
        ∀ rest, rest <:+ bytes → ¬ map.BeginsLong rest) ∧
      ((∀ bytes, f.codes bytes = bytes.map UInt8.toUInt32) ↔
        ∀ s ∈ map.spaces, ∀ b rest, rest ≠ [] → rest.length ≤ 3 →
          s.contains (codeOf (b :: rest)) (b :: rest).length →
            ∃ s' ∈ map.spaces, s'.contains b.toUInt32 1) := by
  refine ⟨(described run).codes_of_unmapped single, fun data map mapped read => ?_⟩
  have codes := (described run).codes_of_toUnicode single mapped read
  simp only [codes]
  exact ⟨fun bytes => CodeMap.codes_eq_map_iff, CodeMap.forall_codes_eq_map_iff⟩

end

/-- A simple font whose map to text is meant for codes of two bytes. -/
def pairsDictionary : FontDictionary :=
  ⟨.singleByte, some (.ofText "1 begincodespacerange <0000> <FFFF> endcodespacerange"), none, none,
    [], 0⟩

theorem codes_single_iff_pairs : ∃ f,
    (ofDictionary (fun _ => pure none) pairsDictionary).result = .ok f ∧
      f.codes [0x41] = [0x41] ∧ f.codes [0x41, 0x42] ≠ [0x41, 0x42] := by
  have built : (ofDictionary (fun _ => pure none) pairsDictionary).result.map (·.encoding) =
      .ok .singleByte := by decide +kernel
  obtain ⟨f, run, -⟩ := map_eq_ok.1 built
  obtain ⟨each, -⟩ := (codes_single_iff run rfl).2 _ _ rfl CodeMap.read_spaces
  refine ⟨f, run, (each [0x41]).2 ?_, fun same => ?_⟩
  · intro rest behind long
    exact absurd (Nat.le_trans long.two_le behind.length_le) (by decide)
  · refine (each [0x41, 0x42]).1 same _ List.suffix_rfl ⟨2, ?_⟩
    decide

end ShownFont

end FontSubset
