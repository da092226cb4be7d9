import FontSubset.Proofs.CodeMap.Codes
import FontSubset.Proofs.CodeMap.Places

/-!
# Bounds of code spaces

The bounds of a code space are compared with a code as numbers and not byte by byte.

* `nextCode_between`: a code that is taken lies between the bounds of a code space in the order of
  byte strings. All strings between the bounds lie within the box that the bytes of the bounds span
  just when the bounds leave no byte out behind the first one in which they differ.
-/

namespace FontSubset

/-! ## The order of byte strings -/

/-- Byte strings of one length in order: the first byte in which they differ decides. -/
inductive InOrder : List UInt8 → List UInt8 → Prop
  | nil : InOrder [] []
  | less {a b : UInt8} {as bs : List UInt8} (less : a < b) (same : as.length = bs.length) :
      InOrder (a :: as) (b :: bs)
  | equal {a : UInt8} {as bs : List UInt8} (others : InOrder as bs) : InOrder (a :: as) (a :: bs)

namespace InOrder

theorem length_eq {as bs : List UInt8} (ordered : InOrder as bs) : as.length = bs.length := by
  induction ordered with
  | nil => rfl
  | less _ same => exact congrArg (· + 1) same
  | equal _ ih => exact congrArg (· + 1) ih

theorem of_forall₂ {as bs : List UInt8} (each : List.Forall₂ (· ≤ ·) as bs) : InOrder as bs := by
  induction each with
  | nil => exact .nil
  | cons first others ih =>
    rcases UInt8.lt_or_eq_of_le first with less | rfl
    · exact .less less others.length_eq
    · exact .equal ih

theorem head_le {a b : UInt8} {as bs : List UInt8} (ordered : InOrder (a :: as) (b :: bs)) :
    a ≤ b := by
  cases ordered with
  | less less _ => exact UInt8.le_of_lt less
  | equal _ => exact UInt8.le_rfl

theorem cons_self_iff {a : UInt8} {as bs : List UInt8} :
    InOrder (a :: as) (a :: bs) ↔ InOrder as bs := by
  refine ⟨fun ordered => ?_, .equal⟩
  cases ordered with
  | less less _ => exact absurd less (UInt8.lt_irrefl a)
  | equal others => exact others

end InOrder

theorem toNat_codeOf_cons {b : UInt8} {rest : List UInt8} (short : rest.length < 4) :
    (codeOf (b :: rest)).toNat = b.toNat * Nat.pow 256 rest.length + (codeOf rest).toNat := by
  induction rest using List.reverseRecOn with
  | nil => simp [codeOf]
  | append_singleton rest c ih =>
    rw [List.length_append, List.length_singleton] at short ⊢
    have front := ih (by omega)
    have bound := codeOf_lt (b :: rest)
    have bound' := codeOf_lt rest
    have small := c.toNat_lt
    have size : UInt32.size = 4294967296 := rfl
    have power : Nat.pow 256 (rest.length + 1) = Nat.pow 256 rest.length * 256 := rfl
    have room : Nat.pow 256 (rest.length + 1) ≤ Nat.pow 256 3 :=
      Nat.pow_le_pow_right (by decide) (by omega)
    have three : Nat.pow 256 3 = 16777216 := rfl
    rw [List.length_cons, front] at bound
    rw [← List.cons_append, codeOf_append, codeOf_append, toNat_shift_or, toNat_shift_or, front,
      power, size, Nat.mod_eq_of_lt (by omega), Nat.mod_eq_of_lt (by omega), Nat.add_mul,
      Nat.mul_assoc, Nat.add_assoc]

/-- Codes of one length are in the order of their bytes. -/
theorem codeOf_le_iff {as bs : List UInt8} (same : as.length = bs.length)
    (short : as.length ≤ 4) : codeOf as ≤ codeOf bs ↔ InOrder as bs := by
  rw [UInt32.le_iff_toNat_le]
  induction as generalizing bs with
  | nil =>
    obtain rfl := List.length_eq_zero_iff.1 same.symm
    exact ⟨fun _ => .nil, fun _ => Nat.le_refl _⟩
  | cons a as ih =>
    obtain ⟨b, bs, rfl⟩ := List.exists_cons_of_length_eq_add_one same.symm
    have same' : as.length = bs.length := Nat.succ.inj same
    rw [List.length_cons] at short
    have others := ih same' (by omega)
    have bound := codeOf_lt as
    have bound' := codeOf_lt bs
    rw [toNat_codeOf_cons (by omega), toNat_codeOf_cons (by omega), ← same']
    rw [← same'] at bound'
    generalize Nat.pow 256 as.length = unit at bound bound'
    rcases Nat.lt_trichotomy a.toNat b.toNat with less | equal | greater
    · have step : (a.toNat + 1) * unit ≤ b.toNat * unit := Nat.mul_le_mul_right unit less
      rw [Nat.add_mul, Nat.one_mul] at step
      exact ⟨fun _ => .less (UInt8.lt_iff_toNat_lt.2 less) same', fun _ => by omega⟩
    · obtain rfl := UInt8.toNat_inj.1 equal
      rw [Nat.add_le_add_iff_left, others, InOrder.cons_self_iff]
    · have step : (b.toNat + 1) * unit ≤ a.toNat * unit := Nat.mul_le_mul_right unit greater
      rw [Nat.add_mul, Nat.one_mul] at step
      constructor
      · intro below
        omega
      · intro ordered
        exact absurd (UInt8.le_iff_toNat_le.1 ordered.head_le) (Nat.not_le.2 greater)

/-! ## Boxes -/

/-- Each byte lies between the bytes that stand in its place. -/
def InBox (low high bytes : List UInt8) : Prop :=
  List.Forall₂ (· ≤ ·) low bytes ∧ List.Forall₂ (· ≤ ·) bytes high

/-- Behind the first byte in which they differ, the bounds are the least and the greatest string. -/
def Aligned : List UInt8 → List UInt8 → Prop
  | a :: low, b :: high =>
    if a = b then Aligned low high else (∀ c ∈ low, c = 0) ∧ ∀ c ∈ high, c = 255
  | _, _ => True

theorem forall₂_zeros {low bytes : List UInt8} (zeros : ∀ c ∈ low, c = 0)
    (same : low.length = bytes.length) : List.Forall₂ (· ≤ ·) low bytes := by
  refine List.forall₂_iff_zip.2 ⟨same, fun mem => ?_⟩
  rw [zeros _ (List.of_mem_zip mem).1]
  exact UInt8.zero_le

theorem forall₂_greatest {bytes high : List UInt8} (greatest : ∀ c ∈ high, c = 255)
    (same : bytes.length = high.length) : List.Forall₂ (· ≤ ·) bytes high := by
  refine List.forall₂_iff_zip.2 ⟨same, fun mem => ?_⟩
  rw [greatest _ (List.of_mem_zip mem).2]
  exact UInt8.le_iff_toNat_le.2 (Nat.le_of_lt_succ (UInt8.toNat_lt _))

theorem eq_zero_of_forall₂ {low : List UInt8} {n : Nat}
    (below : List.Forall₂ (· ≤ ·) low (List.replicate n 0)) : ∀ c ∈ low, c = 0 := by
  intro c mem
  obtain ⟨zero, there, le⟩ := exists_of_mem_left below mem
  obtain rfl := List.eq_of_mem_replicate there
  exact UInt8.le_zero_iff.1 le

theorem eq_greatest_of_forall₂ {high : List UInt8} {n : Nat}
    (above : List.Forall₂ (· ≤ ·) (List.replicate n 255) high) : ∀ c ∈ high, c = 255 := by
  intro c mem
  obtain ⟨greatest, there, le⟩ := exists_of_mem_left (List.Forall₂.flip above) mem
  obtain rfl := List.eq_of_mem_replicate there
  exact UInt8.toNat_inj.1 (Nat.le_antisymm (Nat.le_of_lt_succ c.toNat_lt)
    (UInt8.le_iff_toNat_le.1 le))

/-- A box takes in all that lies between its corners just when, behind the first byte that changes,
every byte runs through all its values. -/
theorem inBox_iff_aligned {low high : List UInt8} (ordered : InOrder low high) :
    (∀ bytes, InOrder low bytes → InOrder bytes high → InBox low high bytes) ↔
      Aligned low high := by
  induction ordered with
  | nil =>
    refine ⟨fun _ => trivial, fun _ bytes lower _ => ?_⟩
    cases lower
    exact ⟨.nil, .nil⟩
  | @less a b low high less same =>
    rw [Aligned, if_neg (UInt8.ne_of_lt less)]
    constructor
    · intro inside
      -- the least string that begins with `b` and the greatest one that begins with `a`
      have least : InOrder (List.replicate high.length 0) high :=
        .of_forall₂ (forall₂_zeros (fun c => List.eq_of_mem_replicate) List.length_replicate)
      have greatest : InOrder low (List.replicate low.length 255) :=
        .of_forall₂ (forall₂_greatest (fun c => List.eq_of_mem_replicate)
          List.length_replicate.symm)
      have below := (inside (b :: List.replicate high.length 0)
        (.less less (same.trans List.length_replicate.symm)) (.equal least)).1
      have above := (inside (a :: List.replicate low.length 255) (.equal greatest)
        (.less less (List.length_replicate.trans same))).2
      exact ⟨eq_zero_of_forall₂ (List.forall₂_cons.1 below).2,
        eq_greatest_of_forall₂ (List.forall₂_cons.1 above).2⟩
    · rintro ⟨zeros, greatest⟩ bytes lower upper
      obtain ⟨c, rest, rfl⟩ := List.exists_cons_of_length_eq_add_one lower.length_eq.symm
      exact ⟨.cons lower.head_le (forall₂_zeros zeros (Nat.succ.inj lower.length_eq)),
        .cons upper.head_le (forall₂_greatest greatest (Nat.succ.inj upper.length_eq))⟩
  | @equal a low high ordered ih =>
    rw [Aligned, if_pos rfl, ← ih]
    constructor
    · intro inside rest lower upper
      obtain ⟨below, above⟩ := inside (a :: rest) (.equal lower) (.equal upper)
      exact ⟨(List.forall₂_cons.1 below).2, (List.forall₂_cons.1 above).2⟩
    · intro inside bytes lower upper
      obtain ⟨c, rest, rfl⟩ := List.exists_cons_of_length_eq_add_one lower.length_eq.symm
      obtain rfl := UInt8.le_antisymm lower.head_le upper.head_le
      obtain ⟨below, above⟩ := inside rest (InOrder.cons_self_iff.1 lower)
        (InOrder.cons_self_iff.1 upper)
      exact ⟨.cons UInt8.le_rfl below, .cons UInt8.le_rfl above⟩

/-! ## Code spaces -/

namespace CodeSpace

/-- The bounds are codes of the length of the code space. -/
def Fits (s : CodeSpace) : Prop :=
  s.low.toNat < Nat.pow 256 s.length ∧ s.high.toNat < Nat.pow 256 s.length

def lowBytes (s : CodeSpace) : List UInt8 :=
  codeBytes s.length s.low

def highBytes (s : CodeSpace) : List UInt8 :=
  codeBytes s.length s.high

/-- The bytes lie between the bounds in the order of byte strings. -/
def Spans (s : CodeSpace) (bytes : List UInt8) : Prop :=
  InOrder s.lowBytes bytes ∧ InOrder bytes s.highBytes

theorem contains_iff_spans {s : CodeSpace} (fits : s.Fits) {bytes : List UInt8}
    (short : bytes.length ≤ 4) : s.contains (codeOf bytes) bytes.length ↔ s.Spans bytes := by
  rw [contains, decide_eq_true_eq]
  have low : codeOf s.lowBytes = s.low := codeOf_codeBytes fits.1
  have high : codeOf s.highBytes = s.high := codeOf_codeBytes fits.2
  have lowLength : s.lowBytes.length = s.length := length_codeBytes _ _
  have highLength : s.highBytes.length = s.length := length_codeBytes _ _
  constructor
  · rintro ⟨same, lower, upper⟩
    rw [← low, codeOf_le_iff (lowLength.trans same) (by omega)] at lower
    rw [← high, codeOf_le_iff (same.symm.trans highLength.symm) short] at upper
    exact ⟨lower, upper⟩
  · rintro ⟨lower, upper⟩
    have same := lower.length_eq
    rw [← low, ← high, codeOf_le_iff same (by omega), codeOf_le_iff upper.length_eq short]
    exact ⟨lowLength.symm.trans same, lower, upper⟩

/-- Where the bounds are in order, the box of their bytes takes in all that lies between them just
when they are aligned. -/
theorem inBox_iff {s : CodeSpace} (fits : s.Fits) (short : s.length ≤ 4) :
    (∀ bytes, s.Spans bytes → InBox s.lowBytes s.highBytes bytes) ↔
      s.high < s.low ∨ Aligned s.lowBytes s.highBytes := by
  have low : codeOf s.lowBytes = s.low := codeOf_codeBytes fits.1
  have high : codeOf s.highBytes = s.high := codeOf_codeBytes fits.2
  have length : s.lowBytes.length = s.length := length_codeBytes _ _
  have same : s.lowBytes.length = s.highBytes.length := length.trans (length_codeBytes _ _).symm
  have order := codeOf_le_iff same (by omega)
  rw [low, high] at order
  by_cases ordered : s.low ≤ s.high
  · rw [or_iff_right (UInt32.not_lt.2 ordered), ← inBox_iff_aligned (order.1 ordered)]
    exact ⟨fun inside bytes lower upper => inside bytes ⟨lower, upper⟩,
      fun inside bytes spans => inside bytes spans.1 spans.2⟩
  · refine iff_of_true (fun bytes spans => ?_) (.inl (UInt32.not_le.1 ordered))
    have lower := (codeOf_le_iff spans.1.length_eq (by omega)).2 spans.1
    have upper := (codeOf_le_iff spans.2.length_eq (by have := spans.1.length_eq; omega)).2 spans.2
    rw [low] at lower
    rw [high] at upper
    exact absurd (UInt32.le_trans lower upper) ordered

theorem fits_full (length : Nat) : (full length).Fits := by
  have power : 1 <<< (8 * length) = Nat.pow 256 length := by
    rw [Nat.one_shiftLeft, Nat.pow_mul]
    rfl
  have positive : 0 < Nat.pow 256 length := Nat.pow_pos (by decide)
  have size : UInt32.size = 4294967296 := rfl
  refine ⟨positive, ?_⟩
  rw [full, power, UInt32.toNat_ofNat']
  dsimp only
  omega

end CodeSpace

namespace CodeMap

/-! ## The code spaces of maps that are read -/

theorem spaces_setTextRange (m : CodeMap) (low high : UInt32) (units : List UInt16) :
    (m.setTextRange low high units).spaces = m.spaces := by
  rw [setTextRange]
  apply kept_foldl
  intro m step
  rfl

theorem spaces_setCidRange (m : CodeMap) (low high first : UInt32) :
    (m.setCidRange low high first).spaces = m.spaces := by
  rw [setCidRange]
  apply kept_foldl
  intro m step
  rfl

/-- A token declares one code space at most. -/
theorem spaces_effect {place : Place} {m m' : CodeMap} {token : Token}
    (effect : place.effect m token = .ok m') : m'.spaces = m.spaces ∨
      ∃ low high : List UInt8, low.length = high.length ∧
        m'.spaces = m.spaces ++ [⟨codeOf low, codeOf high, low.length⟩] := by
  unfold Place.effect at effect
  split at effect
  · cases effect
    exact .inl rfl
  · next low high =>
    split at effect
    · next fit =>
      cases effect
      exact .inr ⟨low, high, fit.1, rfl⟩
    · cases effect
      exact .inl rfl
  · cases effect
    exact .inl rfl
  · obtain ⟨_, -, rfl⟩ := map_eq_ok.1 effect
    exact .inl rfl
  · cases effect
    exact .inl (spaces_setTextRange m _ _ _)
  · cases effect
    split <;> exact .inl rfl
  · cases effect
    exact .inl rfl
  · split at effect
    · obtain ⟨_, -, rfl⟩ := map_eq_ok.1 effect
      exact .inl (spaces_setCidRange m _ _ _)
    · cases effect
      exact .inl rfl
  · cases effect
    exact .inl rfl

theorem fits_effect {place : Place} {m m' : CodeMap} {token : Token}
    (effect : place.effect m token = .ok m') (fits : ∀ s ∈ m.spaces, s.Fits) :
    ∀ s ∈ m'.spaces, s.Fits := by
  rcases spaces_effect effect with kept | ⟨low, high, same, added⟩
  · rwa [kept]
  · intro s mem
    rw [added, List.mem_append, List.mem_singleton] at mem
    rcases mem with mem | rfl
    · exact fits s mem
    · exact ⟨codeOf_lt low, same ▸ codeOf_lt high⟩

theorem fits_foldlM {front : List Token} {r r' : Place × CodeMap}
    (run : front.foldlM coreStep r = .ok r') (fits : ∀ s ∈ r.2.spaces, s.Fits) :
    ∀ s ∈ r'.2.spaces, s.Fits := by
  induction front generalizing r with
  | nil =>
    cases run
    exact fits
  | cons token rest ih =>
    rw [List.foldlM_cons, bind_eq_ok] at run
    obtain ⟨t, first, others⟩ := run
    exact ih others (fits_effect (coreStep_eq_ok.1 first).1 fits)

/-- The code spaces of a map that is read have bounds of one length, declared or not. -/
theorem fits_of_read {data : Bytes} {m : CodeMap} (read : (read data).result = .ok m) :
    ∀ s ∈ m.spaces, s.Fits := by
  obtain ⟨-, r, run, -, rfl⟩ := read_eq_ok.1 read
  have fits : ∀ s ∈ r.map.spaces, s.Fits :=
    fits_foldlM (reads_core run) fun s mem => absurd mem List.not_mem_nil
  rw [Reader.result]
  split
  · intro s mem
    simp only [Reader.impliedSpaces] at mem
    split at mem
    · rw [List.mem_singleton.1 mem]
      exact CodeSpace.fits_full 2
    · obtain ⟨length, -, rfl⟩ := List.mem_map.1 mem
      exact CodeSpace.fits_full length
  · exact fits

/-! ## Codes that are taken -/

theorem nextCode_spans {m : CodeMap} (fits : ∀ s ∈ m.spaces, s.Fits) (rest : List UInt8) :
    (∃ code, code <+: rest ∧ m.nextCode rest = (codeOf code, code.length) ∧
      ∃ s ∈ m.spaces, s.Spans code) ∨
    m.nextCode rest = ((rest.headD 0).toUInt32, 1) ∧
      ∀ code, code <+: rest → code ≠ [] → code.length ≤ 4 → ∀ s ∈ m.spaces, ¬ s.Spans code := by
  rw [nextCode_eq]
  cases found : (List.range' 1 4).find? (m.accepts rest) with
  | some length =>
    obtain ⟨accepted, range, -⟩ := List.find?_range'_eq_some.1 found
    obtain ⟨within, s, mem, contains⟩ := accepts_eq_true.1 accepted
    have taken : (rest.take length).length = length := by
      rw [List.length_take]
      omega
    have short := (List.mem_range'_1.1 range).2
    refine .inl ⟨rest.take length, List.take_prefix length rest, by rw [taken]; rfl, s, mem, ?_⟩
    rw [← CodeSpace.contains_iff_spans (fits s mem) (by omega), taken]
    exact contains
  | none =>
    refine .inr ⟨rfl, ?_⟩
    intro code front filled short s mem spans
    have positive := List.length_pos_iff.2 filled
    have passed := List.find?_eq_none.1 found code.length (List.mem_range'_1.2 (by omega))
    refine passed (accepts_eq_true.2 ⟨front.length_le, s, mem, ?_⟩)
    rw [← List.prefix_iff_eq_take.1 front]
    exact (CodeSpace.contains_iff_spans (fits s mem) short).2 spans

/-- A string that is taken for a code lies between the bounds of a code space, in the order of byte
strings; if there is none, a single byte is taken. Within the box that the bytes of the bounds span
it lies for certain just where the code space is empty or its bounds are aligned. -/
theorem nextCode_between :
    (∀ (data : Bytes) (m : CodeMap), (read data).result = .ok m → ∀ s ∈ m.spaces, s.Fits) ∧
    ∀ m : CodeMap, (∀ s ∈ m.spaces, s.Fits) →
      (∀ (bytes : List UInt8) (offset : Nat),
        (∃ code, code <+: bytes.drop offset ∧
          m.nextCode (bytes.drop offset) = (codeOf code, code.length) ∧
          ∃ s ∈ m.spaces, s.Spans code) ∨
        m.nextCode (bytes.drop offset) = (((bytes.drop offset).headD 0).toUInt32, 1) ∧
          ∀ code, code <+: bytes.drop offset → code ≠ [] → code.length ≤ 4 →
            ∀ s ∈ m.spaces, ¬ s.Spans code) ∧
      ∀ s ∈ m.spaces, s.length ≤ 4 →
        ((∀ code, s.Spans code → InBox s.lowBytes s.highBytes code) ↔
          s.high < s.low ∨ Aligned s.lowBytes s.highBytes) := by
  refine ⟨fun data m read => fits_of_read read, fun m fits => ⟨fun bytes offset => ?_, ?_⟩⟩
  · exact nextCode_spans fits (bytes.drop offset)
  · intro s mem short
    exact CodeSpace.inBox_iff (fits s mem) short

/-- Codes of two bytes, the second of which is never less than 40 in the bounds. -/
def leadSpaces : CodeMap :=
  ⟨none, [⟨0x8140, 0x9FFC, 2⟩], ∅, ∅⟩

theorem read_leadSpaces :
    (read (Bytes.ofText "1 begincodespacerange <8140> <9FFC> endcodespacerange")).result =
      .ok leadSpaces := by
  have lexed : tokens (Bytes.ofText "1 begincodespacerange <8140> <9FFC> endcodespacerange") =
      ([.integer 1, .keyword "begincodespacerange", .hex [0x81, 0x40], .hex [0x9F, 0xFC],
        .keyword "endcodespacerange"], none) := by decide +kernel
  let ended : Reader := ⟨.outside none, leadSpaces, ∅⟩
  exact read_eq_ok.2 ⟨by rw [lexed], ended, by rw [lexed]; rfl, rfl, rfl⟩

theorem nextCode_between_lead :
    (read (Bytes.ofText "1 begincodespacerange <8140> <9FFC> endcodespacerange")).result =
      .ok leadSpaces ∧
    (∃ code, code <+: [0x82, 0x10] ∧
      leadSpaces.nextCode ([0x41, 0x82, 0x10].drop 1) = (codeOf code, code.length) ∧
      ∃ s ∈ leadSpaces.spaces, s.Spans code) ∧
    ∃ s ∈ leadSpaces.spaces, ¬ ∀ code, s.Spans code → InBox s.lowBytes s.highBytes code := by
  obtain ⟨readable, between⟩ := nextCode_between
  have fits := readable _ _ read_leadSpaces
  obtain ⟨taken, boxes⟩ := between leadSpaces fits
  have pair : leadSpaces.nextCode [0x82, 0x10] = (0x8210, 2) := by decide
  refine ⟨read_leadSpaces, ?_, ⟨0x8140, 0x9FFC, 2⟩, List.mem_singleton.2 rfl, ?_⟩
  · rcases taken [0x41, 0x82, 0x10] 1 with found | ⟨single, -⟩
    · exact found
    · exact absurd (pair.symm.trans single) (by decide)
  · have bounds : ¬ Aligned [0x81, 0x40] [0x9F, 0xFC] := by simp [Aligned]
    rw [boxes _ (List.mem_singleton.2 rfl) (by decide)]
    exact not_or.2 ⟨by decide, bounds⟩

theorem nextCode_outsideBox :
    (read (Bytes.ofText "1 begincodespacerange <8140> <9FFC> endcodespacerange")).result =
      .ok leadSpaces ∧
    leadSpaces.nextCode ([0x82, 0x10].drop 0) = (0x8210, 2) ∧
    ¬ ∃ s ∈ leadSpaces.spaces, s.length = 2 ∧ InBox s.lowBytes s.highBytes [0x82, 0x10] := by
  refine ⟨read_leadSpaces, by decide, ?_⟩
  rintro ⟨s, mem, -, below, -⟩
  obtain rfl := List.mem_singleton.1 mem
  have second := (List.forall₂_cons.1 (List.forall₂_cons.1 below).2).1
  exact absurd second (by decide)

end CodeMap

end FontSubset
