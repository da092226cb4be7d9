import FontSubset.Proofs.CodeMap.Reader

/-!
# Places of tokens

What a step of the reading does, said once: `Place.next` is the place that a token leads to and
`Place.effect` what it makes of the map (`step_core`). Neither depends on the lengths of the codes
that have been read.
-/

namespace FontSubset.CodeMap

/-- The operator that opens a section. -/
def opening (part : Section) : Token :=
  .keyword ("begin" ++ part.name)

/-- The operator that ends a section. -/
def ending (part : Section) : Token :=
  .keyword ("end" ++ part.name)

/-- The bytes of a string in hexadecimal. -/
def hexOf? : Token → Option (List UInt8)
  | .hex bytes => some bytes
  | _ => none

/-- The place that a token leads to, whatever has been read before. -/
def Place.next : Place → Token → Place
  | .outside _, .name "CMapName" => .mapName
  | .outside _, .name name => .outside (some name)
  | .outside _, .keyword word => (Reader.opened? word).elim (.outside none) .entry
  | .outside _, _ => .outside none
  | .mapName, _ => .outside (some "CMapName")
  | .entry part, token =>
    if token = ending part then .outside none
    else (hexOf? token).elim (.entry part) fun code => Reader.behindCode code part
  | .spaceHigh _, _ => .entry .codeSpaceRange
  | .charText _, _ => .entry .bfChar
  | .rangeHigh low, .hex high => .rangeText (codeOf low) (codeOf high)
  | .rangeHigh _, _ => .entry .bfRange
  | .rangeText low high, .arrayStart => .rangeArray high low
  | .rangeText .., _ => .entry .bfRange
  | .rangeArray high code, .hex _ => .rangeArray high (Reader.nextCodeOf code)
  | .rangeArray .., .arrayEnd => .entry .bfRange
  | .rangeArray high code, _ => .rangeArray high code
  | .charCid _, _ => .entry .cidChar
  | .cidHigh low, token => .cidFirst low (hexOf? token)
  | .cidFirst .., _ => .entry .cidRange

/-- What a token makes of the map. -/
def Place.effect (m : CodeMap) : Place → Token → Except FontError CodeMap
  | .mapName, .name name => .ok { m with name := some name }
  | .spaceHigh low, .hex high =>
    if low.length = high.length ∧ low ≠ [] ∧ low.length ≤ 4 then
      .ok { m with spaces := m.spaces ++ [⟨codeOf low, codeOf high, low.length⟩] }
    else .ok m
  | .charText code, .hex text => .ok (m.setText (codeOf code) (textOf (Utf16.ofBytes text)))
  | .rangeHigh low, .hex high =>
    (Reader.checkRange .bfRange (codeOf low) (codeOf high)).map fun _ => m
  | .rangeText low high, .hex text => .ok (m.setTextRange low high (Utf16.ofBytes text))
  | .rangeArray high code, .hex text =>
    .ok (if code ≤ high then m.setText code (textOf (Utf16.ofBytes text)) else m)
  | .charCid code, .integer (.ofNat cid) => .ok (m.setCid (codeOf code) (UInt32.ofNat cid))
  | .cidFirst low (some high), .integer cid =>
    if 0 ≤ cid ∧ cid < UInt32.size then
      (Reader.checkRange .cidRange (codeOf low) (codeOf high)).map fun _ =>
        m.setCidRange (codeOf low) (codeOf high) (UInt32.ofNat cid.toNat)
    else .ok m
  | _, _ => .ok m

/-- What has been read, without the lengths of the codes. -/
def core (r : Reader) : Place × CodeMap :=
  (r.place, r.map)

def coreStep (s : Place × CodeMap) (token : Token) : Except FontError (Place × CodeMap) :=
  (s.1.effect s.2 token).map fun m => (s.1.next token, m)

theorem closes_iff {part : Section} {token : Token} :
    Reader.closes part token ↔ token = ending part := by
  simp [Reader.closes, ending]

theorem result_outside (r : Reader) (lastName : Option String) (token : Token) :
    (r.outside lastName token).result = .ok (r.moveTo ((Place.outside lastName).next token)) := by
  cases token with
  | name name =>
    by_cases expected : name = "CMapName"
    · subst expected
      rfl
    · rw [Reader.outside.eq_2 _ _ _ expected, Place.next.eq_2 _ _ expected]
      rfl
  | keyword word =>
    rw [Place.next]
    simp only [Reader.outside]
    cases Reader.opened? word with
    | some part => rfl
    | none =>
      cases lastName with
      | none => rfl
      | some parent =>
        dsimp only
        split <;> rfl
  | _ => rfl

theorem step_core (r : Reader) (token : Token) :
    (r.step token).result.map core = coreStep (core r) token := by
  obtain ⟨place, m, lengths⟩ := r
  cases place with
  | outside lastName =>
    simp only [Reader.step, result_outside]
    rfl
  | mapName | charText code | rangeText low high | cidHigh low | rangeArray high code =>
    cases token <;> rfl
  | entry part =>
    simp only [Reader.step, Reader.entry, closes_iff, core, coreStep, Place.next]
    split
    · rfl
    · cases token <;> rfl
  | spaceHigh low =>
    cases token with
    | hex high =>
      simp only [Reader.step, Reader.spaceHigh, core, coreStep, Place.effect]
      split <;> rfl
    | _ => rfl
  | rangeHigh low =>
    cases token with
    | hex high =>
      simp only [Reader.step, Reader.rangeHigh, Traced.result_bind, Traced.result_lift, core,
        coreStep, Place.effect]
      cases Reader.checkRange .bfRange (codeOf low) (codeOf high) <;> rfl
    | _ => rfl
  | charCid code =>
    cases token with
    | integer cid => cases cid <;> rfl
    | _ => rfl
  | cidFirst low high =>
    cases high with
    | none => rfl
    | some high =>
      cases token with
      | integer cid =>
        simp only [Reader.step, Reader.cidFirst, core, coreStep, Place.effect]
        split
        · simp only [Traced.result_bind, Traced.result_lift]
          cases Reader.checkRange .cidRange (codeOf low) (codeOf high) with
          | error fault => rfl
          | ok =>
            simp only [ok_bind]
            split <;> rfl
        · rfl
      | _ => rfl

/-! ## Runs -/

theorem outcome_core (r : Reader) (front : List Token) :
    (outcome r front).map core = front.foldlM coreStep (core r) := by
  induction front generalizing r with
  | nil => rfl
  | cons token rest ih =>
    rw [outcome_cons, List.foldlM_cons, ← step_core]
    cases (r.step token).result with
    | error fault => rfl
    | ok s => exact ih s

theorem reads_core {r r' : Reader} {front : List Token} (run : reads r front r') :
    front.foldlM coreStep (core r) = .ok (core r') := by
  rw [← outcome_core]
  exact congrArg (Except.map core) run

theorem coreStep_eq_ok {s s' : Place × CodeMap} {token : Token} : coreStep s token = .ok s' ↔
    s.1.effect s.2 token = .ok s'.2 ∧ s.1.next token = s'.1 := by
  obtain ⟨place, m⟩ := s'
  simp [coreStep, map_eq_ok, and_comm]

theorem place_reads {r r' : Reader} {front : List Token} (run : reads r front r') :
    r'.place = front.foldl Place.next r.place := by
  suffices go : ∀ s s' : Place × CodeMap, front.foldlM coreStep s = .ok s' →
      s'.1 = front.foldl Place.next s.1 from go _ _ (reads_core run)
  clear run
  intro s s' run
  induction front generalizing s with
  | nil =>
    cases run
    rfl
  | cons token rest ih =>
    rw [List.foldlM_cons, bind_eq_ok] at run
    obtain ⟨t, first, others⟩ := run
    rw [ih t others, ← (coreStep_eq_ok.1 first).2, List.foldl_cons]

/-- What an entry for a range keeps if each code of the range does. -/
theorem kept_foldl {β : Type} (field : CodeMap → β) {set : CodeMap → Nat → CodeMap}
    (kept : ∀ m step, field (set m step) = field m) (steps : List Nat) (m : CodeMap) :
    field (steps.foldl set m) = field m := by
  induction steps generalizing m with
  | nil => rfl
  | cons step rest ih => exact (ih (set m step)).trans (kept m step)

end FontSubset.CodeMap
