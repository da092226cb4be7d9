import FontSubset.Proofs.CodeMap.Places

/-!
# Where sections end

A section is read entry by entry. An entry that is not complete is left out, but the tokens in the
places of its bounds and of its destination have been taken by then, whatever they are.

* `section_ends_iff`: a section ends at the first end operator that follows just when the tokens up
  to there make up whole entries; an end operator within an entry is taken for a part of it. Entries
  that are left out change nothing in what is read later.
-/

namespace FontSubset.CodeMap

/-! ## Entries -/

/-- A complete entry of a section. -/
inductive Entry : Section → List Token → Prop
  | space {low high : List UInt8}
      (fit : low.length = high.length ∧ low ≠ [] ∧ low.length ≤ 4) :
      Entry .codeSpaceRange [.hex low, .hex high]
  | charText {code text : List UInt8} : Entry .bfChar [.hex code, .hex text]
  | rangeText {low high text : List UInt8} : Entry .bfRange [.hex low, .hex high, .hex text]
  | rangeArray {low high : List UInt8} {inner : List Token} (unclosed : .arrayEnd ∉ inner) :
      Entry .bfRange ([.hex low, .hex high, .arrayStart] ++ inner ++ [.arrayEnd])
  | charCid {code : List UInt8} {cid : Nat} : Entry .cidChar [.hex code, .integer cid]
  | rangeCid {low high : List UInt8} {cid : Nat} (fit : cid < UInt32.size) :
      Entry .cidRange [.hex low, .hex high, .integer cid]

/-- Tokens that are read in the place of an entry and left out. -/
inductive Malformed : Section → List Token → Prop
  | stray {part : Section} {token : Token} (noCode : ∀ code, token ≠ .hex code)
      (noEnd : token ≠ ending part) : Malformed part [token]
  | space {low : List UInt8} {token : Token} (unfit : ∀ high, token = .hex high →
      ¬ (low.length = high.length ∧ low ≠ [] ∧ low.length ≤ 4)) :
      Malformed .codeSpaceRange [.hex low, token]
  | charText {code : List UInt8} {token : Token} (noText : ∀ text, token ≠ .hex text) :
      Malformed .bfChar [.hex code, token]
  | rangeBound {low : List UInt8} {token : Token} (noBound : ∀ high, token ≠ .hex high) :
      Malformed .bfRange [.hex low, token]
  | rangeText {low high : List UInt8} {token : Token} (noText : ∀ text, token ≠ .hex text)
      (noArray : token ≠ .arrayStart) : Malformed .bfRange [.hex low, .hex high, token]
  | charCid {code : List UInt8} {token : Token} (noCid : ∀ cid : Nat, token ≠ .integer cid) :
      Malformed .cidChar [.hex code, token]
  | rangeCid {low : List UInt8} {bound first : Token} (unfit : ∀ high (cid : Nat),
      bound = .hex high → first = .integer cid → ¬ cid < UInt32.size) :
      Malformed .cidRange [.hex low, bound, first]

def Item (part : Section) (item : List Token) : Prop :=
  Entry part item ∨ Malformed part item

/-- The tokens make up entries, complete ones and others. -/
inductive Whole (part : Section) : List Token → Prop
  | nil : Whole part []
  | append {item rest : List Token} (first : Item part item) (others : Whole part rest) :
      Whole part (item ++ rest)

/-! ## Whole entries -/

theorem foldl_hex (code : List UInt8) (part : Section) (rest : List Token) :
    (.hex code :: rest).foldl Place.next (.entry part) =
      rest.foldl Place.next (Reader.behindCode code part) := by
  rw [List.foldl_cons, Place.next, if_neg (by simp [ending])]
  rfl

/-- Within a section only its end operator leads out of it. -/
theorem part?_next {place : Place} {token : Token} {part : Section}
    (inside : place.part? = some part) (noEnd : token ≠ ending part) :
    (place.next token).part? = some part := by
  cases place with
  | outside lastName | mapName => cases inside
  | entry part =>
    cases inside
    rw [Place.next, if_neg noEnd]
    cases token with
    | hex code => cases part <;> rfl
    | _ => rfl
  | spaceHigh low | charText code | charCid code | cidHigh low | cidFirst low high =>
    cases inside
    rfl
  | rangeHigh low | rangeText low high | rangeArray high code =>
    cases inside
    cases token <;> rfl

theorem part?_foldl {place : Place} {inner : List Token} {part : Section}
    (inside : place.part? = some part) (noEnd : ending part ∉ inner) :
    (inner.foldl Place.next place).part? = some part := by
  induction inner generalizing place with
  | nil => exact inside
  | cons token rest ih =>
    obtain ⟨here, later⟩ := List.ne_and_not_mem_of_not_mem_cons noEnd
    exact ih (part?_next inside here.symm) later

/-- Only its closing bracket leads out of an array. -/
theorem foldl_rangeArray (high code : UInt32) {inner : List Token}
    (unclosed : .arrayEnd ∉ inner) :
    ∃ code', inner.foldl Place.next (.rangeArray high code) = .rangeArray high code' := by
  induction inner generalizing code with
  | nil => exact ⟨code, rfl⟩
  | cons token rest ih =>
    obtain ⟨here, later⟩ := List.ne_and_not_mem_of_not_mem_cons unclosed
    cases token with
    | arrayEnd => contradiction
    | _ => exact ih _ later

theorem Entry.foldl_next {part : Section} {item : List Token} (complete : Entry part item) :
    item.foldl Place.next (.entry part) = .entry part := by
  cases complete with
  | @rangeArray low high inner unclosed =>
    obtain ⟨code, stays⟩ := foldl_rangeArray (codeOf high) (codeOf low) unclosed
    rw [List.foldl_append, List.foldl_append, foldl_hex]
    exact congrArg (Place.next · .arrayEnd) stays
  | _ => rw [foldl_hex]; rfl

theorem Malformed.foldl_next {part : Section} {item : List Token} (broken : Malformed part item) :
    item.foldl Place.next (.entry part) = .entry part := by
  cases broken with
  | @stray _ token noCode noEnd =>
    rw [List.foldl_cons, Place.next, if_neg noEnd]
    cases token with
    | hex code => exact absurd rfl (noCode code)
    | _ => rfl
  | @rangeBound low token noBound =>
    rw [foldl_hex]
    cases token with
    | hex high => exact absurd rfl (noBound high)
    | _ => rfl
  | @rangeText low high token noText noArray =>
    rw [foldl_hex]
    cases token with
    | arrayStart => contradiction
    | _ => rfl
  | _ => rw [foldl_hex]; rfl

theorem Item.foldl_next {part : Section} {item : List Token} (kind : Item part item) :
    item.foldl Place.next (.entry part) = .entry part :=
  kind.elim Entry.foldl_next Malformed.foldl_next

theorem item_space (low : List UInt8) (token : Token) : Item .codeSpaceRange [.hex low, token] := by
  by_cases fit : ∃ high, token = .hex high ∧ low.length = high.length ∧ low ≠ [] ∧ low.length ≤ 4
  · obtain ⟨high, rfl, fit⟩ := fit
    exact .inl (.space fit)
  · exact .inr (.space fun high eq fits => fit ⟨high, eq, fits⟩)

theorem item_charText (code : List UInt8) (token : Token) : Item .bfChar [.hex code, token] := by
  cases token with
  | hex text => exact .inl .charText
  | _ => exact .inr (.charText (by simp))

theorem item_charCid (code : List UInt8) (token : Token) : Item .cidChar [.hex code, token] := by
  by_cases given : ∃ cid : Nat, token = .integer cid
  · obtain ⟨cid, rfl⟩ := given
    exact .inl .charCid
  · exact .inr (.charCid fun cid eq => given ⟨cid, eq⟩)

theorem item_rangeCid (low : List UInt8) (bound first : Token) :
    Item .cidRange [.hex low, bound, first] := by
  by_cases fit : ∃ high, ∃ cid : Nat, bound = .hex high ∧ first = .integer cid ∧ cid < UInt32.size
  · obtain ⟨high, cid, rfl, rfl, fit⟩ := fit
    exact .inl (.rangeCid fit)
  · exact .inr (.rangeCid fun high cid eq eq' fits => fit ⟨high, cid, eq, eq', fits⟩)

/-- An array from which the tokens have led out again has a closing bracket. -/
theorem arrayEnd_mem {high code : UInt32} {rest : List Token} {part : Section}
    (left : rest.foldl Place.next (.rangeArray high code) = .entry part) : .arrayEnd ∈ rest := by
  by_contra unclosed
  obtain ⟨_, stays⟩ := foldl_rangeArray high code unclosed
  rw [stays] at left
  contradiction

theorem exists_item_text (low high : List UInt8) {rest : List Token}
    (whole : rest.foldl Place.next (.rangeText (codeOf low) (codeOf high)) = .entry .bfRange) :
    ∃ item behind, [.hex low, .hex high] ++ rest = item ++ behind ∧ item ≠ [] ∧
      Item .bfRange item := by
  cases rest with
  | nil => contradiction
  | cons token rest =>
    cases token with
    | hex text => exact ⟨[.hex low, .hex high, .hex text], rest, rfl, by simp, .inl .rangeText⟩
    | arrayStart =>
      obtain ⟨inner, behind, rfl, unclosed⟩ := List.eq_append_cons_of_mem (arrayEnd_mem whole)
      exact ⟨[.hex low, .hex high, .arrayStart] ++ inner ++ [.arrayEnd], behind, by simp, by simp,
        .inl (.rangeArray unclosed)⟩
    | _ =>
      exact ⟨[.hex low, .hex high, _], rest, rfl, by simp, .inr (.rangeText (by simp) (by simp))⟩

theorem exists_item {part : Section} {first : Token} {rest : List Token}
    (noEnd : first ≠ ending part)
    (whole : (first :: rest).foldl Place.next (.entry part) = .entry part) :
    ∃ item behind, first :: rest = item ++ behind ∧ item ≠ [] ∧ Item part item := by
  by_cases coded : ∃ code, first = .hex code
  · obtain ⟨code, rfl⟩ := coded
    rw [foldl_hex] at whole
    cases part with
    | codeSpaceRange =>
      obtain _ | ⟨token, behind⟩ := rest
      · contradiction
      · exact ⟨[.hex code, token], behind, rfl, by simp, item_space code token⟩
    | bfChar =>
      obtain _ | ⟨token, behind⟩ := rest
      · contradiction
      · exact ⟨[.hex code, token], behind, rfl, by simp, item_charText code token⟩
    | bfRange =>
      obtain _ | ⟨token, behind⟩ := rest
      · contradiction
      · cases token with
        | hex high => exact exists_item_text code high whole
        | _ => exact ⟨[.hex code, _], behind, rfl, by simp, .inr (.rangeBound (by simp))⟩
    | cidChar =>
      obtain _ | ⟨token, behind⟩ := rest
      · contradiction
      · exact ⟨[.hex code, token], behind, rfl, by simp, item_charCid code token⟩
    | cidRange =>
      obtain _ | ⟨bound, _ | ⟨first, behind⟩⟩ := rest
      · contradiction
      · contradiction
      · exact ⟨[.hex code, bound, first], behind, rfl, by simp, item_rangeCid code bound first⟩
  · exact ⟨[first], rest, rfl, by simp,
      .inr (.stray (fun code eq => coded ⟨code, eq⟩) noEnd)⟩

/-- The entries of a section are whole just where another one may begin. -/
theorem whole_iff {part : Section} {inner : List Token} (noEnd : ending part ∉ inner) :
    Whole part inner ↔ inner.foldl Place.next (.entry part) = .entry part := by
  constructor
  · intro whole
    induction whole with
    | nil => rfl
    | append first others ih =>
      rw [List.foldl_append, first.foldl_next]
      exact ih fun mem => noEnd (List.mem_append_right _ mem)
  · -- An item has one token or more, so the induction is on the number of tokens.
    intro stays
    induction length : inner.length using Nat.strongRecOn generalizing inner with
    | ind n ih =>
      cases inner with
      | nil => exact .nil
      | cons first rest =>
        obtain ⟨here, -⟩ := List.ne_and_not_mem_of_not_mem_cons noEnd
        obtain ⟨item, behind, split, ne, kind⟩ := exists_item here.symm stays
        rw [split] at noEnd stays length ⊢
        rw [List.foldl_append, kind.foldl_next] at stays
        have shorter : behind.length < n := by
          have := List.length_pos_of_ne_nil ne
          rw [← length, List.length_append]
          omega
        exact .append kind (ih _ shorter (fun mem => noEnd (List.mem_append_right _ mem)) stays rfl)

/-! ## Ends of sections -/

theorem reads_opening (m : CodeMap) (lengths : Std.TreeSet Nat) (lastName : Option String)
    (part : Section) :
    reads ⟨.outside lastName, m, lengths⟩ [opening part] ⟨.entry part, m, lengths⟩ := by
  cases part <;> rfl

theorem step_ending_entry (r : Reader) {part : Section} (here : r.place = .entry part) :
    (r.step (ending part)).result = .ok (r.moveTo (.outside none)) := by
  simp [Reader.step, here, Reader.entry, closes_iff]

/-- Within an entry an end operator is taken for a part of it. -/
theorem step_ending {r : Reader} {part : Section} (inside : r.place.part? = some part)
    (within : r.place ≠ .entry part) :
    ∃ place : Place, place.part? = some part ∧
      (r.step (ending part)).result = .ok (r.moveTo place) := by
  obtain ⟨place, m, lengths⟩ := r
  cases place with
  | outside lastName | mapName => cases inside
  | entry part => cases inside; contradiction
  | cidFirst low high =>
    cases inside
    cases high <;> exact ⟨_, rfl, rfl⟩
  | _ =>
    cases inside
    exact ⟨_, rfl, rfl⟩

theorem section_ends {m : CodeMap} {lengths : Std.TreeSet Nat} {lastName : Option String}
    {part : Section} {inner : List Token} {r : Reader} (noEnd : ending part ∉ inner)
    (run : reads ⟨.outside lastName, m, lengths⟩ (opening part :: inner) r) :
    ∃ place, reads ⟨.outside lastName, m, lengths⟩ (opening part :: inner ++ [ending part])
        (r.moveTo place) ∧
      (place = .outside none ↔ Whole part inner) ∧
      (place.part? = some part ↔ ¬ Whole part inner) := by
  have here : r.place = inner.foldl Place.next (.entry part) := by
    obtain ⟨s, first, others⟩ := reads_cons.1 run
    have opened := reads_singleton.1 (reads_opening m lengths lastName part)
    cases Except.ok.inj (first.symm.trans opened)
    exact place_reads others
  by_cases complete : r.place = .entry part
  · refine ⟨.outside none, reads_append run (reads_singleton.2 (step_ending_entry r complete)), ?_⟩
    simp [whole_iff noEnd, ← here, complete, Place.part?]
  · have inside : r.place.part? = some part := by
      rw [here]
      exact part?_foldl rfl noEnd
    obtain ⟨place, stays, step⟩ := step_ending inside complete
    refine ⟨place, reads_append run (reads_singleton.2 step), ?_⟩
    have within : place ≠ .outside none := by
      rintro rfl
      cases stays
    simp [whole_iff noEnd, ← here, complete, within, stays]

/-! ## Entries that are left out -/

theorem coreStep_hex (m : CodeMap) (code : List UInt8) (part : Section) :
    coreStep (.entry part, m) (.hex code) = .ok (Reader.behindCode code part, m) := by
  have noEnd : Token.hex code ≠ ending part := by simp [ending]
  simp [coreStep, Place.effect, Place.next, noEnd, hexOf?, Except.map]

theorem effect_of_pair {m : CodeMap} {code : List UInt8} {part : Section} {token : Token}
    {s : Place × CodeMap} (run : [.hex code, token].foldlM coreStep (.entry part, m) = .ok s) :
    (Reader.behindCode code part).effect m token = .ok s.2 := by
  rw [List.foldlM_cons, coreStep_hex, ok_bind, List.foldlM_cons, bind_eq_ok] at run
  obtain ⟨t, first, last⟩ := run
  cases last
  exact (coreStep_eq_ok.1 first).1

theorem effects_of_triple {m : CodeMap} {code : List UInt8} {part : Section}
    {second third : Token} {s : Place × CodeMap}
    (run : [.hex code, second, third].foldlM coreStep (.entry part, m) = .ok s) :
    ∃ m', (Reader.behindCode code part).effect m second = .ok m' ∧
      ((Reader.behindCode code part).next second).effect m' third = .ok s.2 := by
  rw [List.foldlM_cons, coreStep_hex, ok_bind, List.foldlM_cons, bind_eq_ok] at run
  obtain ⟨⟨place, m'⟩, first, rest⟩ := run
  obtain ⟨effect, next⟩ := coreStep_eq_ok.1 first
  rw [List.foldlM_cons, bind_eq_ok] at rest
  obtain ⟨t, last, finish⟩ := rest
  cases finish
  exact ⟨m', effect, next ▸ (coreStep_eq_ok.1 last).1⟩

theorem Malformed.foldlM_core {m : CodeMap} {part : Section} {item : List Token}
    {s : Place × CodeMap} (broken : Malformed part item)
    (run : item.foldlM coreStep (.entry part, m) = .ok s) : s.2 = m := by
  cases broken with
  | stray noCode noEnd =>
    obtain ⟨t, first, last⟩ := bind_eq_ok.1 run
    cases last
    exact (Except.ok.inj (coreStep_eq_ok.1 first).1).symm
  | @space low token unfit =>
    have kept := effect_of_pair run
    cases token with
    | hex high =>
      rw [Reader.behindCode, Place.effect, if_neg (unfit high rfl)] at kept
      exact (Except.ok.inj kept).symm
    | _ => exact (Except.ok.inj kept).symm
  | @charText code token noText =>
    have kept := effect_of_pair run
    cases token with
    | hex text => exact absurd rfl (noText text)
    | _ => exact (Except.ok.inj kept).symm
  | @rangeBound low token noBound =>
    have kept := effect_of_pair run
    cases token with
    | hex high => exact absurd rfl (noBound high)
    | _ => exact (Except.ok.inj kept).symm
  | @charCid code token noCid =>
    have kept := effect_of_pair run
    cases token with
    | integer cid =>
      cases cid with
      | ofNat cid => exact absurd rfl (noCid cid)
      | negSucc n => exact (Except.ok.inj kept).symm
    | _ => exact (Except.ok.inj kept).symm
  | @rangeText low high token noText noArray =>
    obtain ⟨m', bounds, kept⟩ := effects_of_triple run
    obtain ⟨_, -, rfl⟩ := map_eq_ok.1 bounds
    cases token with
    | hex text => exact absurd rfl (noText text)
    | arrayStart => contradiction
    | _ => exact (Except.ok.inj kept).symm
  | @rangeCid low bound first unfit =>
    obtain ⟨m', bounds, kept⟩ := effects_of_triple run
    cases Except.ok.inj bounds
    cases bound with
    | hex high =>
      cases first with
      | integer cid =>
        rw [Reader.behindCode, Place.next, hexOf?, Place.effect] at kept
        split at kept
        · next range =>
          obtain ⟨cid, rfl⟩ := Int.eq_ofNat_of_zero_le range.1
          exact absurd (Int.ofNat_lt.1 range.2) (unfit high cid rfl rfl)
        · exact (Except.ok.inj kept).symm
      | _ => exact (Except.ok.inj kept).symm
    | _ => exact (Except.ok.inj kept).symm

/-- Whatever follows a malformed entry is read as if the entry were not there. -/
theorem read_without {data data' : Bytes} {before item behind : List Token}
    {fault : Option CodeMapFault} {part : Section} {r s : Reader} (broken : Malformed part item)
    (ahead : reads .start before r) (place : r.place = .entry part) (passed : reads r item s)
    (whole : tokens data = (before ++ item ++ behind, fault))
    (shorter : tokens data' = (before ++ behind, fault)) :
    (∃ e, (read data).result = .error e ∧ (read data').result = .error e) ∨
      ∃ t t' : Reader, t.map = t'.map ∧ (read data).result = .ok t.result ∧
        (read data').result = .ok t'.result := by
  have same : core s = core r := by
    obtain ⟨_, m, lengths⟩ := r
    cases place
    have back : s.place = .entry part := (place_reads passed).trans broken.foldl_next
    have kept : s.map = m := broken.foldlM_core (reads_core passed)
    rw [core, back, kept]
    rfl
  have agree : (outcome s behind).map core = (outcome r behind).map core := by
    rw [outcome_core, outcome_core, same]
  rw [result_read, result_read, whole, shorter]
  dsimp only
  rw [outcome_append (reads_append ahead passed), outcome_append ahead]
  generalize outcome s behind = x at agree
  generalize outcome r behind = y at agree
  cases x with
  | error e =>
    cases y with
    | error e' => cases agree; exact .inl ⟨e, rfl, rfl⟩
    | ok t' => cases agree
  | ok t =>
    cases y with
    | error e' => cases agree
    | ok t' =>
      obtain ⟨places, maps⟩ := Prod.mk.inj (Except.ok.inj agree)
      have ends : t.endFault? fault = t'.endFault? fault := by
        rw [Reader.endFault?, Reader.endFault?, places]
      cases ended : t'.endFault? fault with
      | some e => exact .inl ⟨.invalidCodeMap e, by simp [ends, ended]⟩
      | none => exact .inr ⟨t, t', maps, by simp [ends, ended]⟩

theorem section_ends_iff (part : Section) :
    (∀ (m : CodeMap) (lengths : Std.TreeSet Nat) (lastName : Option String) (inner : List Token)
      (r : Reader), ending part ∉ inner →
      reads ⟨.outside lastName, m, lengths⟩ (opening part :: inner) r →
      ∃ place, reads ⟨.outside lastName, m, lengths⟩ (opening part :: inner ++ [ending part])
          (r.moveTo place) ∧
        (place = .outside none ↔ Whole part inner) ∧
        (place.part? = some part ↔ ¬ Whole part inner)) ∧
    ∀ (data data' : Bytes) (before item behind : List Token) (fault : Option CodeMapFault)
      (r s : Reader), Malformed part item → reads .start before r → r.place = .entry part →
      reads r item s → tokens data = (before ++ item ++ behind, fault) →
      tokens data' = (before ++ behind, fault) →
      (∃ e, (read data).result = .error e ∧ (read data').result = .error e) ∨
        ∃ t t' : Reader, t.map = t'.map ∧ (read data).result = .ok t.result ∧
          (read data').result = .ok t'.result := by
  constructor
  · intro m lengths lastName inner r noEnd run
    exact section_ends noEnd run
  · intro data data' before item behind fault r s broken ahead place passed whole shorter
    exact read_without broken ahead place passed whole shorter

/-- A code without a text takes the end of its section for the text; a number in the place of a text
is left out. -/
theorem section_ends_iff_charText :
    (∃ place, reads ⟨.outside none, .empty, ∅⟩ [opening .bfChar, .hex [1], ending .bfChar]
        ⟨place, .empty, ∅⟩ ∧ place.part? = some .bfChar) ∧
    ((∃ e, (read (Bytes.ofText "1 beginbfchar <01> 5 <02> <0041> endbfchar")).result = .error e ∧
        (read (Bytes.ofText "1 beginbfchar <02> <0041> endbfchar")).result = .error e) ∨
      ∃ t t' : Reader, t.map = t'.map ∧
        (read (Bytes.ofText "1 beginbfchar <01> 5 <02> <0041> endbfchar")).result = .ok t.result ∧
        (read (Bytes.ofText "1 beginbfchar <02> <0041> endbfchar")).result = .ok t'.result) := by
  obtain ⟨ends, without⟩ := section_ends_iff .bfChar
  constructor
  · have noEnd : ending .bfChar ∉ [Token.hex [1]] := by simp [ending]
    have incomplete : ¬ Whole .bfChar [.hex [1]] := by
      rw [whole_iff noEnd, foldl_hex]
      simp [Reader.behindCode]
    obtain ⟨place, run, -, stays⟩ := ends .empty ∅ none [.hex [1]] ⟨.charText [1], .empty, ∅⟩
      noEnd rfl
    exact ⟨place, run, stays.2 incomplete⟩
  · exact without _ _ [.integer 1, opening .bfChar] [.hex [1], .integer 5]
      [.hex [2], .hex [0, 0x41], ending .bfChar] none ⟨.entry .bfChar, .empty, ∅⟩
      ⟨.entry .bfChar, .empty, ∅⟩ (.charText (by simp)) rfl rfl rfl (by decide +kernel)
      (by decide +kernel)

end FontSubset.CodeMap
