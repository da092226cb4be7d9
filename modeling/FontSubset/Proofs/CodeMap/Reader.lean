import FontSubset.CodeMap.Reader
import FontSubset.Proofs.CodeMap.Spelling

/-!
# Reading token by token

`reads` says where some tokens take a reader, and `read_eq_ok` takes the reading of a whole code map
apart: its tokens are spelled without a fault and end outside of all sections. A readable code map
may be followed by a further section (`read_append_section`).
-/

namespace FontSubset.CodeMap

/-- The reader has come this far without a failure. -/
def reads (r : Reader) (tokens : List Token) (r' : Reader) : Prop :=
  tokens.foldlM (fun r token => (r.step token).result) r = .ok r'

theorem reads_nil {r r' : Reader} : reads r [] r' ↔ r = r' := by
  simp [reads]

theorem reads_cons {r r' : Reader} {token : Token} {rest : List Token} :
    reads r (token :: rest) r' ↔ ∃ s, (r.step token).result = .ok s ∧ reads s rest r' := by
  rw [reads, List.foldlM_cons, bind_eq_ok]
  rfl

theorem reads_singleton {r r' : Reader} {token : Token} :
    reads r [token] r' ↔ (r.step token).result = .ok r' := by
  simp [reads_cons, reads_nil]

theorem reads_append_iff {r r' : Reader} {front back : List Token} :
    reads r (front ++ back) r' ↔ ∃ s, reads r front s ∧ reads s back r' := by
  rw [reads, List.foldlM_append, bind_eq_ok]
  rfl

theorem reads_append {r r' r'' : Reader} {front back : List Token} (h : reads r front r')
    (h' : reads r' back r'') : reads r (front ++ back) r'' :=
  reads_append_iff.2 ⟨r', h, h'⟩

theorem reads_bounds (m : CodeMap) (lengths : Std.TreeSet Nat) {low high : List UInt8}
    (few : rangeSize (codeOf low) (codeOf high) ≤ maxRangeCodes) :
    reads ⟨.entry .bfRange, m, lengths⟩ [.hex low, .hex high]
      ⟨.rangeText (codeOf low) (codeOf high), m, lengths.insert low.length⟩ := by
  have allowed : Reader.checkRange .bfRange (codeOf low) (codeOf high) = .ok () :=
    if_neg (Nat.not_lt.2 few)
  simp [reads, Reader.step, Reader.entry, Reader.closes, Reader.behindCode, Reader.moveTo,
    Reader.rangeHigh, allowed]
  rfl

/-- How far some tokens take a reader. -/
def outcome (r : Reader) (front : List Token) : Except FontError Reader :=
  front.foldlM (fun r token => (r.step token).result) r

theorem outcome_cons (r : Reader) (token : Token) (rest : List Token) :
    outcome r (token :: rest) = (r.step token).result >>= fun s => outcome s rest :=
  List.foldlM_cons

theorem outcome_append {r s : Reader} {front : List Token} (run : reads r front s)
    (back : List Token) : outcome r (front ++ back) = outcome s back := by
  rw [outcome, List.foldlM_append]
  exact congrArg (· >>= _) run

theorem result_read (data : Bytes) : (read data).result =
    outcome .start (tokens data).1 >>= fun r =>
      match r.endFault? (tokens data).2 with
      | some fault => .error (.invalidCodeMap fault)
      | none => .ok r.result := by
  rw [read]
  simp only [Traced.result_bind, Traced.result_foldl]
  congr 1
  funext r
  cases r.endFault? (tokens data).2 <;> simp [Except.map]

theorem endFault?_eq_none {r : Reader} {fault : Option CodeMapFault} :
    r.endFault? fault = none ↔ fault = none ∧ r.place.part? = none := by
  cases fault <;> simp [Reader.endFault?]

theorem read_eq_ok {data : Bytes} {m : CodeMap} : (read data).result = .ok m ↔
    (tokens data).2 = none ∧ ∃ r, reads .start (tokens data).1 r ∧ r.place.part? = none ∧
      r.result = m := by
  rw [result_read, bind_eq_ok]
  constructor
  · rintro ⟨r, run, rest⟩
    cases ended : r.endFault? (tokens data).2 with
    | some fault => simp [ended] at rest
    | none =>
      obtain ⟨clean, outside⟩ := endFault?_eq_none.1 ended
      exact ⟨clean, r, run, outside, by simpa [ended] using rest⟩
  · rintro ⟨clean, r, run, outside, rfl⟩
    refine ⟨r, run, ?_⟩
    simp [endFault?_eq_none.2 ⟨clean, outside⟩]

theorem exists_spaces_result (r : Reader) : ∃ spaces, r.result = { r.map with spaces } := by
  rw [Reader.result]
  split
  · exact ⟨_, rfl⟩
  · exact ⟨r.map.spaces, rfl⟩

/-- The map of a text that declares a code space and nothing else. -/
theorem read_spaces :
    (read (Bytes.ofText "1 begincodespacerange <0000> <FFFF> endcodespacerange")).result =
      .ok ⟨none, [⟨0, 0xFFFF, 2⟩], ∅, ∅⟩ := by
  have lexed : tokens (Bytes.ofText "1 begincodespacerange <0000> <FFFF> endcodespacerange") =
      ([.integer 1, .keyword "begincodespacerange", .hex [0, 0], .hex [255, 255],
        .keyword "endcodespacerange"], none) := by decide +kernel
  let ended : Reader := ⟨.outside none, ⟨none, [⟨0, 0xFFFF, 2⟩], ∅, ∅⟩, ∅⟩
  exact read_eq_ok.2 ⟨by rw [lexed], ended, by rw [lexed]; rfl, rfl, rfl⟩

/-! ## Code maps that end in a section -/

theorem tokens_append_text {header : Bytes} {text : String} {behind : List Token}
    (clean : (tokens header).2 = none) (spelled : SpellsText text behind) :
    tokens (header ++ #[10] ++ Bytes.ofText text) = ((tokens header).1 ++ behind, none) := by
  have clean' : (lex header.toList).2 = none := by simpa [tokens] using clean
  have bytes : (header ++ #[10] ++ Bytes.ofText text).toList =
      header.toList ++ 10 :: (Bytes.ofText text).toList := by simp
  simp only [tokens, bytes, lex_append_newline clean', spelled.lex_eq, Option.map_none]

/-- Outside of all sections a number is passed over. -/
theorem reads_integer {r : Reader} (outside : r.place.part? = none) (n : Int) :
    ∃ lastName, reads r [.integer n] ⟨.outside lastName, r.map, r.lengths⟩ := by
  obtain ⟨place, map, lengths⟩ := r
  cases place with
  | outside lastName => exact ⟨none, rfl⟩
  | mapName => exact ⟨some "CMapName", rfl⟩
  | _ => cases outside

/-- What a section makes of the map of the header, apart from the code spaces, of which some are
implied at the end. -/
theorem read_append_section {header : Bytes} {m : CodeMap} {n : Int} {word text : String}
    {part : Section} {entries : List Token} {f : CodeMap → CodeMap}
    (readable : (read header).result = .ok m) (opens : Reader.opened? word = some part)
    (spelled : SpellsText text ([.integer n, .keyword word] ++ entries ++
      [.keyword ("end" ++ part.name)]))
    (run : ∀ before lengths, ∃ lengths', reads ⟨.entry part, before, lengths⟩ entries
      ⟨.entry part, f before, lengths'⟩) :
    ∃ spaces spaces', (read (header ++ #[10] ++ Bytes.ofText text)).result =
      .ok { f { m with spaces } with spaces := spaces' } := by
  obtain ⟨clean, r, front, outside, result⟩ := read_eq_ok.1 readable
  obtain ⟨lastName, count⟩ := reads_integer outside n
  obtain ⟨lengths', inner⟩ := run r.map r.lengths
  have opening : reads ⟨.outside lastName, r.map, r.lengths⟩ [.keyword word]
      ⟨.entry part, r.map, r.lengths⟩ := by
    simp [reads, Reader.step, Reader.outside, opens, Reader.moveTo]
  have closing : reads ⟨.entry part, f r.map, lengths'⟩ [.keyword ("end" ++ part.name)]
      ⟨.outside none, f r.map, lengths'⟩ := by
    simp [reads, Reader.step, Reader.entry, Reader.closes, Reader.moveTo]
  have whole := reads_append front (reads_append (reads_append (reads_append count opening) inner)
    closing)
  have lexed := tokens_append_text clean spelled
  have kept : { m with spaces := r.map.spaces } = r.map := by
    obtain ⟨spaces, eq⟩ := exists_spaces_result r
    rw [← result, eq]
  let ended : Reader := ⟨.outside none, f r.map, lengths'⟩
  obtain ⟨spaces', eq⟩ := exists_spaces_result ended
  refine ⟨r.map.spaces, spaces', ?_⟩
  rw [kept]
  exact read_eq_ok.2 ⟨by rw [lexed], ended, by rw [lexed]; exact whole, rfl, eq⟩

end FontSubset.CodeMap
