import FontSubset.Proofs.CodeMap.Reader
import FontSubset.Proofs.Embedding.UsedGlyph
import FontSubset.Proofs.Text.Utf16

/-!
# Reading back the text of glyphs

* `read_ofGlyphs`: the code map that is written for some glyphs is read as the map from their
  numbers to their texts.
-/

namespace FontSubset.ToUnicode
open CodeMap

/-! ## Blocks -/

theorem flatten_blocks {α : Type} (size : Nat) (items : List α) :
    (blocks size items).flatten = items := by
  fun_induction blocks size items with
  | case1 => rfl
  | case2 a rest ih => rw [List.flatten_cons, ih, List.cons_append, List.take_append_drop]

theorem length_le_of_mem_blocks {α : Type} {size : Nat} (positive : 0 < size) {items block : List α}
    (mem : block ∈ blocks size items) : block.length ≤ size := by
  fun_induction blocks size items with
  | case1 => cases mem
  | case2 a rest ih =>
    rcases List.mem_cons.1 mem with rfl | mem
    · rw [List.length_cons, List.length_take]
      omega
    · exact ih mem

/-! ## Tokens -/

def headerTokens : List Token :=
  [.name "CIDInit", .name "ProcSet", .keyword "findresource", .keyword "begin",
    .integer 12, .keyword "dict", .keyword "begin",
    .keyword "begincmap",
    .name "CIDSystemInfo",
    .dictStart, .name "Registry", .literal [65, 100, 111, 98, 101],
    .name "Ordering", .literal [85, 67, 83],
    .name "Supplement", .integer 0,
    .dictEnd, .keyword "def",
    .name "CMapName", .name "Adobe-Identity-UCS", .keyword "def",
    .name "CMapType", .integer 2, .keyword "def",
    .integer 1, .keyword "begincodespacerange",
    .hex [0, 0], .hex [255, 255],
    .keyword "endcodespacerange"]

def footerTokens : List Token :=
  [.keyword "endcmap",
    .keyword "CMapName", .keyword "currentdict", .name "CMap", .keyword "defineresource",
    .keyword "pop",
    .keyword "end", .keyword "end"]

def destinationTokens (text : List Char) : List Token :=
  let string := Token.hex (Utf16.toBytes (Utf16.encode text))
  match text with
  | [c] => if 0x10000 ≤ c.toNat then [.arrayStart, string, .arrayEnd] else [string]
  | _ => [string]

def entryTokens (g : UsedGlyph) : List Token :=
  let code := Token.hex (Utf16.toBytes [g.glyph])
  code :: code :: destinationTokens g.text.toList

def blockTokens (glyphs : List UsedGlyph) : List Token :=
  [.integer glyphs.length, .keyword "beginbfrange"] ++ glyphs.flatMap entryTokens ++
    [.keyword "endbfrange"]

abbrev ascii (text : List Char) : List UInt8 := text.map Char.toUInt8

theorem lex_string (text : List Char) (rest : Rest) : lex (ascii (string text) ++ rest) =
    (.hex (Utf16.toBytes (Utf16.encode text)) :: (lex rest).1, (lex rest).2) := by
  have hex := lex_units (Utf16.encode text) rest
  simpa [string, ascii] using hex

theorem lex_code (g : UsedGlyph) (rest : Rest) :
    lex (ascii ('<' :: (quad g.glyph ++ ['>'])) ++ rest) =
      (.hex (Utf16.toBytes [g.glyph]) :: (lex rest).1, (lex rest).2) := by
  have hex := lex_units [g.glyph] rest
  simpa [ascii] using hex

theorem lex_array (text : List Char) (rest : Rest) :
    lex (ascii ('[' :: (string text ++ [']'])) ++ rest) =
      (.arrayStart :: .hex (Utf16.toBytes (Utf16.encode text)) :: .arrayEnd :: (lex rest).1,
        (lex rest).2) := by
  have spelled : ascii ('[' :: (string text ++ [']'])) ++ rest =
      '['.toUInt8 :: (ascii (string text) ++ (']'.toUInt8 :: rest)) := by simp [ascii]
  rw [spelled, lex_arrayStart, lex_string, lex_arrayEnd]

theorem lex_destination (text : List Char) (rest : Rest) : lex (ascii (destination text) ++ rest) =
    (destinationTokens text ++ (lex rest).1, (lex rest).2) := by
  rcases text with _ | ⟨c, _ | ⟨d, text⟩⟩
  · exact lex_string [] rest
  · by_cases beyond : 0x10000 ≤ c.toNat
    · simp only [destination, destinationTokens, if_pos beyond]
      exact lex_array [c] rest
    · simp only [destination, destinationTokens, if_neg beyond]
      exact lex_string [c] rest
  · exact lex_string (c :: d :: text) rest

theorem spells_entry (g : UsedGlyph) : Spells (ascii (entry g)) (entryTokens g) := by
  intro behind
  have spelled : ascii (entry g) ++ behind = ascii ('<' :: (quad g.glyph ++ ['>'])) ++
      (ascii ('<' :: (quad g.glyph ++ ['>'])) ++
        (ascii (destination g.text.toList) ++ ('\n'.toUInt8 :: behind))) := by
    simp [entry, ascii]
  rw [spelled, lex_code, lex_code, lex_destination, lex_blank (by decide)]
  rfl

theorem block_eq (glyphs : List UsedGlyph) : block glyphs =
    Nat.toDigits 10 glyphs.length ++ " beginbfrange".toList ++ ['\n'] ++ glyphs.flatMap entry ++
      ("endbfrange".toList ++ ['\n']) := by
  have opening : s!"{glyphs.length} beginbfrange\n".toList =
      Nat.toDigits 10 glyphs.length ++ " beginbfrange".toList ++ ['\n'] := by
    simp [ToString.toString]
  rw [block, opening]
  rfl

theorem spells_block {glyphs : List UsedGlyph} (few : glyphs.length < 0x8000000000000000) :
    Spells (ascii (block glyphs)) (blockTokens glyphs) := by
  have keyword : lex (32 :: ascii "beginbfrange".toList) = ([.keyword "beginbfrange"], none) := by
    decide +kernel
  have number := lex_number few (show isRegular 32 = false by decide +kernel)
    (ascii "beginbfrange".toList)
  have opening : lex (ascii (Nat.toDigits 10 glyphs.length ++ " beginbfrange".toList)) =
      ([.integer glyphs.length, .keyword "beginbfrange"], none) := by
    rw [keyword] at number
    rwa [ascii, List.map_append]
  have closing : lex (ascii "endbfrange".toList) = ([.keyword "endbfrange"], none) := by
    decide +kernel
  have entries : Spells (ascii (glyphs.flatMap entry)) (glyphs.flatMap entryTokens) := by
    rw [ascii, List.map_flatMap]
    exact .flatMap fun g _ => spells_entry g
  have all := ((Spells.line opening).append entries).append (.line closing)
  have bytes : ascii (block glyphs) =
      ascii (Nat.toDigits 10 glyphs.length ++ " beginbfrange".toList) ++ [10] ++
        ascii (glyphs.flatMap entry) ++ (ascii "endbfrange".toList ++ [10]) := by
    rw [block_eq]
    simp only [ascii, List.map_append]
    rfl
  rw [bytes]
  exact all

theorem spells_header : SpellsText header headerTokens :=
  spells_line (by decide +kernel) (by decide +kernel)

theorem spells_footer : SpellsText footer footerTokens :=
  spells_line (by decide +kernel) (by decide +kernel)

/-! ## Characters -/

theorem plain_quad (unit : UInt16) : Text.Plain (quad unit) := by
  have digit : ∀ n < 16, (Hex.digit n).toNat < 128 := by decide
  intro c mem
  simp only [quad, Hex.fixed, List.nil_append, List.cons_append, List.mem_cons, List.not_mem_nil,
    or_false] at mem
  rcases mem with rfl | rfl | rfl | rfl <;> exact digit _ (Nat.mod_lt _ (by decide))

theorem plain_string (text : List Char) : Text.Plain (string text) := by
  have units : Text.Plain ((Utf16.encode text).flatMap quad) :=
    Text.plain_flatMap fun unit _ => plain_quad unit
  simp [string, units]

theorem plain_destination (text : List Char) : Text.Plain (destination text) := by
  unfold destination
  split
  · split
    · simp [plain_string]
    · exact plain_string _
  · exact plain_string text

theorem plain_entry (g : UsedGlyph) : Text.Plain (entry g) := by
  simp [entry, plain_quad, plain_destination]

theorem plain_block (glyphs : List UsedGlyph) : Text.Plain (block glyphs) := by
  have entries : Text.Plain (glyphs.flatMap entry) := Text.plain_flatMap fun g _ => plain_entry g
  simp [block_eq, plain_toDigits, entries]

def mapTokens (found : List UsedGlyph) : List Token :=
  headerTokens ++ (blocks blockSize found).flatMap blockTokens ++ footerTokens

theorem lex_map (found : List UsedGlyph) :
    lex (Bytes.ofText (header ++ String.ofList ((blocks blockSize found).flatMap block) ++
      footer)).toList = (mapTokens found, none) := by
  have plain : Text.Plain ((blocks blockSize found).flatMap block) :=
    Text.plain_flatMap fun glyphs _ => plain_block glyphs
  have bytes : (Bytes.ofText (String.ofList ((blocks blockSize found).flatMap block))).toList =
      ascii ((blocks blockSize found).flatMap block) := by
    rw [Bytes.toList_ofText_of_plain (by rwa [String.toList_ofList]), String.toList_ofList]
  have spelled : SpellsText (String.ofList ((blocks blockSize found).flatMap block))
      ((blocks blockSize found).flatMap blockTokens) := by
    rw [SpellsText, bytes, ascii, List.map_flatMap]
    refine .flatMap fun glyphs mem => spells_block ?_
    exact Nat.lt_of_le_of_lt (length_le_of_mem_blocks (by decide) mem) (by decide)
  exact ((spells_header.append spelled).append spells_footer).lex_eq

/-! ## Reading -/

/-- The map behind the header. -/
def headed : CodeMap :=
  ⟨some "Adobe-Identity-UCS", [⟨0, 0xFFFF, 2⟩], ∅, ∅⟩

theorem reads_header : reads .start headerTokens ⟨.outside none, headed, ∅⟩ := by
  rfl

theorem codeOf_toBytes (unit : UInt16) : codeOf (Utf16.toBytes [unit]) = unit.toUInt32 := by
  have bound := unit.toNat_lt
  have upper : unit.toNat / 256 % 256 * 256 % 4294967296 = unit.toNat / 256 * 2 ^ 8 := by omega
  have join := Nat.shiftLeft_add_eq_or_of_lt (show unit.toNat % 256 < 2 ^ 8 by omega)
    (unit.toNat / 256)
  rw [Nat.shiftLeft_eq] at join
  rw [← UInt32.toNat_inj]
  simp [codeOf, Utf16.toBytes, Nat.shiftRight_eq_div_pow, Nat.shiftLeft_eq]
  rw [upper, ← join]
  omega

theorem rangeSize_self (code : UInt32) : rangeSize code code = 1 := by
  rw [rangeSize]
  omega

theorem setTextRange_self {units : List UInt16} (nonempty : units ≠ []) (map : CodeMap)
    (code : UInt32) : map.setTextRange code code units = map.setText code (textOf units) := by
  have same : advanced units 0 = units := by
    rw [advanced, List.getLast?_eq_some_getLast nonempty]
    simp [List.dropLast_concat_getLast]
  simp [setTextRange, rangeSize_self, same]

theorem textOf_encode (text : String) :
    textOf (Utf16.ofBytes (Utf16.toBytes (Utf16.encode text.toList))) = text := by
  rw [Utf16.ofBytes_toBytes, textOf, Utf16.decodeLossy_encode, String.ofList_toList]

section
variable (map : CodeMap) (lengths : Std.TreeSet Nat)

theorem step_low (code : List UInt8) :
    ((⟨.entry .bfRange, map, lengths⟩ : Reader).step (.hex code)).result =
      .ok ⟨.rangeHigh code, map, lengths⟩ := rfl

theorem step_high (code : List UInt8) :
    ((⟨.rangeHigh code, map, lengths⟩ : Reader).step (.hex code)).result =
      .ok ⟨.rangeText (codeOf code) (codeOf code), map, lengths.insert code.length⟩ := by
  have few : ¬ maxRangeCodes < rangeSize (codeOf code) (codeOf code) := by
    rw [rangeSize_self]
    decide
  simp [Reader.step, Reader.rangeHigh, Reader.checkRange, few, Except.map]

theorem reads_string {text : String} (nonempty : text ≠ "") (code : UInt32) :
    reads ⟨.rangeText code code, map, lengths⟩
      [.hex (Utf16.toBytes (Utf16.encode text.toList))]
      ⟨.entry .bfRange, map.setText code text, lengths⟩ := by
  have units : Utf16.encode text.toList ≠ [] := by
    rwa [ne_eq, Utf16.encode_eq_nil, String.toList_eq_nil_iff]
  have range := setTextRange_self units map code
  rw [← Utf16.ofBytes_toBytes (Utf16.encode text.toList), textOf_encode] at range
  simp [reads, Reader.step, Reader.rangeText, range]

theorem reads_array (text : String) (code : UInt32) :
    reads ⟨.rangeText code code, map, lengths⟩
      [.arrayStart, .hex (Utf16.toBytes (Utf16.encode text.toList)), .arrayEnd]
      ⟨.entry .bfRange, map.setText code text, lengths⟩ := by
  simp [reads, Reader.step, Reader.rangeText, Reader.rangeArray, Reader.moveTo, textOf_encode]

/-- Whichever spelling the destination has, the code gets the text. -/
theorem reads_destination {text : String} (nonempty : text ≠ "") (code : UInt32) :
    reads ⟨.rangeText code code, map, lengths⟩ (destinationTokens text.toList)
      ⟨.entry .bfRange, map.setText code text, lengths⟩ := by
  have string := reads_string map lengths nonempty code
  unfold destinationTokens
  dsimp only
  split
  · split
    · exact reads_array map lengths text code
    · exact string
  · exact string

theorem reads_entry (g : UsedGlyph) (nonempty : g.text ≠ "") :
    reads ⟨.entry .bfRange, map, lengths⟩ (entryTokens g)
      ⟨.entry .bfRange, map.setText g.glyph.toUInt32 g.text, lengths.insert 2⟩ := by
  have text := reads_destination map (lengths.insert 2) nonempty g.glyph.toUInt32
  rw [reads, entryTokens, List.foldlM_cons, step_low, ok_bind, List.foldlM_cons, step_high, ok_bind,
    codeOf_toBytes]
  exact text

end

def setTexts (map : CodeMap) (glyphs : List UsedGlyph) : CodeMap :=
  glyphs.foldl (fun map g => map.setText g.glyph.toUInt32 g.text) map

theorem spaces_setTexts (map : CodeMap) (glyphs : List UsedGlyph) :
    (setTexts map glyphs).spaces = map.spaces := by
  induction glyphs generalizing map with
  | nil => rfl
  | cons g rest ih => exact ih _

theorem cids_setTexts (map : CodeMap) (glyphs : List UsedGlyph) :
    (setTexts map glyphs).cids = map.cids := by
  induction glyphs generalizing map with
  | nil => rfl
  | cons g rest ih => exact ih _

theorem reads_entries {glyphs : List UsedGlyph} (texts : ∀ g ∈ glyphs, g.text ≠ "") (map : CodeMap)
    (lengths : Std.TreeSet Nat) : ∃ lengths',
      reads ⟨.entry .bfRange, map, lengths⟩ (glyphs.flatMap entryTokens)
        ⟨.entry .bfRange, setTexts map glyphs, lengths'⟩ := by
  induction glyphs generalizing map lengths with
  | nil => exact ⟨lengths, rfl⟩
  | cons g rest ih =>
    obtain ⟨first, others⟩ := List.forall_mem_cons.1 texts
    obtain ⟨lengths', run⟩ := ih others (map.setText g.glyph.toUInt32 g.text) (lengths.insert 2)
    exact ⟨lengths', reads_append (reads_entry map lengths g first) run⟩

theorem reads_block {glyphs : List UsedGlyph} (texts : ∀ g ∈ glyphs, g.text ≠ "") (map : CodeMap)
    (lengths : Std.TreeSet Nat) : ∃ lengths',
      reads ⟨.outside none, map, lengths⟩ (blockTokens glyphs)
        ⟨.outside none, setTexts map glyphs, lengths'⟩ := by
  have opening : reads ⟨.outside none, map, lengths⟩
      [.integer glyphs.length, .keyword "beginbfrange"] ⟨.entry .bfRange, map, lengths⟩ := rfl
  obtain ⟨lengths', run⟩ := reads_entries texts map lengths
  have closing : reads ⟨.entry .bfRange, setTexts map glyphs, lengths'⟩ [.keyword "endbfrange"]
      ⟨.outside none, setTexts map glyphs, lengths'⟩ := rfl
  exact ⟨lengths', reads_append (reads_append opening run) closing⟩

theorem reads_blocks {parts : List (List UsedGlyph)}
    (texts : ∀ glyphs ∈ parts, ∀ g ∈ glyphs, g.text ≠ "") (map : CodeMap)
    (lengths : Std.TreeSet Nat) : ∃ lengths',
      reads ⟨.outside none, map, lengths⟩ (parts.flatMap blockTokens)
        ⟨.outside none, setTexts map parts.flatten, lengths'⟩ := by
  induction parts generalizing map lengths with
  | nil => exact ⟨lengths, rfl⟩
  | cons glyphs rest ih =>
    obtain ⟨first, others⟩ := List.forall_mem_cons.1 texts
    obtain ⟨lengths', start⟩ := reads_block first map lengths
    obtain ⟨lengths'', run⟩ := ih others (setTexts map glyphs) lengths'
    refine ⟨lengths'', ?_⟩
    rw [List.flatten_cons, setTexts, List.foldl_append]
    exact reads_append start run

theorem reads_footer (map : CodeMap) (lengths : Std.TreeSet Nat) :
    reads ⟨.outside none, map, lengths⟩ footerTokens ⟨.outside none, map, lengths⟩ := by
  rfl

theorem read_map {found : List UsedGlyph} (texts : ∀ g ∈ found, g.text ≠ "") :
    (CodeMap.read (Bytes.ofText (header ++ String.ofList
      ((blocks blockSize found).flatMap block) ++ footer))).result =
        .ok (setTexts headed found) := by
  have parts : ∀ glyphs ∈ blocks blockSize found, ∀ g ∈ glyphs, g.text ≠ "" := by
    intro glyphs part g mem
    rw [← flatten_blocks blockSize found] at texts
    exact texts g (List.mem_flatten.2 ⟨glyphs, part, mem⟩)
  obtain ⟨lengths, run⟩ := reads_blocks parts headed ∅
  rw [flatten_blocks] at run
  have all := reads_append (reads_append reads_header run) (reads_footer _ lengths)
  have tokens : CodeMap.tokens (Bytes.ofText (header ++ String.ofList
      ((blocks blockSize found).flatMap block) ++ footer)) = (mapTokens found, none) := by
    rw [CodeMap.tokens, lex_map]
    rfl
  have declared : (setTexts headed found).spaces.isEmpty = false := by
    rw [spaces_setTexts]
    rfl
  rw [mapTokens] at tokens
  refine read_eq_ok.2 ⟨by rw [tokens], _, by rw [tokens]; exact all, rfl, ?_⟩
  simp [Reader.result, declared]

/-! ## Texts -/

theorem text?_setTexts (map : CodeMap) (glyphs : List UsedGlyph) (code : UInt32) :
    (setTexts map glyphs).text? code =
      ((glyphs.reverse.find? (·.glyph.toUInt32 = code)).map (·.text)).or (map.text? code) := by
  induction glyphs generalizing map with
  | nil => simp [setTexts]
  | cons g rest ih =>
    have first : (map.setText g.glyph.toUInt32 g.text).text? code =
        (if g.glyph.toUInt32 = code then some g.text else none).or (map.text? code) := by
      rw [text?, setText, Std.TreeMap.getElem?_insert]
      by_cases same : g.glyph.toUInt32 = code <;> simp [same, text?]
    rw [setTexts, List.foldl_cons, ← setTexts, ih, first, List.reverse_cons, List.find?_append,
      ← Option.or_assoc]
    cases rest.reverse.find? (·.glyph.toUInt32 = code) with
    | none => by_cases same : g.glyph.toUInt32 = code <;> simp [same]
    | some u => simp

/-- The first of the glyphs that has a number and stands for text. -/
def firstWithText? (glyphs : List UsedGlyph) (g : GlyphId) : Option UsedGlyph :=
  glyphs.find? fun u => u.glyph = g ∧ u.text ≠ ""

theorem firstWithText?_eq_some {glyphs : List UsedGlyph} {g : GlyphId} {u : UsedGlyph}
    (found : firstWithText? glyphs g = some u) : u ∈ glyphs ∧ u.glyph = g ∧ u.text ≠ "" := by
  refine ⟨List.mem_of_find?_eq_some found, ?_⟩
  have holds := List.find?_some found
  rwa [decide_eq_true_eq] at holds

theorem firstWithText?_eq_find? (glyphs : List UsedGlyph) (g : GlyphId) :
    firstWithText? glyphs g = (glyphs.filter (·.text ≠ "")).find? (·.glyph = g) := by
  rw [List.find?_filter]
  simp [firstWithText?, and_comm]

theorem firstWithText?_values {glyphs : List UsedGlyph} {u : UsedGlyph}
    (recorded : glyphs.find? (·.glyph = u.glyph) = some u) (text : u.text ≠ "") :
    firstWithText? (UsedGlyphs.ofList glyphs).values u.glyph = some u := by
  rw [firstWithText?_eq_find?, UsedGlyphs.find?_filter_values, UsedGlyphs.getElem?_ofList, recorded]
  simp [Option.filter, text]

theorem mem_mapped {glyphs : List UsedGlyph} {u : UsedGlyph} :
    u ∈ mapped glyphs ↔ firstWithText? glyphs u.glyph = some u := by
  rw [mapped, UsedGlyphs.mem_values_ofList, firstWithText?_eq_find?]

theorem find?_mapped (glyphs : List UsedGlyph) (g : GlyphId) :
    (mapped glyphs).reverse.find? (·.glyph.toUInt32 = g.toUInt32) = firstWithText? glyphs g := by
  have number (u : UsedGlyph) : u.glyph.toUInt32 = g.toUInt32 ↔ u.glyph = g :=
    ⟨fun eq => by simpa [← UInt32.toNat_inj, UInt16.toNat_inj] using eq, fun eq => by rw [eq]⟩
  simp only [number]
  cases found : (mapped glyphs).reverse.find? (·.glyph = g) with
  | none =>
    rw [List.find?_eq_none] at found
    cases first : firstWithText? glyphs g with
    | none => rfl
    | some u =>
      obtain ⟨-, rfl, -⟩ := firstWithText?_eq_some first
      have mem := List.mem_reverse.2 (mem_mapped.2 first)
      exact absurd (decide_eq_true rfl) (found u mem)
  | some u =>
    have same := List.find?_some found
    rw [decide_eq_true_eq] at same
    subst same
    exact (mem_mapped.1 (List.mem_reverse.1 (List.mem_of_find?_eq_some found))).symm

theorem mapped_eq_nil {glyphs : List UsedGlyph} :
    mapped glyphs = [] ↔ ∀ u ∈ glyphs, u.text = "" := by
  constructor
  · intro none u mem
    by_contra text
    have isSome : (firstWithText? glyphs u.glyph).isSome :=
      List.find?_isSome.2 ⟨u, mem, decide_eq_true ⟨rfl, text⟩⟩
    obtain ⟨v, found⟩ := Option.isSome_iff_exists.1 isSome
    obtain ⟨-, same, -⟩ := firstWithText?_eq_some found
    have mapped := mem_mapped.2 (same ▸ found)
    rw [none] at mapped
    cases mapped
  · intro empty
    refine List.eq_nil_iff_forall_not_mem.2 fun u mem => ?_
    obtain ⟨mem, -, text⟩ := firstWithText?_eq_some (mem_mapped.1 mem)
    exact text (empty u mem)

theorem ofGlyphs_eq (glyphs : List UsedGlyph) : ofGlyphs glyphs =
    if mapped glyphs = [] then none else
      some (header ++ String.ofList ((blocks blockSize (mapped glyphs)).flatMap block) ++
        footer) := by
  rw [ofGlyphs]
  split
  · rename_i none
    rw [if_pos none]
  · rename_i some
    rw [if_neg some]

theorem ofGlyphs_eq_none {glyphs : List UsedGlyph} :
    ofGlyphs glyphs = none ↔ ∀ u ∈ glyphs, u.text = "" := by
  rw [ofGlyphs_eq, ← mapped_eq_nil]
  split <;> simp_all

theorem read_of_ofGlyphs {glyphs : List UsedGlyph} {s : String}
    (written : ofGlyphs glyphs = some s) :
    ∃ m, (CodeMap.read (Bytes.ofText s)).result = .ok m ∧
      (∀ g : GlyphId, m.text? g.toUInt32 = (firstWithText? glyphs g).map (·.text)) ∧
      (∀ code, 0x10000 ≤ code → m.text? code = none) ∧
      m.cids = ∅ ∧ m.spaces = [⟨0, 0xFFFF, 2⟩] := by
  rw [ofGlyphs_eq] at written
  split at written
  · cases written
  · cases written
    have texts : ∀ g ∈ mapped glyphs, g.text ≠ "" :=
      fun g mem => (firstWithText?_eq_some (mem_mapped.1 mem)).2.2
    have noText (code : UInt32) : headed.text? code = none := by simp [text?, headed]
    refine ⟨_, read_map texts, fun g => ?_, fun code beyond => ?_, cids_setTexts _ _,
      spaces_setTexts _ _⟩
    · rw [text?_setTexts, find?_mapped, noText, Option.or_none]
    · have none : (mapped glyphs).reverse.find? (·.glyph.toUInt32 = code) = none := by
        refine List.find?_eq_none.2 fun u _ same => ?_
        rw [← of_decide_eq_true same, UInt32.le_iff_toNat_le, UInt16.toNat_toUInt32] at beyond
        exact absurd u.glyph.toNat_lt (Nat.not_lt.2 beyond)
      rw [text?_setTexts, none, noText]
      rfl

theorem read_ofGlyphs (glyphs : List UsedGlyph) :
    (ofGlyphs glyphs = none ↔ ∀ u ∈ glyphs, u.text = "") ∧
      ∀ s, ofGlyphs glyphs = some s → ∃ m, (CodeMap.read (Bytes.ofText s)).result = .ok m ∧
        (∀ g : GlyphId, m.text? g.toUInt32 = (firstWithText? glyphs g).map (·.text)) ∧
        (∀ code, 0x10000 ≤ code → m.text? code = none) ∧
        m.cids = ∅ ∧ m.spaces = [⟨0, 0xFFFF, 2⟩] :=
  ⟨ofGlyphs_eq_none, fun _ => read_of_ofGlyphs⟩

/-- Glyph 7 is drawn by its number at first, then for one text and then for another. -/
def repeatedGlyphs : List UsedGlyph :=
  [⟨7, 500, ""⟩, ⟨7, 500, "😀"⟩, ⟨2, 600, "fi"⟩, ⟨7, 500, "x"⟩]

theorem read_ofGlyphs_repeated : ∃ s m, ofGlyphs repeatedGlyphs = some s ∧
    (CodeMap.read (Bytes.ofText s)).result = .ok m ∧ m.text? 7 = some "😀" ∧
      m.text? 2 = some "fi" := by
  obtain ⟨textless, readBack⟩ := read_ofGlyphs repeatedGlyphs
  cases written : ofGlyphs repeatedGlyphs with
  | none => exact absurd (textless.1 written) (by decide)
  | some s =>
    obtain ⟨m, run, texts, -⟩ := readBack s written
    exact ⟨s, m, rfl, run, texts 7, texts 2⟩

end FontSubset.ToUnicode
