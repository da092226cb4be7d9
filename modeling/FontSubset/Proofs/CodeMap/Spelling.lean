import FontSubset.Proofs.CodeMap.Lexer
import FontSubset.Proofs.Number.Decimal
import FontSubset.Proofs.Text.Utf8
import FontSubset.Embedding.ToUnicode

/-!
# Tokens that are written

Each token is read back from its spelling: words and numbers (`lex_word`, `lex_number`), brackets
(`lex_arrayStart`, `lex_arrayEnd`) and strings (`lex_units`, `lex_bytes`, `spells_literal`).
`Spells` joins lines; a word is spelled (`SpellsWord`) if no regular byte follows it.
-/

namespace FontSubset.CodeMap

theorem lex_of_tokenFrom {b : UInt8} {rest behind : Rest} {token : Token}
    (blank : isBlank b = false) (comment : b ≠ '%'.toUInt8)
    (h : tokenFrom b rest = .ok (token, behind)) :
    lex (b :: rest) = (token :: (lex behind).1, (lex behind).2) := by
  refine lex_of_next (next_eq_some.2 ⟨b, rest, ?_, h⟩)
  rw [skipBlank, if_neg (by simp [blank]), if_neg comment]

theorem lex_blank {b : UInt8} (blank : isBlank b) (rest : Rest) : lex (b :: rest) = lex rest :=
  lex_congr (by rw [skipBlank, if_pos blank])

theorem lex_arrayStart (rest : Rest) :
    lex ('['.toUInt8 :: rest) = (.arrayStart :: (lex rest).1, (lex rest).2) :=
  lex_of_tokenFrom rfl (by decide) rfl

theorem lex_arrayEnd (rest : Rest) :
    lex (']'.toUInt8 :: rest) = (.arrayEnd :: (lex rest).1, (lex rest).2) :=
  lex_of_tokenFrom rfl (by decide) rfl

theorem lex_dictStart (rest : Rest) :
    lex ('<'.toUInt8 :: '<'.toUInt8 :: rest) = (.dictStart :: (lex rest).1, (lex rest).2) :=
  lex_of_tokenFrom rfl (by decide) rfl

theorem lex_dictEnd (rest : Rest) :
    lex ('>'.toUInt8 :: '>'.toUInt8 :: rest) = (.dictEnd :: (lex rest).1, (lex rest).2) :=
  lex_of_tokenFrom rfl (by decide) rfl

/-! ## Words -/

theorem lex_word {b stop : UInt8} {word : List UInt8} (regular : ∀ c ∈ b :: word, isRegular c)
    (stops : isRegular stop = false) (rest : Rest) :
    lex (b :: word ++ stop :: rest) = (wordToken (Utf8.decodeLossy (b :: word)) ::
      (lex (stop :: rest)).1, (lex (stop :: rest)).2) := by
  have first := regular b List.mem_cons_self
  have others : ∀ c ∈ word, isRegular c := fun c mem => regular c (List.mem_cons_of_mem _ mem)
  have delimiter : ∀ d : UInt8, isDelimiter d → b ≠ d := by
    rintro d special rfl
    simp [isRegular, special] at first
  have blank : isBlank b = false := by
    simp only [isRegular, decide_eq_true_eq] at first
    exact Bool.eq_false_iff.2 first.1
  have taken : (word ++ stop :: rest).takeWhile isRegular = word := by
    rw [List.takeWhile_append_of_pos others, List.takeWhile_cons_of_neg (by simp [stops]),
      List.append_nil]
  have left : (word ++ stop :: rest).dropWhile isRegular = stop :: rest := by
    rw [List.dropWhile_append_of_pos others, List.dropWhile_cons_of_neg (by simp [stops])]
  have token : tokenFrom b (word ++ stop :: rest) =
      .ok (wordToken (Utf8.decodeLossy (b :: word)), stop :: rest) := by
    simp only [tokenFrom, taken, left]
    iterate 9 rw [if_neg (delimiter _ (by decide +kernel))]
  exact lex_of_tokenFrom blank (delimiter _ (by decide +kernel)) token

theorem byte_of_isDigit (P : UInt8 → Prop) (all : ∀ n < 10, P (Char.ofNat (48 + n)).toUInt8)
    {c : Char} (digit : c.isDigit) : P c.toUInt8 := by
  have bounds : 48 ≤ c.toNat ∧ c.toNat ≤ 57 := Char.isDigit_iff_toNat.1 digit
  have here := all (c.toNat - 48) (by omega)
  rwa [Nat.add_sub_cancel' bounds.1, Char.ofNat_toNat] at here

theorem isRegular_of_isDigit {c : Char} (digit : c.isDigit) : isRegular c.toUInt8 := by
  have all : ∀ n < 10, isRegular (Char.ofNat (48 + n)).toUInt8 := by decide +kernel
  exact byte_of_isDigit (isRegular ·) all digit

theorem plain_toDigits (n : Nat) : Text.Plain (Nat.toDigits 10 n) := by
  intro c mem
  have digit := List.all_eq_true.1 (Decimal.all_isDigit_toDigits n) c mem
  have bounds : 48 ≤ c.toNat ∧ c.toNat ≤ 57 := Char.isDigit_iff_toNat.1 digit
  omega

theorem toList_ofText_toString (n : Nat) :
    (Bytes.ofText (toString n)).toList = (Nat.toDigits 10 n).map Char.toUInt8 := by
  have characters : (toString n).toList = Nat.toDigits 10 n := by simp [ToString.toString]
  rw [Bytes.toList_ofText_of_plain (characters ▸ plain_toDigits n), characters]

/-- A number of any size is a word. -/
theorem lex_numeral (n : Nat) {stop : UInt8} (stops : isRegular stop = false) (rest : Rest) :
    lex ((Nat.toDigits 10 n).map Char.toUInt8 ++ stop :: rest) =
      (wordToken (Nat.toDigits 10 n) :: (lex (stop :: rest)).1, (lex (stop :: rest)).2) := by
  have digits := List.all_eq_true.1 (Decimal.all_isDigit_toDigits n)
  have characters := Utf8.decodeLossy_plain (plain_toDigits n)
  have regular : ∀ b ∈ (Nat.toDigits 10 n).map Char.toUInt8, isRegular b := by
    intro b mem
    obtain ⟨c, digit, rfl⟩ := List.mem_map.1 mem
    exact isRegular_of_isDigit (digits c digit)
  cases spelled : (Nat.toDigits 10 n).map Char.toUInt8 with
  | nil => exact absurd (List.map_eq_nil_iff.1 spelled) Nat.toDigits_ne_nil
  | cons b word =>
    rw [spelled] at regular characters
    rw [lex_word regular stops, characters]

theorem lex_number {n : Nat} (bound : n < 0x8000000000000000) {stop : UInt8}
    (stops : isRegular stop = false) (rest : Rest) :
    lex ((Nat.toDigits 10 n).map Char.toUInt8 ++ stop :: rest) =
      (.integer n :: (lex (stop :: rest)).1, (lex (stop :: rest)).2) := by
  rw [lex_numeral n stops, wordToken, Decimal.integer?_toDigits bound]

/-! ## Strings in hexadecimal -/

theorem readHex_values {digits text values : List UInt8}
    (h : text.map Hex.value? = values.map some) (rest : Rest) :
    readHex digits (text ++ rest) = readHex (values.reverse ++ digits) rest := by
  induction text generalizing digits values with
  | nil =>
    cases List.map_eq_nil_iff.1 h.symm
    rfl
  | cons b text ih =>
    cases values with
    | nil => cases h
    | cons value values =>
      obtain ⟨first, others⟩ := List.cons.inj h
      have close : b ≠ '>'.toUInt8 := by
        rintro rfl
        cases first
      have blank : ¬ isBlank b := by
        simp only [isBlank, decide_eq_true_eq]
        rintro (rfl | rfl | rfl | rfl | rfl | rfl) <;> cases first
      rw [List.cons_append, readHex, if_neg close, if_neg blank, first, List.reverse_cons,
        List.append_assoc]
      exact ih others

/-- The digits of a unit. -/
def nibbles (unit : UInt16) : List UInt8 :=
  [unit.toNat / 16 / 16 / 16 % 16, unit.toNat / 16 / 16 % 16, unit.toNat / 16 % 16,
    unit.toNat % 16].map UInt8.ofNat

theorem value?_digit : ∀ n < 16, Hex.value? (Hex.digit n).toUInt8 = some (UInt8.ofNat n) := by
  decide

theorem map_value?_quad (unit : UInt16) :
    (ToUnicode.quad unit).map (Hex.value? ∘ Char.toUInt8) = (nibbles unit).map some := by
  simp [ToUnicode.quad, Hex.fixed, nibbles, value?_digit _ (Nat.mod_lt _ (by decide : 0 < 16))]

theorem shift_or_digit : ∀ a < 16, ∀ b < 16,
    UInt8.ofNat a <<< 4 ||| UInt8.ofNat b = UInt8.ofNat (16 * a + b) := by
  decide

theorem packDigits_nibbles (unit : UInt16) (rest : List UInt8) :
    packDigits (nibbles unit ++ rest) =
      (unit >>> 8).toUInt8 :: unit.toUInt8 :: packDigits rest := by
  have bound := unit.toNat_lt
  simp only [nibbles, List.map_cons, List.map_nil, List.cons_append, List.nil_append, packDigits,
    shift_or_digit _ (Nat.mod_lt _ (by decide : 0 < 16)) _ (Nat.mod_lt _ (by decide : 0 < 16))]
  congr 1
  · rw [← UInt8.toNat_inj]
    simp [Nat.shiftRight_eq_div_pow]
    omega
  · congr 1
    rw [← UInt8.toNat_inj]
    simp
    omega

theorem packDigits_flatMap_nibbles (units : List UInt16) :
    packDigits (units.flatMap nibbles) = Utf16.toBytes units := by
  induction units with
  | nil => rfl
  | cons unit rest ih => rw [List.flatMap_cons, packDigits_nibbles, ih]; rfl

theorem lex_hex {text values : List UInt8} (h : text.map Hex.value? = values.map some)
    (rest : Rest) : lex ('<'.toUInt8 :: (text ++ '>'.toUInt8 :: rest)) =
      (.hex (packDigits values) :: (lex rest).1, (lex rest).2) := by
  have open_ (input : Rest) : tokenFrom '<'.toUInt8 input =
      if input.head? = some '<'.toUInt8 then .ok (.dictStart, input.drop 1)
      else (readHex [] input).map fun read => (.hex read.1, read.2) := rfl
  have single : (text ++ '>'.toUInt8 :: rest).head? ≠ some '<'.toUInt8 := by
    cases text with
    | nil => exact fun eq => absurd (Option.some.inj eq) (by decide)
    | cons b text =>
      intro eq
      cases Option.some.inj eq
      cases values with
      | nil => cases h
      | cons value values => cases (List.cons.inj h).1
  refine lex_of_tokenFrom rfl (by decide) ?_
  rw [open_, if_neg single, readHex_values h, readHex, if_pos rfl, List.append_nil,
    List.reverse_reverse]
  rfl

theorem lex_units (units : List UInt16) (rest : Rest) :
    lex ('<'.toUInt8 :: ((units.flatMap ToUnicode.quad).map Char.toUInt8 ++
      '>'.toUInt8 :: rest)) = (.hex (Utf16.toBytes units) :: (lex rest).1, (lex rest).2) := by
  have values : ((units.flatMap ToUnicode.quad).map Char.toUInt8).map Hex.value? =
      (units.flatMap nibbles).map some := by
    rw [List.map_map, List.map_flatMap, List.map_flatMap]
    exact List.flatMap_congr fun unit _ => map_value?_quad unit
  rw [lex_hex values, packDigits_flatMap_nibbles]

/-- The digits of a byte. -/
def halves (b : UInt8) : List UInt8 :=
  [b.toNat / 16 % 16, b.toNat % 16].map UInt8.ofNat

theorem map_value?_fixed (b : UInt8) :
    (Hex.fixed 2 b.toNat).map (Hex.value? ∘ Char.toUInt8) = (halves b).map some := by
  simp [Hex.fixed, halves, value?_digit _ (Nat.mod_lt _ (by decide : 0 < 16))]

theorem packDigits_flatMap_halves (bytes : List UInt8) :
    packDigits (bytes.flatMap halves) = bytes := by
  induction bytes with
  | nil => rfl
  | cons b rest ih =>
    have bound := b.toNat_lt
    have value : 16 * (b.toNat / 16 % 16) + b.toNat % 16 = b.toNat := by omega
    have join := shift_or_digit _ (Nat.mod_lt (b.toNat / 16) (by decide : 0 < 16)) _
      (Nat.mod_lt b.toNat (by decide : 0 < 16))
    rw [value, UInt8.ofNat_toNat] at join
    rw [List.flatMap_cons, halves, List.map_cons, List.map_cons, List.map_nil, List.cons_append,
      List.cons_append, List.nil_append, packDigits, join, ih]

theorem lex_bytes (bytes : List UInt8) (rest : Rest) :
    lex ('<'.toUInt8 :: ((bytes.flatMap fun b => Hex.fixed 2 b.toNat).map Char.toUInt8 ++
      '>'.toUInt8 :: rest)) = (.hex bytes :: (lex rest).1, (lex rest).2) := by
  have values : ((bytes.flatMap fun b => Hex.fixed 2 b.toNat).map Char.toUInt8).map Hex.value? =
      (bytes.flatMap halves).map some := by
    rw [List.map_map, List.map_flatMap, List.map_flatMap]
    exact List.flatMap_congr fun b _ => map_value?_fixed b
  rw [lex_hex values, packDigits_flatMap_halves]

/-! ## Literal strings -/

/-- No byte of a literal string closes it, opens an inner pair of parentheses or escapes another. -/
def Literal (bytes : List UInt8) : Prop :=
  '('.toUInt8 ∉ bytes ∧ ')'.toUInt8 ∉ bytes ∧ '\\'.toUInt8 ∉ bytes

instance (bytes : List UInt8) : Decidable (Literal bytes) :=
  inferInstanceAs (Decidable (_ ∧ _))

theorem readLiteral_plain {bytes read : List UInt8} (plain : Literal bytes) (rest : Rest) :
    readLiteral 0 read (bytes ++ ')'.toUInt8 :: rest) = .ok (read.reverse ++ bytes, rest) := by
  induction bytes generalizing read with
  | nil =>
    rw [List.nil_append, readLiteral.eq_def, List.append_nil]
    rfl
  | cons b bytes ih =>
    simp only [Literal, List.mem_cons, not_or] at plain
    obtain ⟨⟨opening, noOpening⟩, ⟨closing, noClosing⟩, escape, noEscape⟩ := plain
    have others : readLiteral 0 (b :: read) (bytes ++ ')'.toUInt8 :: rest) =
        .ok ((b :: read).reverse ++ bytes, rest) := ih ⟨noOpening, noClosing, noEscape⟩
    rw [List.reverse_cons, List.append_assoc, List.singleton_append] at others
    rw [List.cons_append, readLiteral.eq_def]
    dsimp only
    rw [if_neg (Ne.symm opening), if_neg (Ne.symm closing), if_neg (Ne.symm escape), others]

/-! ## Lines -/

/-- Whatever follows the piece, its tokens are these. -/
def Spells (piece : Rest) (tokens : List Token) : Prop :=
  ∀ behind, lex (piece ++ behind) = (tokens ++ (lex behind).1, (lex behind).2)

namespace Spells
variable {piece other : Rest} {tokens others : List Token}

theorem line (h : lex piece = (tokens, none)) : Spells (piece ++ [10]) tokens := by
  intro behind
  rw [List.append_assoc, List.singleton_append, lex_append_newline (by rw [h]), h]

theorem append (h : Spells piece tokens) (h' : Spells other others) :
    Spells (piece ++ other) (tokens ++ others) := by
  intro behind
  rw [List.append_assoc, h, h', List.append_assoc]

theorem flatMap {α : Type} {items : List α} {pieceOf : α → Rest} {tokensOf : α → List Token}
    (h : ∀ a ∈ items, Spells (pieceOf a) (tokensOf a)) :
    Spells (items.flatMap pieceOf) (items.flatMap tokensOf) := by
  induction items with
  | nil => exact fun behind => rfl
  | cons a rest ih =>
    rw [List.flatMap_cons, List.flatMap_cons]
    exact (h a List.mem_cons_self).append (ih fun b mem => h b (List.mem_cons_of_mem a mem))

theorem lex_eq (h : Spells piece tokens) : lex piece = (tokens, none) := by
  have none : lex [] = ([], none) := lex_of_blank (by rw [skipBlank.eq_def])
  have all := h []
  rwa [List.append_nil, none, List.append_nil] at all

end Spells

/-! ## Texts -/

/-- A text is spelled like this, whatever follows it. -/
abbrev SpellsText (text : String) (tokens : List Token) : Prop :=
  Spells (Bytes.ofText text).toList tokens

theorem SpellsText.append {text text' : String} {tokens tokens' : List Token}
    (h : SpellsText text tokens) (h' : SpellsText text' tokens') :
    SpellsText (text ++ text') (tokens ++ tokens') := by
  rw [SpellsText, Bytes.toList_ofText_append]
  exact Spells.append h h'

theorem spells_blank : SpellsText " " [] :=
  fun behind => lex_blank (b := 32) rfl behind

theorem spells_arrayStart : SpellsText "[" [.arrayStart] :=
  fun behind => lex_arrayStart behind

theorem spells_arrayEnd : SpellsText "]" [.arrayEnd] :=
  fun behind => lex_arrayEnd behind

/-- Bytes in hexadecimal between angle brackets. -/
def hexString (bytes : List UInt8) : String :=
  "<" ++ String.ofList (bytes.flatMap fun b => Hex.fixed 2 b.toNat) ++ ">"

theorem plain_hex (bytes : List UInt8) :
    Text.Plain (bytes.flatMap fun b => Hex.fixed 2 b.toNat) := by
  have digit : ∀ n < 16, (Hex.digit n).toNat < 128 := by decide
  refine Text.plain_flatMap fun b _ => ?_
  simp [Hex.fixed, digit _ (Nat.mod_lt _ (by decide : 0 < 16))]

theorem spells_hexString (bytes : List UInt8) : SpellsText (hexString bytes) [.hex bytes] := by
  have characters : (hexString bytes).toList =
      '<' :: ((bytes.flatMap fun b => Hex.fixed 2 b.toNat) ++ ['>']) := by
    simp [hexString]
  have plain : Text.Plain (hexString bytes).toList := by
    rw [characters]
    simp [plain_hex]
  intro behind
  have hex := lex_bytes bytes behind
  rw [Bytes.toList_ofText_of_plain plain, characters]
  simpa using hex

theorem spells_literal {text : String} (plain : Literal (Bytes.ofText text).toList) :
    SpellsText ("(" ++ text ++ ")") [.literal (Bytes.ofText text).toList] := by
  have opening : (Bytes.ofText "(").toList = ['('.toUInt8] := by decide +kernel
  have closing : (Bytes.ofText ")").toList = [')'.toUInt8] := by decide +kernel
  have token (rest : Rest) : tokenFrom '('.toUInt8 rest =
      (readLiteral 0 [] rest).map fun read => (.literal read.1, read.2) := rfl
  intro behind
  have inner := token ((Bytes.ofText text).toList ++ ')'.toUInt8 :: behind)
  rw [readLiteral_plain plain] at inner
  rw [Bytes.toList_ofText_append, Bytes.toList_ofText_append, opening, closing]
  simpa using lex_of_tokenFrom rfl (by decide) inner

/-- The token that a decimal number is read as; from 2^63 on it is not an integer. -/
def number (n : Nat) : Token :=
  wordToken (Nat.toDigits 10 n)

theorem number_of_lt {n : Nat} (bound : n < 0x8000000000000000) : number n = .integer n := by
  rw [number, wordToken, Decimal.integer?_toDigits bound]

theorem number_of_le {n : Nat} (beyond : 0x8000000000000000 ≤ n) (value : Int) :
    number n ≠ .integer value := by
  rw [number, wordToken, Decimal.integer?_toDigits_of_le beyond]
  cases Decimal.real? (Nat.toDigits 10 n) <;> simp

/-! ## Words in texts -/

/-- A text is spelled like this if no regular byte follows it. -/
def SpellsWord (text : String) (tokens : List Token) : Prop :=
  ∀ stop rest, isRegular stop = false →
    lex ((Bytes.ofText text).toList ++ stop :: rest) =
      (tokens ++ (lex (stop :: rest)).1, (lex (stop :: rest)).2)

section
variable {text text' : String} {tokens tokens' : List Token}

theorem SpellsText.word (h : SpellsText text tokens) : SpellsWord text tokens :=
  fun stop rest _ => h (stop :: rest)

theorem SpellsText.append_word (h : SpellsText text tokens) (h' : SpellsWord text' tokens') :
    SpellsWord (text ++ text') (tokens ++ tokens') := by
  intro stop rest stops
  rw [Bytes.toList_ofText_append, List.append_assoc, h, h' stop rest stops, List.append_assoc]

theorem SpellsWord.append {stop : UInt8} {rest : Rest} (h : SpellsWord text tokens)
    (begins : (Bytes.ofText text').toList = stop :: rest) (stops : isRegular stop = false)
    (h' : SpellsText text' tokens') : SpellsText (text ++ text') (tokens ++ tokens') := by
  intro behind
  have after := h' behind
  rw [begins, List.cons_append] at after
  rw [Bytes.toList_ofText_append, begins, List.append_assoc, List.cons_append, h _ _ stops, after,
    List.append_assoc]

theorem SpellsWord.blank (h : SpellsWord text tokens) : SpellsText (text ++ " ") tokens := by
  have begins : (Bytes.ofText " ").toList = [32] := by decide +kernel
  simpa using h.append begins rfl spells_blank

end

theorem spellsWord_regular {text : String} (nonempty : text.toList ≠ [])
    (plain : Text.Plain text.toList) (regular : ∀ c ∈ text.toList, isRegular c.toUInt8) :
    SpellsWord text [wordToken text.toList] := by
  have bytes : ∀ b ∈ text.toList.map Char.toUInt8, isRegular b := by
    intro b mem
    obtain ⟨c, character, rfl⟩ := List.mem_map.1 mem
    exact regular c character
  have characters := Utf8.decodeLossy_plain plain
  intro stop rest stops
  rw [Bytes.toList_ofText_of_plain plain]
  cases spelled : text.toList.map Char.toUInt8 with
  | nil => exact absurd (List.map_eq_nil_iff.1 spelled) nonempty
  | cons b word =>
    rw [spelled] at bytes characters
    rw [lex_word bytes stops, characters]
    rfl

theorem spellsWord_number (n : Nat) : SpellsWord (toString n) [number n] := by
  intro stop rest stops
  rw [toList_ofText_toString]
  exact lex_numeral n stops rest

theorem spellsWord_integer {value : Int} (low : -0x8000000000000000 ≤ value)
    (high : value < 0x8000000000000000) : SpellsWord (toString value) [.integer value] := by
  cases value with
  | ofNat n =>
    have natural := spellsWord_number n
    rwa [number_of_lt (Int.ofNat_lt.1 high)] at natural
  | negSucc n =>
    have characters : (toString (Int.negSucc n)).toList = '-' :: Nat.toDigits 10 (n + 1) := by
      simp [ToString.toString, Int.repr]
    have plain : Text.Plain ('-' :: Nat.toDigits 10 (n + 1)) := by simp [plain_toDigits]
    have regular : ∀ c ∈ '-' :: Nat.toDigits 10 (n + 1), isRegular c.toUInt8 := by
      intro c mem
      rcases List.mem_cons.1 mem with rfl | mem
      · decide +kernel
      · exact isRegular_of_isDigit (List.all_eq_true.1 (Decimal.all_isDigit_toDigits _) c mem)
    rw [← characters] at plain regular
    have word := spellsWord_regular (characters ▸ List.cons_ne_nil _ _) plain regular
    rwa [characters, wordToken, Decimal.integer?_neg (by omega)] at word

theorem spells_number (n : Nat) {space : String} {c : Char} (single : space.toList = [c])
    (small : c.toNat < 128) (blank : isBlank c.toUInt8) :
    SpellsText (toString n ++ space) [number n] := by
  have byte : (Bytes.ofText space).toList = [c.toUInt8] := by
    rw [Bytes.toList_ofText_of_plain (by simp [single, small]), single, List.map_singleton]
  have spaced : SpellsText space [] := by
    intro behind
    rw [byte]
    exact lex_blank blank behind
  exact (spellsWord_number n).append byte (by simp [isRegular, blank]) spaced

/-- Words with blanks between them. -/
theorem spellsWord_list {α : Type} {items : List α} {textOf : α → String}
    {tokensOf : α → List Token} (h : ∀ a ∈ items, SpellsWord (textOf a) (tokensOf a)) :
    SpellsWord (" ".intercalate (items.map textOf)) (items.flatMap tokensOf) := by
  induction items with
  | nil => exact fun stop rest _ => rfl
  | cons a rest ih =>
    have first := h a List.mem_cons_self
    have others := ih fun b mem => h b (List.mem_cons_of_mem a mem)
    cases rest with
    | nil => simpa using first
    | cons b rest =>
      rw [List.map_cons, List.map_cons, String.intercalate_cons_cons, List.flatMap_cons]
      exact first.blank.append_word others

theorem spells_array {α : Type} {items : List α} {textOf : α → String}
    {tokensOf : α → List Token} (h : ∀ a ∈ items, SpellsWord (textOf a) (tokensOf a)) :
    SpellsText ("[" ++ " ".intercalate (items.map textOf) ++ "]")
      (.arrayStart :: (items.flatMap tokensOf ++ [.arrayEnd])) := by
  have begins : (Bytes.ofText "]").toList = [']'.toUInt8] := by decide +kernel
  exact (spells_arrayStart.append_word (spellsWord_list h)).append begins (by decide +kernel)
    spells_arrayEnd

/-! ## Joined texts -/

theorem spells_numberLine (n : Nat) : SpellsText (toString n ++ "\n") [number n] :=
  spells_number n (c := '\n') rfl (by decide) rfl

theorem spells_join {α : Type} {items : List α} {textOf : α → String} {tokensOf : α → List Token}
    (h : ∀ a, SpellsText (textOf a) (tokensOf a)) :
    SpellsText (String.join (items.map textOf)) (items.flatMap tokensOf) := by
  induction items with
  | nil => exact fun behind => rfl
  | cons a rest ih =>
    rw [List.map_cons, String.join_cons, List.flatMap_cons]
    exact (h a).append ih

/-- A piece of text that ends in a line feed is spelled as it is lexed without it. -/
theorem spells_line {text : String} {tokens : List Token}
    (line : (Bytes.ofText text).toList = (Bytes.ofText text).toList.dropLast ++ [10])
    (front : lex (Bytes.ofText text).toList.dropLast = (tokens, none)) :
    SpellsText text tokens := by
  rw [SpellsText, line]
  exact .line front

end FontSubset.CodeMap
