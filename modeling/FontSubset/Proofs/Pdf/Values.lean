import FontSubset.Pdf.FontObjects
import FontSubset.Proofs.CodeMap.Spelling
import Mathlib.Data.List.Forall2

/-!
# Values of PDF objects

Each value that is written is lexed to tokens that make up one value (`SpellsValue`), in which
brackets are balanced and the keys of a dictionary have one value each (`IsValue`).
-/

namespace FontSubset.Pdf
open CodeMap

/-! ## Values as tokens -/

def referenceTokens (n : Nat) : List Token :=
  [CodeMap.number n, .integer 0, .keyword "R"]

def arrayTokens (items : List (List Token)) : List Token :=
  .arrayStart :: (items.flatten ++ [.arrayEnd])

def dictionaryTokens (entries : List (String × List Token)) : List Token :=
  .dictStart :: (entries.flatMap (fun entry => .name entry.1 :: entry.2) ++ [.dictEnd])

/-- The tokens are those of one value. -/
inductive IsValue : List Token → Prop
  | name (text : String) : IsValue [.name text]
  | number (n : Nat) : IsValue [CodeMap.number n]
  | integer (value : Int) : IsValue [.integer value]
  | literal (bytes : List UInt8) : IsValue [.literal bytes]
  | reference (n : Nat) : IsValue (referenceTokens n)
  | array {items : List (List Token)} : (∀ item ∈ items, IsValue item) →
      IsValue (arrayTokens items)
  | dictionary {entries : List (String × List Token)} : (∀ entry ∈ entries, IsValue entry.2) →
      IsValue (dictionaryTokens entries)

/-- What stands before each `0 R`. -/
def references : List Token → List Token
  | [] => []
  | first :: rest =>
    if rest.take 2 = [.integer 0, .keyword "R"] then first :: references rest
    else references rest

theorem take_two_ne {front back : List Token} (free : .keyword "R" ∉ front)
    (apart : .keyword "R" ∉ back.take 2) :
    (front ++ back).take 2 ≠ [.integer 0, .keyword "R"] := by
  intro same
  have mem : Token.keyword "R" ∈ (front ++ back).take 2 := by simp [same]
  rw [List.take_append, List.mem_append] at mem
  rcases mem with mem | mem
  · exact free (List.mem_of_mem_take mem)
  · exact apart (List.take_subset_take_left _ (Nat.sub_le _ _) mem)

theorem references_append {front back : List Token} (free : .keyword "R" ∉ front)
    (apart : .keyword "R" ∉ back.take 2) : references (front ++ back) = references back := by
  induction front with
  | nil => rfl
  | cons first rest ih =>
    have freeRest : Token.keyword "R" ∉ rest := fun mem => free (List.mem_cons_of_mem _ mem)
    rw [List.cons_append, references, if_neg (take_two_ne freeRest apart), ih freeRest]

/-! ## Values as texts -/

/-- Unless a regular byte follows, the text is lexed to these tokens, which are one value. -/
structure SpellsValue (text : String) (tokens : List Token) : Prop where
  spells : SpellsWord text tokens
  isValue : IsValue tokens

theorem small_of_isAlphanum {c : Char} (h : c.isAlphanum) : c.toNat < 128 := by
  have kinds : ((c.isUpper || c.isLower) || c.isDigit) = true := h
  rw [Bool.or_eq_true, Bool.or_eq_true] at kinds
  rcases kinds with (upper | lower) | digit
  · have last : c.toNat ≤ 'Z'.toNat := UInt32.le_iff_toNat_le.1 (of_decide_eq_true upper).2
    exact Nat.lt_of_le_of_lt last (by decide)
  · have last : c.toNat ≤ 'z'.toNat :=
      UInt32.le_iff_toNat_le.1 (of_decide_eq_true (Bool.and_eq_true_iff.1 lower).2)
    exact Nat.lt_of_le_of_lt last (by decide)
  · exact Nat.lt_of_le_of_lt (Char.isDigit_iff_toNat.1 digit).2 (by decide)

theorem small_of_isNameCharacter {c : Char} (kept : isNameCharacter c) : c.toNat < 128 := by
  rcases of_decide_eq_true kept with letter | mark
  · exact small_of_isAlphanum letter
  · have marks : ∀ m ∈ ['-', '_', '+', '.', ','], m.toNat < 128 := by simp
    exact marks c mark

theorem isRegular_of_isNameCharacter {c : Char} (kept : isNameCharacter c) :
    isRegular c.toUInt8 := by
  have all : ∀ n < 128, isNameCharacter (Char.ofNat n) → isRegular (Char.ofNat n).toUInt8 := by
    decide +kernel
  have here := all c.toNat (small_of_isNameCharacter kept)
  rw [Char.ofNat_toNat] at here
  exact here kept

theorem lex_name {word : List UInt8} (regular : ∀ c ∈ word, isRegular c) {stop : UInt8}
    (stops : isRegular stop = false) (rest : Rest) :
    lex ('/'.toUInt8 :: (word ++ stop :: rest)) =
      (.name (String.ofList (Utf8.decodeLossy word)) :: (lex (stop :: rest)).1,
        (lex (stop :: rest)).2) := by
  have token (input : Rest) : tokenFrom '/'.toUInt8 input = .ok (.name (String.ofList
      (Utf8.decodeLossy (input.takeWhile isRegular))), input.dropWhile isRegular) := rfl
  have slash := token (word ++ stop :: rest)
  rw [List.takeWhile_append_of_pos regular, List.takeWhile_cons_of_neg (by simp [stops]),
    List.append_nil, List.dropWhile_append_of_pos regular,
    List.dropWhile_cons_of_neg (by simp [stops])] at slash
  exact lex_of_tokenFrom rfl (by decide) slash

theorem spellsValue_name {text : String} (kept : text.toList.all isNameCharacter) :
    SpellsValue (name text) [.name text] := by
  refine ⟨fun stop rest stops => ?_, .name text⟩
  have kept := List.all_eq_true.1 kept
  have plain : Text.Plain text.toList := fun c mem => small_of_isNameCharacter (kept c mem)
  have regular : ∀ b ∈ text.toList.map Char.toUInt8, isRegular b := by
    intro b mem
    obtain ⟨c, character, rfl⟩ := List.mem_map.1 mem
    exact isRegular_of_isNameCharacter (kept c character)
  have slash : (Bytes.ofText "/").toList = ['/'.toUInt8] := by decide +kernel
  have lexed := lex_name regular stops rest
  rw [Utf8.decodeLossy_plain plain, String.ofList_toList] at lexed
  rw [name, Bytes.toList_ofText_append, slash, Bytes.toList_ofText_of_plain plain]
  exact lexed

theorem spellsValue_number (n : Nat) : SpellsValue (toString n) [CodeMap.number n] :=
  ⟨spellsWord_number n, .number n⟩

theorem spellsValue_integer {value : Int} (low : -0x8000000000000000 ≤ value)
    (high : value < 0x8000000000000000) : SpellsValue (toString value) [.integer value] :=
  ⟨spellsWord_integer low high, .integer value⟩

theorem spellsValue_reference (n : Nat) : SpellsValue (reference n) (referenceTokens n) := by
  have single : "R".toList = ['R'] := rfl
  have regular : isRegular 'R'.toUInt8 := by decide +kernel
  have letter : SpellsWord "R" [.keyword "R"] :=
    spellsWord_regular (by simp) (by simp) (by simpa [single] using regular)
  have zero : SpellsText (toString 0 ++ " ") [CodeMap.number 0] := (spellsWord_number 0).blank
  have text : reference n = toString n ++ " " ++ (toString 0 ++ " " ++ "R") := by
    simp only [reference, String.append_assoc]
    rfl
  rw [text]
  exact ⟨(spellsWord_number n).blank.append_word (zero.append_word letter), .reference n⟩

theorem spellsValue_literal (text : String) (plain : Literal (Bytes.ofText text).toList) :
    SpellsValue ("(" ++ text ++ ")") [.literal (Bytes.ofText text).toList] :=
  ⟨(spells_literal plain).word, .literal _⟩

theorem spellsValue_array {α : Type} {items : List α} {textOf : α → String}
    {tokensOf : α → List Token} (h : ∀ a ∈ items, SpellsValue (textOf a) (tokensOf a)) :
    SpellsValue (array (items.map textOf)) (arrayTokens (items.map tokensOf)) := by
  constructor
  · rw [arrayTokens, ← List.flatMap_def]
    exact (spells_array fun a mem => (h a mem).spells).word
  · refine .array fun item mem => ?_
    obtain ⟨a, source, rfl⟩ := List.mem_map.1 mem
    exact (h a source).isValue

/-! ## Dictionaries -/

/-- The entry of a dictionary as text and as tokens. -/
structure SpellsEntry (entry : String × String) (tokens : String × List Token) : Prop where
  key : entry.1 = tokens.1
  kept : entry.1.toList.all isNameCharacter
  value : SpellsValue entry.2 tokens.2

theorem spellsEntry {key text : String} {tokens : List Token}
    (kept : key.toList.all isNameCharacter) (value : SpellsValue text tokens) :
    SpellsEntry (key, text) (key, tokens) :=
  ⟨rfl, kept, value⟩

theorem SpellsEntry.spells {entry : String × String} {tokens : String × List Token}
    (h : SpellsEntry entry tokens) :
    SpellsText (name entry.1 ++ " " ++ entry.2 ++ " ") (.name tokens.1 :: tokens.2) :=
  h.key ▸ ((spellsValue_name h.kept).spells.blank.append_word h.value.spells).blank

theorem spells_entries {entries : List (String × String)} {tokens : List (String × List Token)}
    (h : List.Forall₂ SpellsEntry entries tokens) :
    SpellsText (String.join (entries.map fun entry => name entry.1 ++ " " ++ entry.2 ++ " "))
      (tokens.flatMap fun entry => .name entry.1 :: entry.2) := by
  induction h with
  | nil => exact fun behind => rfl
  | cons first _ ih =>
    rw [List.map_cons, String.join_cons, List.flatMap_cons]
    exact first.spells.append ih

/-- The text is that of a dictionary with these entries. -/
def Written (text : String) (tokens : List (String × List Token)) : Prop :=
  ∃ entries, text = dictionary entries ∧ List.Forall₂ SpellsEntry entries tokens

namespace Written
variable {text : String} {tokens : List (String × List Token)}

theorem spells (h : Written text tokens) : SpellsText text (dictionaryTokens tokens) := by
  obtain ⟨entries, rfl, spelled⟩ := h
  have brackets : SpellsText "<<" [.dictStart] := fun behind => lex_dictStart behind
  have opening : SpellsText "<< " [.dictStart] := brackets.append spells_blank
  have closing : SpellsText ">>" [.dictEnd] := fun behind => lex_dictEnd behind
  exact (opening.append (spells_entries spelled)).append closing

theorem isValue (h : Written text tokens) : ∀ entry ∈ tokens, IsValue entry.2 := by
  obtain ⟨entries, -, spelled⟩ := h
  induction spelled with
  | nil => exact fun _ mem => absurd mem List.not_mem_nil
  | cons first _ ih =>
    intro entry mem
    rcases List.mem_cons.1 mem with rfl | mem
    · exact first.value.isValue
    · exact ih entry mem

theorem spellsValue (h : Written text tokens) : SpellsValue text (dictionaryTokens tokens) :=
  ⟨h.spells.word, .dictionary h.isValue⟩

end Written

end FontSubset.Pdf
