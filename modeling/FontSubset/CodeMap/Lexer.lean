import FontSubset.CodeMap.Token
import FontSubset.Bytes
import FontSubset.Number.Decimal
import FontSubset.Text.Utf8

/-!
# Tokens from bytes

`next` takes one token from some bytes, and `lex` all of them up to the end or the first
misspelling. Each token uses up at least a byte.
-/

namespace FontSubset.CodeMap

/-- White space between tokens. -/
def isBlank (b : UInt8) : Bool :=
  b = 0 ∨ b = 9 ∨ b = 10 ∨ b = 12 ∨ b = 13 ∨ b = 32

def isLineEnd (b : UInt8) : Bool :=
  b = 10 ∨ b = 13

def isDelimiter (b : UInt8) : Bool :=
  b ∈ "()<>[]\x7b\x7d/%".toUTF8.toList

/-- Whether a byte belongs to names and words. -/
def isRegular (b : UInt8) : Bool :=
  ¬ isBlank b ∧ ¬ isDelimiter b

def isOctal (b : UInt8) : Bool :=
  0x30 ≤ b ∧ b ≤ 0x37

/-- What is left of the input after a token. -/
abbrev Rest := List UInt8

/-- A misspelling and the number of bytes that have not been read when it is noticed. -/
abbrev Misspelling := LexicalFault × Nat

/-- The input without the white space and the comments that it begins with. -/
def skipBlank : Rest → Rest
  | [] => []
  | b :: rest =>
    if isBlank b then skipBlank rest
    else if b = '%'.toUInt8 then skipBlank (rest.dropWhile (¬ isLineEnd ·))
    else b :: rest
termination_by input => input.length
decreasing_by
  · simp
  · have := (List.dropWhile_sublist (p := (¬ isLineEnd ·)) (l := rest)).length_le
    simp only [List.length_cons]; omega

/-- Pairs of hexadecimal digits as bytes. A digit without a partner is followed by a zero. -/
def packDigits : List UInt8 → List UInt8
  | high :: low :: rest => (high <<< 4 ||| low) :: packDigits rest
  | [high] => [high <<< 4]
  | [] => []

/-- The rest of a string in hexadecimal, of which some digits, the latest first, have been read. -/
def readHex (digits : List UInt8) : Rest → Except Misspelling (List UInt8 × Rest)
  | [] => .error (.unterminatedHex, 0)
  | b :: rest =>
    if b = '>'.toUInt8 then .ok (packDigits digits.reverse, rest)
    else if isBlank b then readHex digits rest
    else match Hex.value? b with
      | some digit => readHex (digit :: digits) rest
      | none => .error (.invalidHexDigit, rest.length)

/-- The bytes that an escape stands for, which begins with `b`, and the input after it. -/
def readEscape (b : UInt8) (rest : Rest) : List UInt8 × Rest :=
  if b = 'n'.toUInt8 then ([10], rest)
  else if b = 'r'.toUInt8 then ([13], rest)
  else if b = 't'.toUInt8 then ([9], rest)
  else if b = 'b'.toUInt8 then ([8], rest)
  else if b = 'f'.toUInt8 then ([12], rest)
  else if b = 10 then ([], rest)
  else if b = 13 then ([], if rest.head? = some 10 then rest.drop 1 else rest)
  else if isOctal b then
    let others := (rest.take 2).takeWhile isOctal
    let value := (b :: others).foldl (fun (n : UInt8) d => 8 * n + (d - 0x30)) 0
    ([value], rest.drop others.length)
  else ([b], rest)

theorem length_readEscape_le (b : UInt8) (rest : Rest) :
    (readEscape b rest).2.length ≤ rest.length := by
  unfold readEscape
  repeat' split
  all_goals simp

/-- The rest of a literal string within `depth` inner pairs of parentheses, of which some bytes,
the latest first, have been read. -/
def readLiteral (depth : Nat) (bytes : List UInt8) : Rest → Except Misspelling (List UInt8 × Rest)
  | [] => .error (.unterminatedLiteral, 0)
  | b :: rest =>
    if b = '('.toUInt8 then readLiteral (depth + 1) (b :: bytes) rest
    else if b = ')'.toUInt8 then
      match depth with
      | 0 => .ok (bytes.reverse, rest)
      | depth + 1 => readLiteral depth (b :: bytes) rest
    else if b = '\\'.toUInt8 then
      match rest with
      | [] => .error (.unterminatedLiteral, 0)
      | e :: rest =>
        readLiteral depth ((readEscape e rest).1 ++ bytes) (readEscape e rest).2
    else readLiteral depth (b :: bytes) rest
termination_by input => input.length
decreasing_by
  · simp
  · simp
  · have := length_readEscape_le e rest
    simp only [List.length_cons]; omega
  · simp

/-- A bare word: an integer, a real number or else a keyword. -/
def wordToken (word : List Char) : Token :=
  match Decimal.integer? word with
  | some value => .integer value
  | none =>
    match Decimal.real? word with
    | some value => .real value
    | none => .keyword (String.ofList word)

/-- The token that begins with `b`. -/
def tokenFrom (b : UInt8) (rest : Rest) : Except Misspelling (Token × Rest) :=
  if b = '['.toUInt8 then .ok (.arrayStart, rest)
  else if b = ']'.toUInt8 then .ok (.arrayEnd, rest)
  else if b = 0x7B then .ok (.procStart, rest)
  else if b = 0x7D then .ok (.procEnd, rest)
  else if b = '<'.toUInt8 then
    if rest.head? = some '<'.toUInt8 then .ok (.dictStart, rest.drop 1)
    else (readHex [] rest).map fun (bytes, rest) => (.hex bytes, rest)
  else if b = '>'.toUInt8 then
    if rest.head? = some '>'.toUInt8 then .ok (.dictEnd, rest.drop 1)
    else .error (.strayClose, rest.length - 1)
  else if b = '('.toUInt8 then
    (readLiteral 0 [] rest).map fun (bytes, rest) => (.literal bytes, rest)
  else if b = ')'.toUInt8 then .error (.strayParenthesis, rest.length)
  else
    let others := rest.takeWhile isRegular
    let behind := rest.dropWhile isRegular
    if b = '/'.toUInt8 then .ok (.name (String.ofList (Utf8.decodeLossy others)), behind)
    else .ok (wordToken (Utf8.decodeLossy (b :: others)), behind)

/-- The first token, if there is one, and what follows it. -/
def next (input : Rest) : Except Misspelling (Option (Token × Rest)) :=
  match skipBlank input with
  | [] => .ok none
  | b :: rest => (tokenFrom b rest).map some

theorem length_skipBlank_le (input : Rest) : (skipBlank input).length ≤ input.length := by
  fun_induction skipBlank input with
  | case1 => simp
  | case2 b rest _ ih => simp only [List.length_cons]; omega
  | case3 rest _ ih =>
    have := (List.dropWhile_sublist (p := (¬ isLineEnd ·)) (l := rest)).length_le
    simp only [List.length_cons]; omega
  | case4 => simp

theorem length_le_of_readHex {digits : List UInt8} {input rest : Rest} {bytes : List UInt8}
    (h : readHex digits input = .ok (bytes, rest)) : rest.length ≤ input.length := by
  fun_induction readHex digits input with
  | case1 => cases h
  | case2 => cases h; simp
  | case3 digits b behind _ _ ih => have := ih h; simp only [List.length_cons]; omega
  | case4 digits b behind _ _ digit _ ih => have := ih h; simp only [List.length_cons]; omega
  | case5 => cases h

theorem length_le_of_readLiteral {depth : Nat} {read : List UInt8} {input rest : Rest}
    {bytes : List UInt8} (h : readLiteral depth read input = .ok (bytes, rest)) :
    rest.length ≤ input.length := by
  fun_induction readLiteral depth read input with
  | case1 => cases h
  | case2 depth read behind ih => have := ih h; simp only [List.length_cons]; omega
  | case3 => cases h; simp
  | case4 read behind depth _ ih => have := ih h; simp only [List.length_cons]; omega
  | case5 => cases h
  | case6 depth read e behind _ _ ih =>
    have := ih h
    have := length_readEscape_le e behind
    simp only [List.length_cons]; omega
  | case7 depth read b behind _ _ _ ih => have := ih h; simp only [List.length_cons]; omega

theorem length_le_of_tokenFrom {b : UInt8} {input rest : Rest} {token : Token}
    (h : tokenFrom b input = .ok (token, rest)) : rest.length ≤ input.length := by
  have regular : (input.dropWhile isRegular).length ≤ input.length :=
    (List.dropWhile_sublist _).length_le
  have hex : ∀ out, readHex [] input = .ok out → out.2.length ≤ input.length :=
    fun _ => length_le_of_readHex
  have literal : ∀ out, readLiteral 0 [] input = .ok out → out.2.length ≤ input.length :=
    fun _ => length_le_of_readLiteral
  unfold tokenFrom at h
  cases hexCase : readHex [] input <;> cases literalCase : readLiteral 0 [] input <;>
    simp only [hexCase, literalCase, Except.map] at h hex literal <;>
    grind

theorem length_lt_of_next {input rest : Rest} {token : Token}
    (h : next input = .ok (some (token, rest))) : rest.length < input.length := by
  have skipped := length_skipBlank_le input
  unfold next at h
  split at h
  · cases h
  · rename_i b behind eq
    cases found : tokenFrom b behind with
    | error e => simp [found, Except.map] at h
    | ok out =>
      simp only [found, Except.map, Except.ok.injEq, Option.some.injEq] at h
      subst h
      have := length_le_of_tokenFrom found
      rw [eq, List.length_cons] at skipped
      omega

/-- All tokens of the input up to its end or to the first misspelling. -/
def lex (input : Rest) : List Token × Option Misspelling :=
  match h : next input with
  | .ok none => ([], none)
  | .ok (some (token, rest)) =>
    have := length_lt_of_next h
    let (tokens, fault) := lex rest
    (token :: tokens, fault)
  | .error fault => ([], some fault)
termination_by input.length

/-- The tokens of a code map, and the fault that ends them before the end of the input. -/
def tokens (input : Bytes) : List Token × Option CodeMapFault :=
  let (tokens, fault) := lex input.toList
  (tokens, fault.map fun (fault, unread) => .lexical fault (input.size - unread))

end FontSubset.CodeMap
