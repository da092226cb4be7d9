import FontSubset.Proofs.CodeMap.Lexer

/-!
# Tokens, line by line

* `tokens_append_line`: what is lexed without a fault can be followed by a further line. The tokens
  of the line follow, up to its end or to its first fault, which is found where it stands. Lexing
  comes to an end, since each token uses up a piece of the input.
-/

namespace FontSubset.CodeMap

/-! ## What is left of the input -/

/-- What is left is an end of the input, and a fault is noticed within the input. -/
def Within {α : Type} (input : Rest) : Except Misspelling (α × Rest) → Prop
  | .ok (_, rest) => rest <:+ input
  | .error (_, unread) => unread ≤ input.length

namespace Within
variable {α β : Type} {input behind : Rest} {x y : Except Misspelling (α × Rest)}

theorem mono (h : Within behind x) (suffix : behind <:+ input) : Within input x := by
  match x with
  | .ok _ => exact List.IsSuffix.trans h suffix
  | .error _ => exact Nat.le_trans h suffix.length_le

theorem cons (b : UInt8) (h : Within input x) : Within (b :: input) x :=
  h.mono (List.suffix_cons b input)

theorem ite {c : Prop} [Decidable c] (yes : Within input x) (no : Within input y) :
    Within input (if c then x else y) := by
  split
  · exact yes
  · exact no

theorem map (f : α → β) (h : Within input x) :
    Within input (x.map fun out => (f out.1, out.2)) := by
  match x with
  | .ok _ => exact h
  | .error _ => exact h

end Within

theorem readHex_within (digits : List UInt8) (input : Rest) :
    Within input (readHex digits input) := by
  fun_induction readHex digits input with
  | case1 => exact Nat.le_refl 0
  | case2 => exact List.suffix_cons _ _
  | case3 digits b behind _ _ ih => exact ih.cons b
  | case4 digits b behind _ _ digit _ ih => exact ih.cons b
  | case5 => exact Nat.le_succ _

theorem readEscape_suffix (b : UInt8) (rest : Rest) : (readEscape b rest).2 <:+ rest := by
  unfold readEscape
  repeat' split
  all_goals simp only [List.suffix_rfl, List.drop_suffix]

theorem readLiteral_within (depth : Nat) (read : List UInt8) (input : Rest) :
    Within input (readLiteral depth read input) := by
  fun_induction readLiteral depth read input with
  | case1 => exact Nat.le_refl 0
  | case2 depth read behind ih => exact ih.cons _
  | case3 => exact List.suffix_cons _ _
  | case4 read behind depth _ ih => exact ih.cons _
  | case5 => exact Nat.zero_le _
  | case6 depth read e behind _ _ ih => exact ((ih.mono (readEscape_suffix e behind)).cons e).cons _
  | case7 depth read b behind _ _ _ ih => exact ih.cons b

theorem tokenFrom_within (b : UInt8) (input : Rest) : Within input (tokenFrom b input) := by
  have all (token : Token) : Within input (.ok (token, input)) := List.suffix_rfl
  have second (token : Token) : Within input (.ok (token, input.drop 1)) := List.drop_suffix _ _
  have word (token : Token) : Within input (.ok (token, input.dropWhile isRegular)) :=
    List.dropWhile_suffix _
  have stray (fault : LexicalFault) (unread : Nat) (bound : unread ≤ input.length) :
      Within input (.error (fault, unread) : Except Misspelling (Token × Rest)) := bound
  refine .ite (all _) (.ite (all _) (.ite (all _) (.ite (all _) (.ite ?angle (.ite ?close
    (.ite ?literal (.ite (stray _ _ (Nat.le_refl _)) (.ite (word _) (word _)))))))))
  case angle => exact .ite (second _) ((readHex_within [] input).map Token.hex)
  case close => exact .ite (second _) (stray _ _ (Nat.sub_le _ _))
  case literal => exact (readLiteral_within 0 [] input).map Token.literal

theorem skipBlank_suffix (input : Rest) : skipBlank input <:+ input := by
  fun_induction skipBlank input with
  | case1 => exact List.suffix_rfl
  | case2 b rest _ ih => exact ih.trans (List.suffix_cons b rest)
  | case3 rest _ ih => exact (ih.trans (List.dropWhile_suffix _)).trans (List.suffix_cons _ rest)
  | case4 => exact List.suffix_rfl

theorem next_eq_error {input : Rest} {fault : Misspelling} :
    next input = .error fault ↔
      ∃ b others, skipBlank input = b :: others ∧ tokenFrom b others = .error fault := by
  rw [next]
  cases skipBlank input with
  | nil => simp
  | cons b others => cases found : tokenFrom b others <;> simp [Except.map, found]

theorem uses_of_next {input rest : Rest} {token : Token}
    (h : next input = .ok (some (token, rest))) :
    ∃ used : List UInt8, used ≠ [] ∧ input = used ++ rest := by
  obtain ⟨b, others, skipped, found⟩ := next_eq_some.1 h
  have left := tokenFrom_within b others
  rw [found] at left
  obtain ⟨spelling, rfl⟩ : rest <:+ others := left
  obtain ⟨blank, whole⟩ := skipBlank_suffix input
  rw [skipped] at whole
  exact ⟨blank ++ b :: spelling, by simp, by simp [← whole]⟩

theorem unread_le_of_next {input : Rest} {fault : Misspelling} (h : next input = .error fault) :
    fault.2 ≤ input.length := by
  obtain ⟨b, others, skipped, found⟩ := next_eq_error.1 h
  have noticed := tokenFrom_within b others
  rw [found] at noticed
  have left := (skipBlank_suffix input).length_le
  rw [skipped, List.length_cons] at left
  exact Nat.le_trans noticed (by omega)

/-! ## Tokens one after another -/

/-- The first tokens of some input, and what is left of the input behind them. -/
inductive Takes : Rest → List Token → Rest → Prop
  | none {input : Rest} : Takes input [] input
  | next {input behind rest : Rest} {token : Token} {tokens : List Token}
      (first : CodeMap.next input = .ok (some (token, behind))) (others : Takes behind tokens rest) :
      Takes input (token :: tokens) rest

theorem Takes.length_le {input rest : Rest} {tokens : List Token} (h : Takes input tokens rest) :
    tokens.length + rest.length ≤ input.length := by
  induction h with
  | none => simp
  | next first _ ih =>
    have := length_lt_of_next first
    rw [List.length_cons]
    omega

theorem lex_takes (input : Rest) : ∃ rest, Takes input (lex input).1 rest ∧
    next rest = (lex input).2.elim (.ok none) .error := by
  fun_induction lex input with
  | case1 input none => exact ⟨input, .none, none⟩
  | case2 input token behind found _ tokens fault eq ih =>
    rw [eq] at ih
    obtain ⟨rest, others, last⟩ := ih
    exact ⟨rest, .next found others, last⟩
  | case3 input fault error => exact ⟨input, .none, error⟩

theorem unread_le_of_lex {input : Rest} {fault : Misspelling} (h : (lex input).2 = some fault) :
    fault.2 ≤ input.length := by
  obtain ⟨rest, taken, last⟩ := lex_takes input
  rw [h] at last
  have := taken.length_le
  have := unread_le_of_next last
  omega

/-- A fault that is noticed behind `count` more bytes. -/
def faultBehind (count : Nat) : CodeMapFault → CodeMapFault
  | .lexical fault position => .lexical fault (count + position)
  | fault => fault

theorem tokens_append_line :
    (∀ front line : Bytes, (tokens front).2 = none →
      tokens (front ++ #[10] ++ line) = ((tokens front).1 ++ (tokens line).1,
        (tokens line).2.map (faultBehind (front.size + 1)))) ∧
    (∀ input token rest, next input = .ok (some (token, rest)) →
      ∃ used : List UInt8, used ≠ [] ∧ input = used ++ rest) ∧
    ∀ input, ∃ rest, Takes input (lex input).1 rest ∧
      next rest = (lex input).2.elim (.ok none) .error ∧ (lex input).1.length ≤ input.length := by
  refine ⟨fun front line clean => ?lines, fun input token rest => uses_of_next, fun input => ?ends⟩
  case lines =>
    have clean' : (lex front.toList).2 = none := by simpa [tokens] using clean
    have spelled : (front ++ #[10] ++ line).toList = front.toList ++ 10 :: line.toList := by simp
    simp only [tokens, spelled, lex_append_newline clean']
    cases found : (lex line.toList).2 with
    | none => rfl
    | some fault =>
      have bound := unread_le_of_lex found
      rw [Array.length_toList] at bound
      simp only [Option.map_some, faultBehind, Array.size_append, List.size_toArray,
        List.length_singleton]
      rw [Nat.add_sub_assoc bound]
  case ends =>
    obtain ⟨rest, taken, last⟩ := lex_takes input
    have := taken.length_le
    exact ⟨rest, taken, last, by omega⟩

/-- A line that ends in a comment is followed by one with an open string. -/
theorem tokens_append_line_comment :
    (tokens (Bytes.ofText "[(a\\(\\)b) <4 1>/x 7% end")).2 = none ∧
    tokens (Bytes.ofText "[(a\\(\\)b) <4 1>/x 7% end" ++ #[10] ++ Bytes.ofText "] (c") =
      ([.arrayStart, .literal [97, 40, 41, 98], .hex [65], .name "x", .integer 7, .arrayEnd],
        some (.lexical .unterminatedLiteral 29)) := by
  have clean : (tokens (Bytes.ofText "[(a\\(\\)b) <4 1>/x 7% end")).2 = none := by decide +kernel
  refine ⟨clean, ?_⟩
  rw [tokens_append_line.1 _ _ clean]
  decide +kernel

end FontSubset.CodeMap
