import FontSubset.CodeMap.Lexer
import FontSubset.Proofs.Result

/-!
# Tokens of lines

* `lex_append_newline`: tokens end at a line feed. Input that is lexed without a fault can be
  followed by a line feed and any further input, whose tokens follow.

No token but a literal string or a comment can reach past a line feed. A literal string that has
been closed does not, and the line feed ends a comment.
-/

namespace FontSubset.CodeMap

theorem takeWhile_append_stop {α : Type} {p : α → Bool} {stop : α} (h : p stop = false)
    (front behind : List α) : (front ++ stop :: behind).takeWhile p = front.takeWhile p := by
  induction front with
  | nil => simp [h]
  | cons a rest ih => simp [List.takeWhile_cons, ih]

theorem dropWhile_append_stop {α : Type} {p : α → Bool} {stop : α} (h : p stop = false)
    (front behind : List α) :
    (front ++ stop :: behind).dropWhile p = front.dropWhile p ++ stop :: behind := by
  induction front with
  | nil => simp [h]
  | cons a rest ih =>
    rw [List.cons_append, List.dropWhile_cons, List.dropWhile_cons, ih]
    split <;> rfl

theorem skipBlank_append_newline (front behind : Rest) :
    skipBlank (front ++ 10 :: behind) =
      if skipBlank front = [] then skipBlank behind else skipBlank front ++ 10 :: behind := by
  fun_induction skipBlank front with
  | case1 =>
    rw [List.nil_append, skipBlank, if_pos (by decide), if_pos rfl]
  | case2 b rest blank ih => rw [List.cons_append, skipBlank, if_pos blank, ih]
  | case3 rest blank ih =>
    rw [List.cons_append, skipBlank, if_neg blank, if_pos rfl,
      dropWhile_append_stop (by decide), ih]
  | case4 b rest blank comment =>
    rw [List.cons_append, skipBlank, if_neg blank, if_neg comment, if_neg (List.cons_ne_nil _ _)]

/-! ## Strings -/

theorem readHex_append {digits bytes : List UInt8} {front rest : Rest} (behind : Rest)
    (h : readHex digits front = .ok (bytes, rest)) :
    readHex digits (front ++ behind) = .ok (bytes, rest ++ behind) := by
  fun_induction readHex digits front with
  | case1 => cases h
  | case2 digits rest =>
    cases h
    rw [List.cons_append, readHex, if_pos rfl]
  | case3 digits b rest close blank ih =>
    rw [List.cons_append, readHex, if_neg close, if_pos blank, ih h]
  | case4 digits b rest close blank digit value ih =>
    rw [List.cons_append, readHex, if_neg close, if_neg blank, value]
    exact ih h
  | case5 => cases h

/-- Only a carriage return at the very end could take in the line feed. -/
theorem readEscape_append_newline {b : UInt8} {rest : Rest} (h : b ≠ 13 ∨ rest ≠ [])
    (behind : Rest) : readEscape b (rest ++ 10 :: behind) =
      ((readEscape b rest).1, (readEscape b rest).2 ++ 10 :: behind) := by
  by_cases return_ : b = 13
  · obtain ⟨c, rest, rfl⟩ := List.exists_cons_of_ne_nil (h.resolve_left (not_not.2 return_))
    subst return_
    have spec (rest : Rest) : readEscape 13 rest =
        ([], if rest.head? = some 10 then rest.drop 1 else rest) := rfl
    rw [spec, spec, List.cons_append, List.head?_cons, List.head?_cons]
    split <;> rfl
  · have octal : ((rest ++ 10 :: behind).take 2).takeWhile isOctal =
        (rest.take 2).takeWhile isOctal := by
      rcases rest with _ | ⟨c, _ | ⟨d, rest⟩⟩
      · rfl
      · simp [List.takeWhile_cons, isOctal]
      · rfl
    have length : ((rest.take 2).takeWhile isOctal).length ≤ rest.length :=
      Nat.le_trans (List.takeWhile_sublist _).length_le (List.length_take_le' 2 rest)
    simp only [readEscape, octal, List.drop_append_of_le_length length, return_, if_false]
    repeat' split
    all_goals rfl

theorem readLiteral_append_newline {depth : Nat} {read bytes : List UInt8} {front rest : Rest}
    (behind : Rest) (h : readLiteral depth read front = .ok (bytes, rest)) :
    readLiteral depth read (front ++ 10 :: behind) = .ok (bytes, rest ++ 10 :: behind) := by
  fun_induction readLiteral depth read front with
  | case1 => cases h
  | case2 depth read rest ih =>
    rw [List.cons_append, readLiteral.eq_def]
    exact ih h
  | case3 read rest =>
    cases h
    rw [List.cons_append, readLiteral.eq_def]
    rfl
  | case4 read rest depth opened ih =>
    rw [List.cons_append, readLiteral.eq_def]
    exact ih h
  | case5 => cases h
  | case6 depth read e rest opened closed ih =>
    have more : e ≠ 13 ∨ rest ≠ [] := by
      by_contra both
      rw [not_or, not_not, not_not] at both
      obtain ⟨rfl, rfl⟩ := both
      rw [show readEscape 13 [] = ([], []) from rfl, readLiteral.eq_def] at h
      cases h
    have escape := readEscape_append_newline more behind
    rw [List.cons_append, List.cons_append, readLiteral.eq_def]
    dsimp only
    rw [if_neg opened, if_neg closed, if_pos rfl, escape]
    exact ih h
  | case7 depth read b rest opened closed escape ih =>
    rw [List.cons_append, readLiteral.eq_def]
    dsimp only
    rw [if_neg opened, if_neg closed, if_neg escape]
    exact ih h

/-! ## Tokens -/

/-- A token that `x` reads is also read by `y`, which has a line feed and `behind` in front of it
when it comes to the end of the input of `x`. -/
def Extends (behind : Rest) (x y : Except Misspelling (Token × Rest)) : Prop :=
  ∀ token rest, x = .ok (token, rest) → y = .ok (token, rest ++ 10 :: behind)

namespace Extends
variable {behind : Rest}

theorem ok {token : Token} {rest : Rest} :
    Extends behind (.ok (token, rest)) (.ok (token, rest ++ 10 :: behind)) := by
  rintro _ _ ⟨⟩
  rfl

theorem error {fault : Misspelling} {y : Except Misspelling (Token × Rest)} :
    Extends behind (.error fault) y := nofun

theorem ite {c : Prop} [Decidable c] {x x' y y' : Except Misspelling (Token × Rest)}
    (yes : c → Extends behind x x') (no : ¬ c → Extends behind y y') :
    Extends behind (if c then x else y) (if c then x' else y') := by
  split
  · exact yes ‹_›
  · exact no ‹_›

theorem map {x y : Except Misspelling (List UInt8 × Rest)} {f : List UInt8 → Token}
    (h : ∀ bytes rest, x = .ok (bytes, rest) → y = .ok (bytes, rest ++ 10 :: behind)) :
    Extends behind (x.map fun (bytes, rest) => (f bytes, rest))
      (y.map fun (bytes, rest) => (f bytes, rest)) := by
  intro token rest eq
  obtain ⟨⟨bytes, rest⟩, run, ⟨⟩⟩ := map_eq_ok.1 eq
  rw [h bytes rest run]
  rfl

end Extends

theorem tokenFrom_append_newline (b : UInt8) (front behind : Rest) :
    Extends behind (tokenFrom b front) (tokenFrom b (front ++ 10 :: behind)) := by
  have head (c : UInt8) (other : c ≠ 10) :
      (front ++ 10 :: behind).head? = some c ↔ front.head? = some c := by
    cases front <;> simp [Ne.symm other]
  have drop (c : UInt8) (found : front.head? = some c) :
      (front ++ 10 :: behind).drop 1 = front.drop 1 ++ 10 :: behind := by
    cases front with
    | nil => cases found
    | cons b rest => rfl
  unfold tokenFrom
  simp only [head '<'.toUInt8 (by decide), head '>'.toUInt8 (by decide),
    takeWhile_append_stop (show isRegular 10 = false by decide),
    dropWhile_append_stop (show isRegular 10 = false by decide)]
  refine .ite (fun _ => .ok) fun _ => .ite (fun _ => .ok) fun _ => .ite (fun _ => .ok) fun _ =>
    .ite (fun _ => .ok) fun _ => .ite (fun _ => ?angle) fun _ => .ite (fun _ => ?close) fun _ =>
    .ite (fun _ => ?literal) fun _ => .ite (fun _ => .error) fun _ => .ite (fun _ => .ok) fun _ =>
    .ok
  case angle =>
    exact .ite (fun found => drop _ found ▸ .ok) fun _ => .map fun _ _ => readHex_append _
  case close => exact .ite (fun found => drop _ found ▸ .ok) fun _ => .error
  case literal => exact .map fun _ _ => readLiteral_append_newline _

theorem next_eq_some {input rest : Rest} {token : Token} :
    next input = .ok (some (token, rest)) ↔
      ∃ b others, skipBlank input = b :: others ∧ tokenFrom b others = .ok (token, rest) := by
  rw [next]
  cases skipBlank input with
  | nil => simp
  | cons b others => simp [map_eq_ok]

theorem next_eq_none {input : Rest} : next input = .ok none ↔ skipBlank input = [] := by
  rw [next]
  cases skipBlank input with
  | nil => simp
  | cons b others => simp [map_eq_ok]

theorem lex_of_next {input rest : Rest} {token : Token}
    (h : next input = .ok (some (token, rest))) :
    lex input = (token :: (lex rest).1, (lex rest).2) := by
  rw [lex]
  split
  · rename_i none
    cases h.symm.trans none
  · rename_i some
    cases h.symm.trans some
    rfl
  · rename_i error
    cases h.symm.trans error

theorem lex_of_blank {input : Rest} (h : skipBlank input = []) : lex input = ([], none) := by
  have none := next_eq_none.2 h
  rw [lex]
  split
  · rfl
  · rename_i some
    cases none.symm.trans some
  · rename_i error
    cases none.symm.trans error

theorem lex_of_error {input : Rest} {fault : Misspelling} (h : next input = .error fault) :
    lex input = ([], some fault) := by
  rw [lex]
  split
  · rename_i none
    cases h.symm.trans none
  · rename_i some
    cases h.symm.trans some
  · rename_i error
    cases h.symm.trans error
    rfl

theorem lex_congr {input other : Rest} (h : skipBlank input = skipBlank other) :
    lex input = lex other := by
  have same : next input = next other := by rw [next, next, h]
  cases found : next other with
  | error fault => rw [lex_of_error found, lex_of_error (same.trans found)]
  | ok token =>
    cases token with
    | none =>
      rw [lex_of_blank (next_eq_none.1 found), lex_of_blank (h.trans (next_eq_none.1 found))]
    | some token => rw [lex_of_next found, lex_of_next (same.trans found)]

theorem lex_append_newline {front : Rest} (clean : (lex front).2 = none) (behind : Rest) :
    lex (front ++ 10 :: behind) = ((lex front).1 ++ (lex behind).1, (lex behind).2) := by
  fun_induction lex front with
  | case1 input none =>
    have skipped := skipBlank_append_newline input behind
    rw [if_pos (next_eq_none.1 none)] at skipped
    rw [lex_congr skipped]
    rfl
  | case2 input token rest found lt tokens fault eq ih =>
    obtain ⟨b, others, skipped, read⟩ := next_eq_some.1 found
    have skipped' := skipBlank_append_newline input behind
    rw [skipped, if_neg (List.cons_ne_nil _ _)] at skipped'
    have read' := tokenFrom_append_newline b others behind token rest read
    rw [lex_of_next (next_eq_some.2 ⟨b, _, skipped', read'⟩), ih (by rw [eq]; exact clean), eq]
    rfl
  | case3 => cases clean

end FontSubset.CodeMap
