import FontSubset.Shaping.Segmentation

/-!
# Leftmost-longest segmentation

* `segment_leftmostLongest`: a text is cut at the first place where a word fits, by the longest word
  that fits there, and so on behind that word.

There is one such way to cut a text (`LeftmostLongest.unique`), which is why neither the order of
the words nor repeated ones matter.
-/

namespace FontSubset

/-! ## The order of words -/

instance : Std.TransCmp wordOrder :=
  inferInstanceAs (Std.TransCmp
    (compareLex (fun a b : List Char => compareOn List.length b a) compare))

theorem length_le_of_wordOrder {a b : List Char} (le : (wordOrder a b).isLE) :
    b.length ≤ a.length := by
  have first : (compare b.length a.length).isLE := (Ordering.isLE_then_iff_and.1 le).1
  exact Nat.isLE_compare.1 first

theorem pairwise_mergeSort (words : List (List Char)) :
    (words.mergeSort fun a b => (wordOrder a b).isLE).Pairwise fun a b => (wordOrder a b).isLE := by
  refine List.pairwise_mergeSort (fun a b c => Std.TransCmp.isLE_trans) ?_ words
  intro a b
  have swapped : wordOrder b a = (wordOrder a b).swap := Std.OrientedCmp.eq_swap
  rw [swapped]
  cases wordOrder a b <;> rfl

section
variable {α : Type} [DecidableEq α]

theorem mem_withoutRepeats {items : List α} {a : α} : a ∈ withoutRepeats items ↔ a ∈ items := by
  fun_induction withoutRepeats items with
  | case1 b rest ih => simp [ih]
  | case2 b c rest _ ih => rw [List.mem_cons, ih, ← List.mem_cons]
  | case3 => rfl

theorem withoutRepeats_sublist (items : List α) : (withoutRepeats items).Sublist items := by
  fun_induction withoutRepeats items with
  | case1 b rest ih => exact ih.cons b
  | case2 b c rest _ ih => exact ih.cons_cons b
  | case3 => exact .refl _

end

namespace Lexicon

section
variable {l : Lexicon} {words : List (List Char)} {word text passed : List Char}

theorem mem_words_ofList : word ∈ (ofList words).words ↔ word ∈ words ∧ word ≠ [] := by
  simp [ofList, mem_withoutRepeats]

theorem pairwise_words_ofList (words : List (List Char)) :
    (ofList words).words.Pairwise fun a b => b.length ≤ a.length :=
  ((pairwise_mergeSort _).sublist (withoutRepeats_sublist _)).imp length_le_of_wordOrder

/-! ## Words that fit -/

theorem match?_eq_some (found : l.match? text = some word) : word ∈ l.words ∧ word <+: text := by
  rw [match?] at found
  have fits : word.isPrefixOf text := by simpa using List.find?_some found
  exact ⟨List.mem_of_find?_eq_some found, List.isPrefixOf_iff_prefix.1 fits⟩

/-- The text begins with the word. Empty words are not counted. -/
structure Fits (words : List (List Char)) (word text : List Char) : Prop where
  listed : word ∈ words
  proper : word ≠ []
  here : word <+: text

/-- No other word that fits is longer. -/
structure Longest (words : List (List Char)) (word text : List Char) : Prop extends
    Fits words word text where
  longest : ∀ other, Fits words other text → other <+: word

/-- No word fits at any place of a piece, after which the text goes on with `rest`. -/
def Clear (words : List (List Char)) (piece rest : List Char) : Prop :=
  ∀ left, left <:+ piece → left ≠ [] → ∀ word, ¬ Fits words word (left ++ rest)

theorem longest_of_match? (found : (ofList words).match? text = some word) :
    Longest words word text := by
  obtain ⟨mem, here⟩ := match?_eq_some found
  obtain ⟨listed, proper⟩ := mem_words_ofList.1 mem
  refine ⟨⟨listed, proper, here⟩, fun other fits => ?_⟩
  -- A word that is tried before the one that was found does not fit.
  obtain ⟨-, before, after, split, failed⟩ := List.find?_eq_some_iff_append.1 found
  have tried := mem_words_ofList.2 ⟨fits.listed, fits.proper⟩
  rw [split, List.mem_append, List.mem_cons] at tried
  rcases tried with earlier | rfl | later
  · have misfit := failed other earlier
    rw [List.isPrefixOf_iff_prefix.2 fits.here] at misfit
    cases misfit
  · exact List.prefix_refl _
  · have sorted := pairwise_words_ofList words
    rw [split, List.pairwise_append, List.pairwise_cons] at sorted
    exact List.prefix_of_prefix_length_le fits.here here (sorted.2.1.1 other later)

theorem not_fits_of_match? (none : (ofList words).match? text = none) (word : List Char) :
    ¬ Fits words word text := by
  intro fits
  have misfit := List.find?_eq_none.1 none word (mem_words_ofList.2 ⟨fits.listed, fits.proper⟩)
  exact misfit (List.isPrefixOf_iff_prefix.2 fits.here)

/-! ## Pieces -/

theorem flatMap_plainPiece (passed : List Char) :
    (plainPiece passed).flatMap Piece.text = passed.reverse := by
  unfold plainPiece
  cases passed <;> simp [Piece.text]

/-- What is left of a text behind a word that it begins with. -/
theorem drop_of_append {c : Char} {left rest : List Char} (proper : word ≠ [])
    (whole : word ++ left = c :: rest) : rest.drop (word.length - 1) = left := by
  obtain ⟨first, others, rfl⟩ := List.exists_cons_of_ne_nil proper
  rw [List.cons_append, List.cons.injEq] at whole
  obtain ⟨rfl, rfl⟩ := whole
  simp

theorem flatMap_segmentFrom (proper : [] ∉ l.words) (passed text : List Char) :
    (segmentFrom l passed text).flatMap Piece.text = passed.reverse ++ text := by
  -- What has been passed over and what is left make up the text at every position.
  fun_induction segmentFrom l passed text with
  | case1 passed => simp [flatMap_plainPiece]
  | case2 passed c rest word found ih =>
    obtain ⟨mem, left, whole⟩ := match?_eq_some found
    have after := drop_of_append (fun empty => proper (empty ▸ mem)) whole
    rw [List.flatMap_append, List.flatMap_cons, flatMap_plainPiece, ih, after, ← whole]
    simp [Piece.text]
  | case3 passed c rest _ ih => simp [ih]

theorem mem_words_of_mem_segmentFrom (mem : .composite word ∈ segmentFrom l passed text) :
    word ∈ l.words := by
  have plain (passed : List Char) : .composite word ∉ plainPiece passed := by
    unfold plainPiece
    split <;> simp
  fun_induction segmentFrom l passed text with
  | case1 passed => exact absurd mem (plain passed)
  | case2 passed c rest word' found ih =>
    rcases List.mem_append.1 mem with mem | mem
    · exact absurd mem (plain passed)
    · rcases List.mem_cons.1 mem with same | mem
      · rw [Piece.composite.inj same]
        exact (match?_eq_some found).1
      · exact ih mem
  | case3 passed c rest _ ih => exact ih mem

/-- The pieces are the text, cut by the longest word at each place where the search comes to one
that fits. -/
structure LeftmostLongest (words : List (List Char)) (text : List Char) (pieces : List Piece) :
    Prop where
  whole : pieces.flatMap Piece.text = text
  composite : ∀ word back, .composite word :: back <:+ pieces →
    Longest words word (word ++ back.flatMap Piece.text)
  plain : ∀ piece back, .plain piece :: back <:+ pieces →
    piece ≠ [] ∧ Clear words piece (back.flatMap Piece.text)
  apart : ∀ piece next back, ¬ .plain piece :: .plain next :: back <:+ pieces

end

namespace LeftmostLongest
variable {words : List (List Char)} {text word piece rest : List Char} {pieces : List Piece}

theorem nil : LeftmostLongest words [] [] where
  whole := rfl
  composite _ _ suffix := by simp at suffix
  plain _ _ suffix := by simp at suffix
  apart _ _ _ suffix := by simp at suffix

theorem cons_composite (longest : Longest words word (word ++ rest))
    (after : LeftmostLongest words rest pieces) :
    LeftmostLongest words (word ++ rest) (.composite word :: pieces) where
  whole := by rw [List.flatMap_cons, after.whole]; rfl
  composite word' back suffix := by
    rcases List.suffix_cons_iff.1 suffix with same | suffix
    · cases same
      rwa [after.whole]
    · exact after.composite word' back suffix
  plain piece back suffix := by
    rcases List.suffix_cons_iff.1 suffix with same | suffix
    · cases same
    · exact after.plain piece back suffix
  apart piece next back suffix := by
    rcases List.suffix_cons_iff.1 suffix with same | suffix
    · cases same
    · exact after.apart piece next back suffix

theorem cons_plain (proper : piece ≠ []) (clear : Clear words piece rest)
    (after : LeftmostLongest words rest pieces)
    (stopped : ∀ next back, pieces ≠ .plain next :: back) :
    LeftmostLongest words (piece ++ rest) (.plain piece :: pieces) where
  whole := by rw [List.flatMap_cons, after.whole]; rfl
  composite word back suffix := by
    rcases List.suffix_cons_iff.1 suffix with same | suffix
    · cases same
    · exact after.composite word back suffix
  plain piece' back suffix := by
    rcases List.suffix_cons_iff.1 suffix with same | suffix
    · cases same
      rw [after.whole]
      exact ⟨proper, clear⟩
    · exact after.plain piece' back suffix
  apart piece' next back suffix := by
    rcases List.suffix_cons_iff.1 suffix with same | suffix
    · cases same
      exact stopped next back rfl
    · exact after.apart piece' next back suffix

theorem tail {first : Piece} (h : LeftmostLongest words text (first :: pieces)) :
    LeftmostLongest words (pieces.flatMap Piece.text) pieces where
  whole := rfl
  composite word back suffix := h.composite word back (suffix.trans (List.suffix_cons _ _))
  plain piece back suffix := h.plain piece back (suffix.trans (List.suffix_cons _ _))
  apart piece next back suffix := h.apart piece next back (suffix.trans (List.suffix_cons _ _))

theorem proper {first : Piece} (h : LeftmostLongest words text (first :: pieces)) :
    first.text ≠ [] := by
  cases first with
  | composite word => exact (h.composite word pieces (List.suffix_refl _)).proper
  | plain piece => exact (h.plain piece pieces (List.suffix_refl _)).1

/-- A plain piece of one way to cut a text is not a part of that of another: where the shorter one
ends, a word fits. -/
theorem not_plain_longer {more : List Char} {others : List Piece}
    (h : LeftmostLongest words text (.plain piece :: pieces))
    (h' : LeftmostLongest words text (.plain (piece ++ more) :: others)) : more = [] := by
  refine Classical.byContradiction fun longer => ?_
  have same : pieces.flatMap Piece.text = more ++ others.flatMap Piece.text := by
    have whole := h.whole.trans h'.whole.symm
    simpa [Piece.text] using whole
  cases pieces with
  | nil => simp [longer] at same
  | cons next back =>
    cases next with
    | composite word =>
      have fits := (h.tail.composite word back (List.suffix_refl _)).toFits
      have clear := (h'.plain _ _ (List.suffix_refl _)).2 more (List.suffix_append _ _) longer word
      rw [← same] at clear
      exact clear fits
    | plain next => exact h.apart piece next back (List.suffix_refl _)

theorem not_composite_plain {others : List Piece}
    (h : LeftmostLongest words text (.composite word :: pieces)) :
    ¬ LeftmostLongest words text (.plain piece :: others) := by
  intro h'
  obtain ⟨proper, clear⟩ := h'.plain piece others (List.suffix_refl _)
  have fits := (h.composite word pieces (List.suffix_refl _)).toFits
  have same : word ++ pieces.flatMap Piece.text = piece ++ others.flatMap Piece.text :=
    h.whole.trans h'.whole.symm
  rw [same] at fits
  exact clear piece (List.suffix_refl _) proper word fits

theorem unique {pieces' : List Piece} (h : LeftmostLongest words text pieces)
    (h' : LeftmostLongest words text pieces') : pieces = pieces' := by
  induction pieces generalizing text pieces' with
  | nil =>
    cases pieces' with
    | nil => rfl
    | cons first others =>
      have whole := h.whole.trans h'.whole.symm
      simp [h'.proper] at whole
  | cons first others ih =>
    cases pieces' with
    | nil =>
      have whole := h.whole.trans h'.whole.symm
      simp [h.proper] at whole
    | cons first' others' =>
      have whole := h.whole.trans h'.whole.symm
      -- It is enough that the first pieces agree, since then so do the rests of the text.
      suffices same : first = first' by
        subst same
        rw [List.flatMap_cons, List.flatMap_cons, List.append_cancel_left_eq] at whole
        rw [ih h.tail (whole ▸ h'.tail)]
      cases first with
      | composite word =>
        cases first' with
        | composite word' =>
          have longest := h.composite word others (List.suffix_refl _)
          have longest' := h'.composite word' others' (List.suffix_refl _)
          have rest : word ++ others.flatMap Piece.text = word' ++ others'.flatMap Piece.text :=
            whole
          rw [rest] at longest
          have left := longest.longest word' longest'.toFits
          have right := longest'.longest word longest.toFits
          rw [right.eq_of_length_le left.length_le]
        | plain piece => exact absurd h' h.not_composite_plain
      | plain piece =>
        cases first' with
        | composite word => exact absurd h h'.not_composite_plain
        | plain piece' =>
          have rest : piece ++ others.flatMap Piece.text = piece' ++ others'.flatMap Piece.text :=
            whole
          rcases List.append_eq_append_iff.1 rest with ⟨more, rfl, -⟩ | ⟨more, rfl, -⟩
          · rw [h.not_plain_longer h', List.append_nil]
          · rw [h'.not_plain_longer h, List.append_nil]

end LeftmostLongest

section
variable {words : List (List Char)} {text passed : List Char}

theorem clear_nil {rest : List Char} : Clear words [] rest := fun _ suffix nonempty =>
  absurd (List.suffix_nil.1 suffix) nonempty

theorem Clear.step {c : Char} {rest : List Char} (clear : Clear words passed.reverse (c :: rest))
    (none : ∀ word, ¬ Fits words word (c :: rest)) : Clear words (c :: passed).reverse rest := by
  intro left suffix nonempty word
  rw [List.reverse_cons, List.suffix_concat_iff] at suffix
  obtain rfl | ⟨before, rfl, suffix⟩ := suffix
  · exact absurd rfl nonempty
  rw [List.append_assoc, List.singleton_append]
  by_cases first : before = []
  · rw [first]
    exact none word
  · exact clear before suffix first word

theorem leftmostLongest_plainPiece {rest : List Char} {pieces : List Piece}
    (clear : Clear words passed.reverse rest) (after : LeftmostLongest words rest pieces)
    (stopped : ∀ next back, pieces ≠ .plain next :: back) :
    LeftmostLongest words (passed.reverse ++ rest) (plainPiece passed ++ pieces) := by
  cases passed with
  | nil => exact after
  | cons c passed => exact after.cons_plain (by simp) clear stopped

/-- The search for words keeps that none fits where it has passed. -/
theorem leftmostLongest_segmentFrom (passed : List Char)
    (clear : Clear words passed.reverse text) :
    LeftmostLongest words (passed.reverse ++ text) (segmentFrom (ofList words) passed text) := by
  fun_induction segmentFrom (ofList words) passed text with
  | case1 passed =>
    rw [← List.append_nil (plainPiece passed)]
    exact leftmostLongest_plainPiece clear .nil (by simp)
  | case2 passed c rest word found ih =>
    have longest := longest_of_match? found
    obtain ⟨left, whole⟩ := longest.here
    rw [drop_of_append longest.proper whole] at ih ⊢
    rw [← whole] at clear longest ⊢
    have after := ih clear_nil
    exact leftmostLongest_plainPiece clear (after.cons_composite longest) (by simp)
  | case3 passed c rest none ih =>
    have after := ih (clear.step (not_fits_of_match? none))
    rwa [List.reverse_cons, List.append_assoc] at after

theorem leftmostLongest_segment (words : List (List Char)) (text : List Char) :
    LeftmostLongest words text ((ofList words).segment text) :=
  leftmostLongest_segmentFrom [] clear_nil

theorem LeftmostLongest.congr {words' : List (List Char)} {pieces : List Piece}
    (h : LeftmostLongest words text pieces) (same : ∀ word, word ∈ words' ↔ word ∈ words) :
    LeftmostLongest words' text pieces := by
  have fits {word text : List Char} : Fits words' word text ↔ Fits words word text :=
    ⟨fun f => ⟨(same word).1 f.listed, f.proper, f.here⟩,
      fun f => ⟨(same word).2 f.listed, f.proper, f.here⟩⟩
  refine ⟨h.whole, fun word back suffix => ?_, fun piece back suffix => ?_, h.apart⟩
  · have longest := h.composite word back suffix
    exact ⟨fits.2 longest.toFits, fun other f => longest.longest other (fits.1 f)⟩
  · obtain ⟨proper, clear⟩ := h.plain piece back suffix
    exact ⟨proper, fun left suffix nonempty word f =>
      clear left suffix nonempty word (fits.1 f)⟩

/-- What begins a list of characters ends, in bytes, between two characters of the text. -/
theorem isValid_rawEndPos_append (front back : List Char) :
    (String.ofList front).rawEndPos.IsValid (.ofList (front ++ back)) := by
  rw [String.ofList_append]
  exact String.Pos.Raw.isValid_rawEndPos.append_right _

theorem segment_leftmostLongest (words : List (List Char)) (text : List Char) :
    (∀ pieces, (ofList words).segment text = pieces ↔ LeftmostLongest words text pieces) ∧
      (∀ words', (∀ word, word ∈ words' ↔ word ∈ words) →
        (ofList words').segment text = (ofList words).segment text) ∧
      ∀ front piece back, (ofList words).segment text = front ++ piece :: back →
        ∀ before after, piece.text = before ++ after →
          (String.ofList (front.flatMap Piece.text ++ before)).rawEndPos.IsValid
            (.ofList text) := by
  have cut := leftmostLongest_segment words text
  refine ⟨fun pieces => ⟨fun same => same ▸ cut, cut.unique⟩, fun words' same => ?_, ?_⟩
  · exact (leftmostLongest_segment words' text).unique (cut.congr same)
  · intro front piece back split before after parts
    have whole : text = (front.flatMap Piece.text ++ before) ++
        (after ++ back.flatMap Piece.text) := by
      rw [← cut.whole, split]
      simp [parts]
    rw [whole]
    exact isValid_rawEndPos_append _ _

/-- The second word is taken although the first one fits too, and the third one, which would begin
within it, is not found. -/
example : (ofList (["\u0995\u09cd", "\u0995\u09cd\u09b7", "\u09b7\u09bf"].map String.toList)).segment
    "a\u0995\u09cd\u09b7\u09bfb".toList = [.plain "a".toList,
      .composite "\u0995\u09cd\u09b7".toList, .plain "\u09bfb".toList] := by
  cbv

end

end Lexicon

end FontSubset
