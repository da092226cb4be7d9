import FontSubset.Proofs.Shaping.Segmentation
import FontSubset.Proofs.Text.Utf8Order

/-!
# The order of words

* `wordOrder_strictTotal`: words have a strict total order, in which a word comes before each of its
  beginnings. What is left of some words when they are put into this order and repeated ones are
  taken out depends on nothing but which words there are.

Words of one length are compared by characters, which is the same as by their bytes in UTF-8.
-/

namespace FontSubset

/-! ## Lists in strict order -/

section
variable {α : Type} {order : α → α → Ordering} [Std.LawfulEqCmp order] {items items' : List α}

theorem lt_of_isLE_of_ne {a b : α} (le : (order a b).isLE) (differ : a ≠ b) : order a b = .lt := by
  cases result : order a b with
  | lt => rfl
  | eq => exact absurd (Std.LawfulEqCmp.eq_of_compare result) differ
  | gt => simp [result] at le

theorem nodup_of_pairwise_lt (ordered : items.Pairwise fun a b => order a b = .lt) :
    items.Nodup := by
  refine ordered.imp ?_
  intro a b less same
  have equal : order a b = .eq := same ▸ Std.ReflCmp.compare_self
  rw [equal] at less
  cases less

variable [Std.TransCmp order]

theorem pairwise_withoutRepeats [DecidableEq α]
    (sorted : items.Pairwise fun a b => (order a b).isLE) :
    (withoutRepeats items).Pairwise fun a b => order a b = .lt := by
  fun_induction withoutRepeats items with
  | case1 b rest ih => exact ih (List.pairwise_cons.1 sorted).2
  | case2 b c rest differ ih =>
    obtain ⟨least, sorted⟩ := List.pairwise_cons.1 sorted
    have less : order b c = .lt := lt_of_isLE_of_ne (least c List.mem_cons_self) differ
    refine List.pairwise_cons.2 ⟨fun later mem => ?_, ih sorted⟩
    rcases List.mem_cons.1 (mem_withoutRepeats.1 mem) with rfl | mem
    · exact less
    · exact Std.TransCmp.lt_of_lt_of_isLE less ((List.pairwise_cons.1 sorted).1 later mem)
  | case3 items short =>
    cases items with
    | nil => exact .nil
    | cons a rest =>
      cases rest with
      | nil => exact List.pairwise_singleton _ _
      | cons b rest => exact (short a b rest rfl).elim

/-- Two lists in strict order that have the same items are equal. -/
theorem eq_of_pairwise_lt (ordered : items.Pairwise fun a b => order a b = .lt)
    (ordered' : items'.Pairwise fun a b => order a b = .lt)
    (same : ∀ a, a ∈ items ↔ a ∈ items') : items = items' := by
  have perm : items.Perm items' := (List.perm_ext_iff_of_nodup (nodup_of_pairwise_lt ordered)
    (nodup_of_pairwise_lt ordered')).2 fun {a} => same a
  refine perm.eq_of_pairwise ?_ ordered ordered'
  exact fun a b _ _ less more => absurd more (Std.OrientedCmp.not_lt_of_lt less)

end

/-! ## Words in order -/

section
variable {front word : List Char} {words words' listed : List (List Char)}

instance : Std.LawfulEqCmp wordOrder where
  eq_of_compare equal := Std.LawfulEqCmp.eq_of_compare (Ordering.then_eq_eq.1 equal).2

theorem wordOrder_eq_compare_bytes (a b : List Char) :
    wordOrder a b = (compare b.length a.length).then
      (compare (a.flatMap String.utf8EncodeChar) (b.flatMap String.utf8EncodeChar)) := by
  rw [Utf8.compare_flatMap_utf8EncodeChar, wordOrder]

theorem wordOrder_trans {a b c : List Char} {result : Ordering} (left : wordOrder a b = result)
    (right : wordOrder b c = result) : wordOrder a c = result := by
  cases result with
  | lt => exact Std.TransCmp.lt_trans left right
  | eq => exact Std.TransCmp.eq_trans left right
  | gt => exact Std.TransCmp.gt_trans left right

theorem wordOrder_of_prefix (begins : front <+: word) (proper : front ≠ word) :
    wordOrder word front = .lt := by
  have shorter : front.length < word.length :=
    Nat.lt_of_le_of_ne begins.length_le fun same => proper (begins.eq_of_length same)
  rw [wordOrder, Nat.compare_eq_lt.2 shorter]
  rfl

/-- Some words in the order in which they are tried, each one once. -/
def inOrder (words : List (List Char)) : List (List Char) :=
  withoutRepeats (words.mergeSort fun a b => (wordOrder a b).isLE)

theorem mem_inOrder : word ∈ inOrder words ↔ word ∈ words := by
  rw [inOrder, mem_withoutRepeats, List.mem_mergeSort]

theorem pairwise_inOrder (words : List (List Char)) :
    (inOrder words).Pairwise fun a b => wordOrder a b = .lt :=
  pairwise_withoutRepeats (pairwise_mergeSort words)

theorem inOrder_eq_iff : inOrder words = listed ↔
    (listed.Pairwise fun a b => wordOrder a b = .lt) ∧ ∀ word, word ∈ listed ↔ word ∈ words := by
  constructor
  · rintro rfl
    exact ⟨pairwise_inOrder words, fun word => mem_inOrder⟩
  · rintro ⟨ordered, same⟩
    exact eq_of_pairwise_lt (pairwise_inOrder words) ordered fun word =>
      mem_inOrder.trans (same word).symm

theorem inOrder_eq_inOrder_iff :
    inOrder words = inOrder words' ↔ ∀ word, word ∈ words ↔ word ∈ words' := by
  rw [inOrder_eq_iff]
  constructor
  · exact fun same word => (same.2 word).symm.trans mem_inOrder
  · exact fun same => ⟨pairwise_inOrder words', fun word => mem_inOrder.trans (same word).symm⟩

theorem Lexicon.ofList_eq_ofList_iff : Lexicon.ofList words = Lexicon.ofList words' ↔
    ∀ word, word ≠ [] → (word ∈ words ↔ word ∈ words') := by
  rw [ofList, ofList, mk.injEq]
  refine inOrder_eq_inOrder_iff.trans (forall_congr' fun word => ?_)
  simp [and_congr_left_iff]

end

theorem wordOrder_strictTotal :
    (∀ a b, wordOrder a b = (compare b.length a.length).then
        (compare (a.flatMap String.utf8EncodeChar) (b.flatMap String.utf8EncodeChar))) ∧
      (∀ a b, wordOrder a b = .eq ↔ a = b) ∧
      (∀ a b, wordOrder b a = (wordOrder a b).swap) ∧
      (∀ a b c result, wordOrder a b = result → wordOrder b c = result →
        wordOrder a c = result) ∧
      (∀ front word, front <+: word → front ≠ word → wordOrder word front = .lt) ∧
      (∀ words listed, inOrder words = listed ↔
        (listed.Pairwise fun a b => wordOrder a b = .lt) ∧
          ∀ word, word ∈ listed ↔ word ∈ words) ∧
      (∀ words words', inOrder words = inOrder words' ↔
        ∀ word, word ∈ words ↔ word ∈ words') ∧
      ∀ words words', Lexicon.ofList words = Lexicon.ofList words' ↔
        ∀ word, word ≠ [] → (word ∈ words ↔ word ∈ words') :=
  ⟨wordOrder_eq_compare_bytes, fun _ _ => Std.LawfulEqCmp.compare_eq_iff_eq,
    fun _ _ => Std.OrientedCmp.eq_swap, fun _ _ _ _ => wordOrder_trans,
    fun _ _ => wordOrder_of_prefix, fun _ _ => inOrder_eq_iff, fun _ _ => inOrder_eq_inOrder_iff,
    fun _ _ => Lexicon.ofList_eq_ofList_iff⟩

/-- Characters of one to four bytes: the number of characters comes before the bytes. -/
theorem wordOrder_strictTotal_mixed :
    wordOrder ['ক', 'া'] ['ক'] = .lt ∧
      inOrder [['é'], ['a', 'b'], ['😀'], ['ক'], ['ক', 'া'], ['a', 'b'], ['ক']] =
        [['a', 'b'], ['ক', 'া'], ['é'], ['ক'], ['😀']] ∧
      inOrder [['ক', 'া'], ['😀'], ['ক'], ['é'], ['é'], ['a', 'b']] =
        inOrder [['é'], ['a', 'b'], ['😀'], ['ক'], ['ক', 'া'], ['a', 'b'], ['ক']] := by
  obtain ⟨-, -, -, -, begins, unique, same, -⟩ := wordOrder_strictTotal
  refine ⟨begins _ _ (by decide) (by decide), (unique _ _).2 ⟨by decide, ?_⟩, (same _ _).2 ?_⟩
  · intro word
    grind
  · intro word
    grind

end FontSubset
