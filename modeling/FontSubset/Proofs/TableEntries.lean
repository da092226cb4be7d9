import Std.Data.TreeMap

/-!
# Tables that are filled item by item

Under each key a table holds the first item that has this key if it is filled with `insertIfNew`,
and the last one if it is filled with `insert`. The first item of a list in order is the least one
(`rel_of_find?`).
-/

namespace FontSubset

theorem rel_of_find? {α : Type} {R : α → α → Prop} {p : α → Bool} {items : List α} {a b : α}
    (ordered : items.Pairwise R) (found : items.find? p = some a) (mem : b ∈ items) (holds : p b) :
    b = a ∨ R a b := by
  obtain ⟨-, before, behind, rfl, passed⟩ := List.find?_eq_some_iff_append.1 found
  rcases List.mem_append.1 mem with earlier | later
  · simpa [holds] using passed b earlier
  · rcases List.mem_cons.1 later with same | later
    · exact .inl same
    · exact .inr ((List.pairwise_cons.1 (List.pairwise_append.1 ordered).2.1).1 b later)

/-- The entries of a table by codes are listed in the order of the codes. -/
theorem pairwise_toList {β : Type} (table : Std.TreeMap UInt32 β) :
    table.toList.Pairwise fun a b => a.1 < b.1 := by
  refine Std.TreeMap.ordered_keys_toList.imp ?_
  intro a b less
  exact compareOfLessAndEq_eq_lt.1 less

theorem values_eq {κ β : Type} [Ord κ] (table : Std.TreeMap κ β) :
    table.values = table.toList.map Prod.snd := by
  have fold : table.values = table.foldr (fun _ entry found => entry :: found) [] := rfl
  rw [fold, Std.TreeMap.foldr_eq_foldr_toList]
  induction table.toList with
  | nil => rfl
  | cons entry rest ih => rw [List.foldr_cons, ih, List.map_cons]

section
variable {α κ β : Type} [Ord κ] [Std.TransOrd κ] [Std.LawfulEqOrd κ] [DecidableEq κ]

theorem getElem?_insertIfNew (table : Std.TreeMap κ β) (here k : κ) (entry : β) :
    (table.insertIfNew here entry)[k]? =
      table[k]?.or (if here = k then some entry else none) := by
  rw [Std.TreeMap.getElem?_insertIfNew]
  by_cases same : here = k
  · subst same
    cases found : table[here]? <;> simp [found, Std.TreeMap.mem_iff_isSome_getElem?]
  · simp [same]

theorem getElem?_foldl_insertIfNew (key : α → κ) (entry : α → β) (items : List α)
    (table : Std.TreeMap κ β) (k : κ) :
    (items.foldl (fun table a => table.insertIfNew (key a) (entry a)) table)[k]? =
      table[k]?.or ((items.find? fun a => key a = k).map entry) := by
  induction items generalizing table with
  | nil => simp
  | cons a rest ih =>
    rw [List.foldl_cons, ih, getElem?_insertIfNew, List.find?_cons, Option.or_assoc]
    by_cases same : key a = k <;> simp [same]

theorem getElem?_foldl_insert (key : α → κ) (entry : α → β) (items : List α)
    (table : Std.TreeMap κ β) (k : κ) :
    (items.foldl (fun table a => table.insert (key a) (entry a)) table)[k]? =
      ((items.reverse.find? fun a => key a = k).map entry).or table[k]? := by
  induction items generalizing table with
  | nil => rfl
  | cons a rest ih =>
    rw [List.foldl_cons, ih, List.reverse_cons, List.find?_append, Option.map_or, Option.or_assoc,
      Std.TreeMap.getElem?_insert]
    by_cases same : key a = k <;> simp [same]

end

end FontSubset
