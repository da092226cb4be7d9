import FontSubset.Outline.Closure
import FontSubset.Proofs.Result
import FontSubset.Sample.Outline
import Mathlib.Order.Bounds.Basic

/-!
# The glyph closure is a least closed set

* `glyphClosure_isLeast`: what the walk retains is the least set of glyphs that contains the seeds
  and the components of its composites. It does not depend on used glyphs past the last one, it
  grows with the used glyphs, and it is its own closure.
* `glyphClosure_of_between`: any glyphs between the used and the retained ones have the same
  closure.
* `glyphClosure_congr`: a closure depends on nothing but the glyphs in it.

The invariant of the walk is `Explored`: a marked glyph waits in the queue, or it has been read and
its components are marked.
-/

namespace FontSubset.Closure

/-! ## Marks -/

abbrev Marked (seen : Array Bool) (g : GlyphId) : Prop := seen[g.toNat]? = some true

@[simp] theorem size_discover (seen : Array Bool) (found children : List GlyphId) :
    (discover seen found children).1.size = seen.size := by
  fun_induction discover seen found children <;> simp_all

theorem discover_marks {seen : Array Bool} {found children : List GlyphId} {i : Nat} :
    (discover seen found children).1[i]? = some true ↔
      seen[i]? = some true ∨ i < seen.size ∧ ∃ g ∈ children, g.toNat = i := by
  fun_induction discover seen found children with
  | case1 => simp
  | case2 seen found g rest bound mark ih =>
    have here : seen[g.toNat]? = some true := by simp [bound, mark]
    rw [ih]
    grind
  | case3 seen found g rest bound free ih =>
    rw [ih, Array.getElem?_set, Array.size_set]
    grind
  | case4 seen found g rest outside ih =>
    rw [ih]
    grind

theorem mem_discover {seen : Array Bool} {found children : List GlyphId} {g : GlyphId} :
    g ∈ (discover seen found children).2 ↔
      g ∈ found ∨ g ∈ children ∧ seen[g.toNat]? = some false := by
  fun_induction discover seen found children with
  | case1 => simp
  | case2 seen found c rest bound mark ih =>
    have here : seen[c.toNat]? = some true := by simp [bound, mark]
    rw [ih]
    grind
  | case3 seen found c rest bound free ih =>
    have here : seen[c.toNat]? = some false := by simp [bound, free]
    rw [ih, Array.getElem?_set, List.mem_cons]
    by_cases same : c = g
    · subst same
      simp [here]
    · have apart : c.toNat ≠ g.toNat := fun eq => same (UInt16.toNat_inj.1 eq)
      simp only [List.mem_cons, apart, if_false, Ne.symm same, false_or]
  | case4 seen found c rest outside ih =>
    rw [ih]
    grind

theorem marked_of_discover {seen : Array Bool} {found children : List GlyphId} {g : GlyphId}
    (mark : Marked (discover seen found children).1 g) :
    Marked seen g ∨ g ∈ children ∧ g ∈ (discover seen found children).2 := by
  rcases discover_marks.1 mark with old | ⟨bound, c, mem, same⟩
  · exact .inl old
  · obtain rfl := UInt16.toNat_inj.1 same
    cases value : seen[c.toNat] with
    | true => exact .inl (by simp [Marked, bound, value])
    | false => exact .inr ⟨mem, mem_discover.2 (.inr ⟨mem, by simp [bound, value]⟩)⟩

/-- Marks stand for glyphs, of which there are no more than 65536. -/
def Proper (seen : Array Bool) : Prop :=
  ∀ i, seen[i]? = some true → i < UInt16.size

theorem Proper.discover {seen : Array Bool} (proper : Proper seen) (found children : List GlyphId) :
    Proper (discover seen found children).1 := by
  intro i mark
  rcases discover_marks.1 mark with old | ⟨-, g, -, rfl⟩
  · exact proper i old
  · exact g.toNat_lt

theorem mem_marked {seen : Array Bool} (proper : Proper seen) {g : GlyphId} :
    g ∈ marked seen ↔ Marked seen g := by
  simp only [marked, Std.TreeSet.mem_ofList, List.contains_iff_mem, List.mem_map, List.mem_filter,
    List.mem_range]
  constructor
  · rintro ⟨i, ⟨bound, mark⟩, rfl⟩
    have here : seen[i]? = some true := by simpa [bound] using mark
    rwa [Marked, UInt16.toNat_ofNat_of_lt' (proper i here)]
  · intro mark
    have bound := (Array.getElem?_eq_some_iff.1 mark).1
    exact ⟨g.toNat, ⟨bound, by simp [mark]⟩, UInt16.ofNat_toNat⟩

theorem eq_of_marks {a b : Array Bool} (size : a.size = b.size) (properA : Proper a)
    (properB : Proper b) (same : ∀ g, Marked a g ↔ Marked b g) : a = b := by
  have agree (i : Nat) : a[i]? = some true ↔ b[i]? = some true := by
    constructor
    · intro mark
      have := same (UInt16.ofNat i)
      rw [Marked, Marked, UInt16.toNat_ofNat_of_lt' (properA i mark)] at this
      exact this.1 mark
    · intro mark
      have := same (UInt16.ofNat i)
      rw [Marked, Marked, UInt16.toNat_ofNat_of_lt' (properB i mark)] at this
      exact this.2 mark
  apply Array.ext size
  intro i boundA boundB
  have := agree i
  simp only [boundA, boundB, getElem?_pos, Option.some.injEq] at this
  exact Bool.eq_iff_iff.2 this

/-! ## The walk -/

section
variable {data : Bytes} {outlines : Nat} {locations : Locations}

/-- What is known of the walk when `queue` is still to be read. -/
structure Explored (data : Bytes) (outlines : Nat) (locations : Locations) (seen : Array Bool)
    (queue : List GlyphId) (graph : ComponentGraph) : Prop where
  size : seen.size = locations.count
  proper : Proper seen
  queued : ∀ g ∈ queue, Marked seen g
  read : ∀ g, Marked seen g → g ∈ queue ∨ ∃ glyph,
    Glyph.read data outlines locations g = .ok glyph ∧
      (∀ c ∈ glyph.components, c.toNat < locations.count ∧ Marked seen c) ∧
      ∀ records, glyph = .composite records → graph[g]? = some glyph.components
  recorded : ∀ g children, graph[g]? = some children → Marked seen g ∧ ∃ records,
    Glyph.read data outlines locations g = .ok (.composite records) ∧
      children = Glyph.components (.composite records)

/-- The queue counts only as a set. -/
theorem Explored.reorder {seen : Array Bool} {queue queue' : List GlyphId} {graph : ComponentGraph}
    (inv : Explored data outlines locations seen queue graph) (same : ∀ g, g ∈ queue' ↔ g ∈ queue) :
    Explored data outlines locations seen queue' graph where
  size := inv.size
  proper := inv.proper
  queued g mem := inv.queued g ((same g).1 mem)
  read g mark := (inv.read g mark).imp_left (same g).2
  recorded := inv.recorded

theorem Explored.pop {seen : Array Bool} {queue : List GlyphId} {graph : ComponentGraph}
    {g : GlyphId} {glyph : Glyph} (inv : Explored data outlines locations seen (g :: queue) graph)
    (found : Glyph.read data outlines locations g = .ok glyph)
    (plain : ∀ records, glyph ≠ .composite records) :
    Explored data outlines locations seen queue graph where
  size := inv.size
  proper := inv.proper
  queued c mem := inv.queued c (List.mem_cons_of_mem g mem)
  read c mark := by
    rcases inv.read c mark with waiting | known
    · rcases List.mem_cons.1 waiting with rfl | waiting
      · have none : glyph.components = [] := by
          cases glyph with
          | composite records => exact absurd rfl (plain records)
          | _ => rfl
        exact .inr ⟨glyph, found, by simp [none], fun records eq => absurd eq (plain records)⟩
      · exact .inl waiting
    · exact .inr known
  recorded := inv.recorded

theorem Explored.expand {seen : Array Bool} {front back : List GlyphId} {graph : ComponentGraph}
    {g : GlyphId} {records : List Component}
    (inv : Explored data outlines locations seen (g :: front ++ back) graph)
    (found : Glyph.read data outlines locations g = .ok (.composite records))
    (inside : ∀ c ∈ Glyph.components (.composite records), c.toNat < locations.count) :
    Explored data outlines locations
      (discover seen back (Glyph.components (.composite records))).1
      (front ++ (discover seen back (Glyph.components (.composite records))).2)
      (graph.insert g (Glyph.components (.composite records))) where
  size := by rw [size_discover, inv.size]
  proper := inv.proper.discover back _
  queued c mem := by
    rcases List.mem_append.1 mem with mem | mem
    · exact discover_marks.2 (.inl (inv.queued c (by simp [mem])))
    · rcases mem_discover.1 mem with mem | ⟨mem, -⟩
      · exact discover_marks.2 (.inl (inv.queued c (by simp [mem])))
      · exact discover_marks.2 (.inr ⟨inv.size ▸ inside c mem, c, mem, rfl⟩)
  read c mark := by
    rcases marked_of_discover mark with old | ⟨-, waiting⟩
    · rcases inv.read c old with waiting | ⟨glyph, known, below, entry⟩
      · rcases List.mem_cons.1 waiting with rfl | waiting
        · refine .inr ⟨_, found, fun d mem => ⟨inside d mem, ?_⟩, fun _ _ => by simp⟩
          exact discover_marks.2 (.inr ⟨inv.size ▸ inside d mem, d, mem, rfl⟩)
        · refine .inl ?_
          rcases List.mem_append.1 waiting with waiting | waiting
          · exact List.mem_append_left _ waiting
          · exact List.mem_append_right _ (mem_discover.2 (.inl waiting))
      · refine .inr ⟨glyph, known, fun d mem => ⟨(below d mem).1, ?_⟩, fun others eq => ?_⟩
        · exact discover_marks.2 (.inl (below d mem).2)
        · rw [Std.TreeMap.getElem?_insert]
          split
          · rename_i same
            obtain rfl := Std.LawfulEqCmp.eq_of_compare same
            rw [known] at found
            cases found
            rfl
          · exact entry others eq
    · exact .inl (List.mem_append_right _ waiting)
  recorded c children entry := by
    rw [Std.TreeMap.getElem?_insert] at entry
    split at entry
    · rename_i same
      obtain rfl := Std.LawfulEqCmp.eq_of_compare same
      cases entry
      exact ⟨discover_marks.2 (.inl (inv.queued g (by simp))), records, found, rfl⟩
    · obtain ⟨mark, others⟩ := inv.recorded c children entry
      exact ⟨discover_marks.2 (.inl mark), others⟩

theorem find_eq_none_iff {children : List GlyphId} {count : Nat} :
    children.find? (fun c => count ≤ c.toNat) = none ↔ ∀ c ∈ children, c.toNat < count := by
  simp [List.find?_eq_none]

theorem walk_explored {seen seen' : Array Bool} {front back : List GlyphId}
    {graph graph' : ComponentGraph}
    (run : walk data outlines locations seen front back graph = .ok (seen', graph'))
    (inv : Explored data outlines locations seen (front ++ back) graph) :
    Explored data outlines locations seen' [] graph' := by
  fun_induction walk data outlines locations seen front back graph with
  | case1 => cases run; exact inv
  | case2 seen graph g rest ih => exact ih run (inv.reorder (by simp [or_comm]))
  | case3 => cases run
  | case4 => cases run
  | case5 seen back graph g front records found children inside marked queued step ih =>
    have next := inv.expand found (find_eq_none_iff.1 inside)
    rw [show Glyph.components (.composite records) = children from rfl, step] at next
    exact ih run next
  | case6 seen back graph g front glyph plain found ih =>
    exact ih run (inv.pop found plain)

/-- Marks are never taken back, and all new ones lie in any set that contains the old ones and the
components of its composites. -/
theorem walk_marks {seen seen' : Array Bool} {front back : List GlyphId}
    {graph graph' : ComponentGraph} {s : Set GlyphId}
    (run : walk data outlines locations seen front back graph = .ok (seen', graph'))
    (queued : ∀ g ∈ front ++ back, Marked seen g)
    (closed : ∀ g ∈ s, ∀ glyph, Glyph.read data outlines locations g = .ok glyph →
      ∀ c ∈ glyph.components, c ∈ s) (inside : ∀ g, Marked seen g → g ∈ s) :
    (∀ g, Marked seen g → Marked seen' g) ∧ ∀ g, Marked seen' g → g ∈ s := by
  fun_induction walk data outlines locations seen front back graph with
  | case1 => cases run; exact ⟨fun _ mark => mark, inside⟩
  | case2 seen graph g rest ih => exact ih run (by simpa [or_comm] using queued) inside
  | case3 => cases run
  | case4 => cases run
  | case5 seen back graph g front records found children _ marked queue step ih =>
    have eqMarks : marked = (discover seen back children).1 := by rw [step]
    have eqQueue : queue = (discover seen back children).2 := by rw [step]
    have kept : ∀ c, Marked seen c → Marked marked c := fun c mark =>
      eqMarks ▸ discover_marks.2 (.inl mark)
    have queued' : ∀ c ∈ front ++ queue, Marked marked c := by
      intro c mem
      rcases List.mem_append.1 mem with mem | mem
      · exact kept c (queued c (by simp [mem]))
      · rw [eqQueue] at mem
        rcases mem_discover.1 mem with mem | ⟨mem, free⟩
        · exact kept c (queued c (by simp [mem]))
        · rw [eqMarks]
          exact discover_marks.2 (.inr ⟨(Array.getElem?_eq_some_iff.1 free).1, c, mem, rfl⟩)
    have inside' : ∀ c, Marked marked c → c ∈ s := by
      intro c mark
      rcases marked_of_discover (eqMarks ▸ mark) with old | ⟨mem, -⟩
      · exact inside c old
      · exact closed g (inside g (queued g (by simp))) _ found c mem
    obtain ⟨keep, sound⟩ := ih run queued' inside'
    exact ⟨fun c mark => keep c (kept c mark), sound⟩
  | case6 seen back graph g front glyph plain found ih =>
    exact ih run (fun c mem => queued c (List.mem_cons_of_mem g mem)) inside

/-- The glyphs of the set can be read, and their components are glyphs of it. -/
def SelfContained (data : Bytes) (outlines : Nat) (locations : Locations)
    (s : Set GlyphId) : Prop :=
  ∀ g ∈ s, ∃ glyph, Glyph.read data outlines locations g = .ok glyph ∧
    ∀ c ∈ glyph.components, c.toNat < locations.count ∧ c ∈ s

theorem Explored.selfContained {seen : Array Bool} {graph : ComponentGraph}
    (done : Explored data outlines locations seen [] graph) :
    SelfContained data outlines locations {g | Marked seen g} := by
  intro g mark
  obtain ⟨glyph, known, below, -⟩ := (done.read g mark).resolve_left List.not_mem_nil
  exact ⟨glyph, known, below⟩

theorem queue_subset {seen : Array Bool} {front back children : List GlyphId} {g : GlyphId}
    {s : Set GlyphId} (inside : ∀ c ∈ g :: front ++ back, c ∈ s) (below : ∀ c ∈ children, c ∈ s) :
    ∀ c ∈ front ++ (discover seen back children).2, c ∈ s := by
  intro c mem
  rcases List.mem_append.1 mem with mem | mem
  · exact inside c (by simp [mem])
  · rcases mem_discover.1 mem with mem | ⟨mem, -⟩
    · exact inside c (by simp [mem])
    · exact below c mem

theorem walk_ok {seen : Array Bool} {front back : List GlyphId} {graph : ComponentGraph}
    {s : Set GlyphId} (contained : SelfContained data outlines locations s)
    (inside : ∀ g ∈ front ++ back, g ∈ s) :
    ∃ out, walk data outlines locations seen front back graph = .ok out := by
  fun_induction walk data outlines locations seen front back graph with
  | case1 => exact ⟨_, rfl⟩
  | case2 seen graph g rest ih => exact ih (by simpa [or_comm] using inside)
  | case3 seen back graph g front e failed =>
    obtain ⟨glyph, known, -⟩ := contained g (inside g (by simp))
    rw [failed] at known
    cases known
  | case4 seen back graph g front records found children c missing =>
    obtain ⟨glyph, known, below⟩ := contained g (inside g (by simp))
    rw [found] at known
    cases known
    have none : children.find? (fun c => locations.count ≤ c.toNat) = none :=
      find_eq_none_iff.2 fun c mem => (below c mem).1
    rw [none] at missing
    cases missing
  | case5 seen back graph g front records found children _ marked queue step ih =>
    obtain ⟨glyph, known, below⟩ := contained g (inside g (by simp))
    rw [found] at known
    cases known
    have eqQueue : queue = (discover seen back children).2 := by rw [step]
    rw [eqQueue] at ih ⊢
    exact ih (queue_subset inside fun c mem => (below c mem).2)
  | case6 seen back graph g front glyph plain found ih =>
    exact ih fun c mem => inside c (List.mem_cons_of_mem g mem)

section
variable {data' : Bytes} {outlines' : Nat} {locations' : Locations} {s : Set GlyphId}

/-- Two fonts in which the glyphs of a self-contained set are the same are walked alike. -/
theorem walk_congr {seen : Array Bool} {front back : List GlyphId} {graph : ComponentGraph}
    (contained : SelfContained data outlines locations s)
    (count : locations'.count = locations.count)
    (same : ∀ g ∈ s, Glyph.read data' outlines' locations' g = Glyph.read data outlines locations g)
    (inside : ∀ g ∈ front ++ back, g ∈ s) :
    walk data' outlines' locations' seen front back graph =
      walk data outlines locations seen front back graph := by
  fun_induction walk data outlines locations seen front back graph with
  | case1 => rw [walk]
  | case2 seen graph g rest ih =>
    rw [walk]
    exact ih (by simpa [or_comm] using inside)
  | case3 seen back graph g front e failed =>
    rw [walk, same g (inside g (by simp)), failed]
  | case4 seen back graph g front records found children c missing =>
    rw [walk, same g (inside g (by simp)), found]
    dsimp only
    rw [count, missing]
  | case5 seen back graph g front records found children none marked queue step ih =>
    obtain ⟨glyph, known, below⟩ := contained g (inside g (by simp))
    cases found.symm.trans known
    have eqQueue : queue = (discover seen back children).2 := by rw [step]
    have eqMarks : marked = (discover seen back children).1 := by rw [step]
    rw [walk, same g (inside g (by simp)), found]
    dsimp only
    rw [count, none]
    rw [eqQueue, eqMarks] at ih ⊢
    exact ih (queue_subset inside fun c mem => (below c mem).2)
  | case6 seen back graph g front glyph plain found ih =>
    rw [walk, same g (inside g (by simp)), found]
    cases glyph with
    | composite records => exact absurd rfl (plain records)
    | _ => exact ih fun c mem => inside c (List.mem_cons_of_mem g mem)

end

theorem Explored.getElem?_eq {seen : Array Bool} {graph graph' : ComponentGraph}
    (done : Explored data outlines locations seen [] graph)
    (done' : Explored data outlines locations seen [] graph') (g : GlyphId) :
    graph[g]? = graph'[g]? := by
  have transfer {a b : ComponentGraph} (doneA : Explored data outlines locations seen [] a)
      (doneB : Explored data outlines locations seen [] b) {children : List GlyphId}
      (entry : a[g]? = some children) : b[g]? = some children := by
    obtain ⟨mark, records, found, rfl⟩ := doneA.recorded g children entry
    obtain ⟨glyph, known, -, recorded⟩ := (doneB.read g mark).resolve_left List.not_mem_nil
    rw [found] at known
    cases known
    exact recorded records rfl
  exact Option.ext fun children => ⟨transfer done done', transfer done' done⟩

/-! ## The search for cycles -/

theorem search_congr {graph graph' : ComponentGraph} (same : ∀ g : GlyphId, graph[g]? = graph'[g]?)
    (marks : Array Mark) (path : List (GlyphId × List GlyphId)) :
    search graph marks path = search graph' marks path := by
  have default (g : GlyphId) : graph.getD g [] = graph'.getD g [] := by
    rw [Std.TreeMap.getD_eq_getD_getElem?, Std.TreeMap.getD_eq_getD_getElem?, same]
  fun_induction search graph marks path with
  | case1 => simp [search]
  | case2 marks g path ih => rw [ih, search]
  | case3 marks g c rest path bound active =>
    rw [search, dif_pos bound]
    split <;> simp_all
  | case4 marks g c rest path bound done ih =>
    rw [ih, search, dif_pos bound]
    split <;> simp_all
  | case5 marks g c rest path bound fresh ih =>
    rw [ih, search, dif_pos bound]
    split <;> simp_all
  | case6 marks g c rest path outside ih => rw [ih, search, dif_neg outside]

theorem checkAcyclic_congr {graph graph' : ComponentGraph}
    (same : ∀ g : GlyphId, graph[g]? = graph'[g]?) (count : Nat) :
    checkAcyclic count graph = checkAcyclic count graph' := by
  have keys : graph.keys = graph'.keys :=
    (Std.TreeMap.Equiv.of_forall_constGet?_eq same).keys_eq
  have step : searchFrom graph = searchFrom graph' := by
    funext marks root
    rw [searchFrom, searchFrom, Std.TreeMap.getD_eq_getD_getElem?,
      Std.TreeMap.getD_eq_getD_getElem?, same]
    simp only [search_congr same]
  rw [checkAcyclic, checkAcyclic, keys, step]

/-! ## The closure -/

/-- The marks and the queue that the walk begins with. -/
def seeded (locations : Locations) (used : GlyphSet) : Array Bool × List GlyphId :=
  discover (Array.replicate locations.count false) [] (0 :: used.toList)

theorem marked_seeded {used : GlyphSet} {g : GlyphId} :
    Marked (seeded locations used).1 g ↔ g.toNat < locations.count ∧ (g = 0 ∨ g ∈ used) := by
  rw [Marked, seeded, discover_marks]
  simp [Array.getElem?_replicate, UInt16.toNat_inj]

theorem seeded_explored (used : GlyphSet) :
    Explored data outlines locations (seeded locations used).1
      ((seeded locations used).2.reverse ++ []) ∅ where
  size := by simp [seeded]
  proper := by
    refine Proper.discover (fun i mark => ?_) _ _
    rw [Array.getElem?_replicate] at mark
    split at mark <;> cases mark
  queued g mem := by
    rw [List.append_nil, List.mem_reverse] at mem
    obtain ⟨mem, free⟩ := (mem_discover.1 mem).resolve_left List.not_mem_nil
    exact discover_marks.2 (.inr ⟨(Array.getElem?_eq_some_iff.1 free).1, g, mem, rfl⟩)
  read g mark := by
    rcases marked_of_discover mark with old | ⟨-, waiting⟩
    · rw [Marked, Array.getElem?_replicate] at old
      split at old <;> cases old
    · exact .inl (by simpa [seeded] using waiting)
  recorded g children entry := by simp at entry

theorem glyphClosure_eq_ok {used retained : GlyphSet} :
    (glyphClosure data outlines locations used).result = .ok retained ↔
      ∃ seen graph, walk data outlines locations (seeded locations used).1
          (seeded locations used).2.reverse [] ∅ = .ok (seen, graph) ∧
        checkAcyclic locations.count graph = .ok () ∧ marked seen = retained := by
  simp only [glyphClosure, Traced.result_bind, Traced.result_reportAll, Traced.result_lift,
    Traced.result_report, Traced.result_pure, ok_bind, bind_eq_ok, Except.ok.injEq]
  constructor
  · rintro ⟨⟨seen, graph⟩, run, ⟨⟩, acyclic, rfl⟩
    exact ⟨seen, graph, run, acyclic, rfl⟩
  · rintro ⟨seen, graph, run, acyclic, rfl⟩
    exact ⟨⟨seen, graph⟩, run, (), acyclic, rfl⟩

/-- The set holds the seeds among the glyphs of the font, and the components of its composites. -/
structure Closed (data : Bytes) (outlines : Nat) (locations : Locations) (used : GlyphSet)
    (s : Set GlyphId) : Prop where
  seeds : ∀ g : GlyphId, g.toNat < locations.count → g = 0 ∨ g ∈ used → g ∈ s
  components : ∀ g ∈ s, ∀ glyph, Glyph.read data outlines locations g = .ok glyph →
    ∀ c ∈ glyph.components, c ∈ s

theorem closed_of_walk {used : GlyphSet} {seen : Array Bool} {graph : ComponentGraph}
    (done : Explored data outlines locations seen [] graph)
    (seeds : ∀ g, Marked (seeded locations used).1 g → Marked seen g) :
    Closed data outlines locations used {g | Marked seen g} where
  seeds g bound seed := seeds g (marked_seeded.2 ⟨bound, seed⟩)
  components g mark glyph found c mem := by
    obtain ⟨glyph', known, below⟩ := done.selfContained g mark
    rw [found] at known
    cases known
    exact (below c mem).2

theorem walk_least {used : GlyphSet} {seen : Array Bool} {graph : ComponentGraph}
    (run : walk data outlines locations (seeded locations used).1
      (seeded locations used).2.reverse [] ∅ = .ok (seen, graph)) :
    IsLeast {s | Closed data outlines locations used s} {g | Marked seen g} := by
  have start := @seeded_explored data outlines locations used
  have keep := (walk_marks (s := .univ) run start.queued (by simp) (by simp)).1
  refine ⟨closed_of_walk (walk_explored run start) keep, fun s closed g mark => ?_⟩
  refine (walk_marks run start.queued closed.components fun c seed => ?_).2 g mark
  exact closed.seeds c (marked_seeded.1 seed).1 (marked_seeded.1 seed).2

end

end FontSubset.Closure

namespace FontSubset
open Closure

variable {data : Bytes} {outlines : Nat} {locations : Locations}

/-- Any glyphs between the used and the retained ones have the same closure. -/
theorem glyphClosure_of_between {used used' retained : GlyphSet}
    (run : (glyphClosure data outlines locations used).result = .ok retained)
    (above : ∀ g : GlyphId, g.toNat < locations.count → g ∈ used → g ∈ used')
    (below : ∀ g : GlyphId, g.toNat < locations.count → g ∈ used' → g ∈ retained) :
    (glyphClosure data outlines locations used').result = .ok retained := by
  obtain ⟨seen, graph, walked, acyclic, rfl⟩ := glyphClosure_eq_ok.1 run
  have done := walk_explored walked (seeded_explored used)
  have start' := @seeded_explored data outlines locations used'
  have least := walk_least walked
  have inside : ∀ g, Marked (seeded locations used').1 g → Marked seen g := by
    intro g seed
    obtain ⟨bound, rfl | mem⟩ := marked_seeded.1 seed
    · exact least.1.seeds 0 bound (.inl rfl)
    · exact (mem_marked done.proper).1 (below g bound mem)
  obtain ⟨⟨seen', graph'⟩, walked'⟩ : ∃ out, walk data outlines locations
      (seeded locations used').1 (seeded locations used').2.reverse [] ∅ = .ok out :=
    walk_ok done.selfContained fun g mem => inside g (start'.queued g mem)
  have done' := walk_explored walked' start'
  have least' := walk_least walked'
  have same : seen' = seen := by
    refine eq_of_marks (done'.size.trans done.size.symm) done'.proper done.proper fun g => ⟨?_, ?_⟩
    · intro mark
      refine least'.2 ⟨fun c bound seed => ?_, least.1.components⟩ mark
      exact inside c (marked_seeded.2 ⟨bound, seed⟩)
    · intro mark
      refine least.2 ⟨fun c bound seed => ?_, least'.1.components⟩ mark
      exact least'.1.seeds c bound (seed.imp_right (above c bound))
  subst same
  refine glyphClosure_eq_ok.2 ⟨seen', graph', walked', ?_, rfl⟩
  rw [checkAcyclic_congr (done'.getElem?_eq done), acyclic]

theorem glyphClosure_closed {used retained : GlyphSet}
    (run : (glyphClosure data outlines locations used).result = .ok retained) :
    IsLeast {s | Closed data outlines locations used s} {g | g ∈ retained} := by
  obtain ⟨seen, graph, walked, -, rfl⟩ := glyphClosure_eq_ok.1 run
  have done := walk_explored walked (seeded_explored used)
  simpa only [mem_marked done.proper] using walk_least walked

theorem lt_count_of_mem_closure {used retained : GlyphSet} {g : GlyphId}
    (run : (glyphClosure data outlines locations used).result = .ok retained)
    (mem : g ∈ retained) : g.toNat < locations.count := by
  obtain ⟨seen, graph, walked, -, rfl⟩ := glyphClosure_eq_ok.1 run
  have done := walk_explored walked (seeded_explored used)
  have mark := (mem_marked done.proper).1 mem
  rw [← done.size]
  exact (Array.getElem?_eq_some_iff.1 mark).1

theorem read_of_mem_closure {used retained : GlyphSet} {g : GlyphId}
    (run : (glyphClosure data outlines locations used).result = .ok retained)
    (mem : g ∈ retained) : ∃ glyph, Glyph.read data outlines locations g = .ok glyph := by
  obtain ⟨seen, graph, walked, -, rfl⟩ := glyphClosure_eq_ok.1 run
  have done := walk_explored walked (seeded_explored used)
  obtain ⟨glyph, known, -⟩ := done.selfContained g ((mem_marked done.proper).1 mem)
  exact ⟨glyph, known⟩

/-- A closure is found again in any font in which its glyphs are the same. -/
theorem glyphClosure_congr {data' : Bytes} {outlines' : Nat} {locations' : Locations}
    {used retained : GlyphSet}
    (run : (glyphClosure data outlines locations used).result = .ok retained)
    (count : locations'.count = locations.count)
    (same : ∀ g ∈ retained, Glyph.read data' outlines' locations' g =
      Glyph.read data outlines locations g) :
    (glyphClosure data' outlines' locations' used).result = .ok retained := by
  obtain ⟨seen, graph, walked, acyclic, rfl⟩ := glyphClosure_eq_ok.1 run
  have start := @seeded_explored data outlines locations used
  have done := walk_explored walked start
  have keep := (walk_marks (s := .univ) walked start.queued (by simp) (by simp)).1
  have seeds : seeded locations' used = seeded locations used := by rw [seeded, seeded, count]
  refine glyphClosure_eq_ok.2 ⟨seen, graph, ?_, by rw [count, acyclic], rfl⟩
  rw [seeds, ← walked]
  refine walk_congr done.selfContained count (fun g mark => ?_) fun g mem => ?_
  · exact same g ((mem_marked done.proper).2 mark)
  · exact keep g (start.queued g mem)

/-- The closure is the least closed set, and its glyphs can be read. It is empty if the font has no
glyph, does not depend on used glyphs past the last one, grows with the used glyphs, and is its own
closure. -/
theorem glyphClosure_isLeast {used retained : GlyphSet}
    (run : (glyphClosure data outlines locations used).result = .ok retained) :
    IsLeast {s | Closed data outlines locations used s} {g | g ∈ retained} ∧
      (∀ g ∈ retained, ∃ glyph, Glyph.read data outlines locations g = .ok glyph) ∧
      (locations.count = 0 → ∀ g, g ∉ retained) ∧
      (∀ used' : GlyphSet, (∀ g : GlyphId, g.toNat < locations.count → (g ∈ used' ↔ g ∈ used)) →
        (glyphClosure data outlines locations used').result = .ok retained) ∧
      (∀ used' retained' : GlyphSet,
        (glyphClosure data outlines locations used').result = .ok retained' →
        (∀ g ∈ used, g ∈ used') → ∀ g ∈ retained, g ∈ retained') ∧
      (glyphClosure data outlines locations retained).result = .ok retained := by
  have least := glyphClosure_closed run
  refine ⟨least, fun g => read_of_mem_closure run, ?empty, ?past, ?monotone, ?idempotent⟩
  case empty =>
    intro none g mem
    have := lt_count_of_mem_closure run mem
    omega
  case past =>
    intro used' same
    refine glyphClosure_of_between run (fun g bound => (same g bound).2) fun g bound mem => ?_
    exact least.1.seeds g bound (.inr ((same g bound).1 mem))
  case monotone =>
    intro used' retained' run' sub g mem
    have least' := glyphClosure_closed run'
    refine least.2 ⟨fun c bound seed => ?_, least'.1.components⟩ mem
    exact least'.1.seeds c bound (seed.imp_right (sub c))
  case idempotent =>
    refine glyphClosure_of_between run (fun g bound mem => ?_) fun _ _ mem => mem
    exact least.1.seeds g bound (.inr mem)

theorem glyphClosure_nested_isLeast : ∃ used retained : GlyphSet,
    (glyphClosure Sample.nestedOutlines 0 Sample.nestedLocations used).result = .ok retained ∧
      2 ∉ retained ∧ IsLeast
        {s | Closed Sample.nestedOutlines 0 Sample.nestedLocations used s} {g | g ∈ retained} := by
  have run : (glyphClosure Sample.nestedOutlines 0 Sample.nestedLocations
      (.ofList [(3 : GlyphId), 9])).result = .ok (.ofList [(0 : GlyphId), 1, 3]) := by cbv
  exact ⟨_, _, run, by decide, (glyphClosure_isLeast run).1⟩

end FontSubset
