import FontSubset.Proofs.Outline.Closure
import Mathlib.Logic.Relation

/-!
# Composites that contain themselves

* `glyphClosure_error_iff_cyclic`: as long as every glyph that is needed can be read, the closure
  fails exactly if one of them is reached from itself, and then it names such a glyph.
* `glyphClosure_ok_of_subset`: used glyphs among those of a closure have a closure themselves.

The invariant of the search is `Searching`: the active glyphs are those of the path, each of which
leads to the ones above it, and the components of a finished glyph are finished.
-/

namespace FontSubset.Closure
open Relation

abbrev Has (marks : Array Mark) (g : GlyphId) (mark : Mark) : Prop := marks[g.toNat]? = some mark

theorem has_iff_getElem {marks : Array Mark} {g : GlyphId} {mark : Mark}
    (bound : g.toNat < marks.size) : Has marks g mark ↔ marks[g.toNat] = mark := by
  simp [Has, bound]

/-- The search has come past the glyph. -/
abbrev Visited (marks : Array Mark) (g : GlyphId) : Prop := Has marks g .active ∨ Has marks g .done

theorem has_set {marks : Array Mark} {g c : GlyphId} {mark mark' : Mark}
    (bound : g.toNat < marks.size) : Has (marks.set g.toNat mark' bound) c mark ↔
      if c = g then mark' = mark else Has marks c mark := by
  rw [Has, Array.getElem?_set]
  by_cases same : c = g
  · simp [same]
  · have apart : g.toNat ≠ c.toNat := fun eq => same (UInt16.toNat_inj.1 eq.symm)
    simp [same, apart]

theorem Visited.set {marks : Array Mark} {g c : GlyphId} {mark : Mark} (h : Visited marks c)
    (bound : g.toNat < marks.size) (visited : mark = .active ∨ mark = .done) :
    Visited (marks.set g.toNat mark bound) c := by
  rw [Visited, has_set, has_set]
  split
  · exact visited
  · exact h

def Edge (graph : ComponentGraph) (g c : GlyphId) : Prop := c ∈ graph.getD g []

theorem edge_iff {graph : ComponentGraph} {g c : GlyphId} :
    Edge graph g c ↔ ∃ children, graph[g]? = some children ∧ c ∈ children := by
  rw [Edge, Std.TreeMap.getD_eq_getD_getElem?]
  cases graph[g]? <;> simp

section
variable {graph : ComponentGraph} {count : Nat} {marks marks' : Array Mark}
  {path : List (GlyphId × List GlyphId)} {above : List GlyphId} {g c : GlyphId}
  {rest : List GlyphId}

/-! ## Glyphs on the path -/

/-- The components of the glyphs on the path wait to be followed, or are done, or are on the path
further up. -/
def Followed (graph : ComponentGraph) (marks : Array Mark) :
    List GlyphId → List (GlyphId × List GlyphId) → Prop
  | _, [] => True
  | above, (g, rest) :: below =>
    (∀ c, Edge graph g c → c ∈ rest ∨ Has marks c .done ∨ c ∈ above) ∧
      Followed graph marks (g :: above) below

theorem Followed.mono {above' : List GlyphId} (h : Followed graph marks above path)
    (finished : ∀ c, Has marks c .done → Has marks' c .done)
    (higher : ∀ c ∈ above, c ∈ above' ∨ Has marks' c .done) :
    Followed graph marks' above' path := by
  induction path generalizing above above' with
  | nil => trivial
  | cons entry below ih =>
    obtain ⟨here, lower⟩ := h
    constructor
    · intro c edge
      rcases here c edge with waiting | done | up
      · exact .inl waiting
      · exact .inr (.inl (finished c done))
      · exact .inr (higher c up).symm
    · refine ih lower fun c mem => ?_
      rcases List.mem_cons.1 mem with rfl | up
      · exact .inl List.mem_cons_self
      · exact (higher c up).imp_left (List.mem_cons_of_mem _)

/-- What is known of the search when the glyphs of `next` are about to be visited. -/
structure Searching (graph : ComponentGraph) (count : Nat) (marks : Array Mark)
    (next : List GlyphId) (path : List (GlyphId × List GlyphId)) : Prop where
  size : marks.size = count
  active : ∀ g, Has marks g .active ↔ g ∈ path.map Prod.fst
  nodup : (path.map Prod.fst).Nodup
  reached : path.Pairwise fun upper lower => TransGen (Edge graph) lower.1 upper.1
  waiting : ∀ entry ∈ path, ∀ c ∈ entry.2, Edge graph entry.1 c
  leads : ∀ c ∈ next, ∀ entry ∈ path, TransGen (Edge graph) entry.1 c
  followed : Followed graph marks next path
  closed : ∀ g c, Has marks g .done → Edge graph g c → Has marks c .done
  acyclic : ∀ g, Has marks g .done → ¬ TransGen (Edge graph) g g

theorem Searching.start (graph : ComponentGraph) (count : Nat) :
    Searching graph count (Array.replicate count .unvisited) [] [] := by
  have fresh (g : GlyphId) (mark : Mark) (has : Has (Array.replicate count .unvisited) g mark) :
      mark = .unvisited := by
    rw [Has, Array.getElem?_replicate] at has
    split at has <;> cases has
    rfl
  refine ⟨by simp, fun g => ⟨fun has => ?_, nofun⟩, .nil, .nil, nofun, nofun, trivial,
    fun g c has => ?_, fun g has => ?_⟩
  all_goals cases fresh g _ has

theorem Searching.root (inv : Searching graph count marks [] []) (g : GlyphId) :
    Searching graph count marks [g] [] :=
  { inv with leads := nofun, followed := trivial }

/-- The glyph on top of the path turns to its next component. -/
theorem Searching.follow (inv : Searching graph count marks [] ((g, c :: rest) :: path)) :
    Searching graph count marks [c] ((g, rest) :: path) where
  size := inv.size
  active := inv.active
  nodup := inv.nodup
  reached := by simpa using inv.reached
  waiting := by
    intro entry mem d waiting
    rcases List.mem_cons.1 mem with rfl | mem
    · exact inv.waiting _ List.mem_cons_self d (List.mem_cons_of_mem c waiting)
    · exact inv.waiting entry (List.mem_cons_of_mem _ mem) d waiting
  leads := by
    intro d mem entry lower
    obtain rfl := List.mem_singleton.1 mem
    have edge := inv.waiting _ List.mem_cons_self d List.mem_cons_self
    rcases List.mem_cons.1 lower with rfl | lower
    · exact .single edge
    · exact ((List.pairwise_cons.1 inv.reached).1 entry lower).tail edge
  followed := by
    constructor
    · intro d edge
      rcases inv.followed.1 d edge with waiting | done | up
      · rcases List.mem_cons.1 waiting with rfl | waiting
        · exact .inr (.inr List.mem_cons_self)
        · exact .inl waiting
      · exact .inr (.inl done)
      · cases up
    · refine inv.followed.2.mono (fun _ has => has) fun d mem => .inl ?_
      rw [List.mem_singleton.1 mem]
      exact List.mem_cons_self
  closed := inv.closed
  acyclic := inv.acyclic

theorem Searching.skip (inv : Searching graph count marks [c] path) (done : Has marks c .done) :
    Searching graph count marks [] path where
  size := inv.size
  active := inv.active
  nodup := inv.nodup
  reached := inv.reached
  waiting := inv.waiting
  leads := nofun
  followed := inv.followed.mono (fun _ has => has) fun _ mem =>
    .inr (List.mem_singleton.1 mem ▸ done)
  closed := inv.closed
  acyclic := inv.acyclic

theorem Searching.enter (inv : Searching graph count marks [c] path)
    (fresh : Has marks c .unvisited) (bound : c.toNat < marks.size) :
    Searching graph count (marks.set c.toNat .active bound) [] ((c, graph.getD c []) :: path) := by
  have done (d : GlyphId) :
      Has (marks.set c.toNat .active bound) d .done ↔ Has marks d .done := by
    rw [has_set]
    split
    · rename_i same
      rw [same, Has, fresh]
      simp
    · rfl
  have new : c ∉ path.map Prod.fst := by
    intro mem
    cases fresh.symm.trans ((inv.active c).2 mem)
  exact {
    size := by simpa using inv.size
    active := by
      intro d
      rw [has_set, List.map_cons, List.mem_cons]
      split
      · rename_i same
        simp [same]
      · rename_i apart
        rw [inv.active d, or_iff_right apart]
    nodup := List.nodup_cons.2 ⟨new, inv.nodup⟩
    reached := List.pairwise_cons.2 ⟨inv.leads c List.mem_cons_self, inv.reached⟩
    waiting := by
      intro entry mem d waiting
      rcases List.mem_cons.1 mem with rfl | mem
      · exact waiting
      · exact inv.waiting entry mem d waiting
    leads := nofun
    followed := ⟨fun d edge => .inl edge, inv.followed.mono (fun d => (done d).2) fun _ => .inl⟩
    closed := by
      intro d e has edge
      rw [done] at has ⊢
      exact inv.closed d e has edge
    acyclic := fun d has => inv.acyclic d ((done d).1 has) }

theorem Searching.done_of_reached {next : List GlyphId}
    (inv : Searching graph count marks next path) (done : Has marks g .done)
    (reached : ReflTransGen (Edge graph) g c) : Has marks c .done := by
  induction reached with
  | refl => exact done
  | tail _ edge ih => exact inv.closed _ _ ih edge

/-- A glyph whose components are all done is done, too. It is not reached from them, since it was
active so far. -/
theorem Searching.leave (inv : Searching graph count marks [] ((g, []) :: path)) :
    Searching graph count (marks.setIfInBounds g.toNat .done) [] path := by
  have active : Has marks g .active := (inv.active g).2 List.mem_cons_self
  have bound := (Array.getElem?_eq_some_iff.1 active).1
  obtain ⟨fresh, nodup⟩ := List.nodup_cons.1 inv.nodup
  have children (c : GlyphId) (edge : Edge graph g c) : Has marks c .done := by
    simpa using inv.followed.1 c edge
  have done (c : GlyphId) :
      Has (marks.set g.toNat .done bound) c .done ↔ c = g ∨ Has marks c .done := by
    rw [has_set]
    split <;> simp [*]
  rw [Array.setIfInBounds, dif_pos bound]
  exact {
    size := by simpa using inv.size
    active := by
      intro c
      rw [has_set]
      split
      · rename_i same
        subst same
        simpa using fresh
      · rename_i apart
        rw [inv.active c, List.map_cons, List.mem_cons, or_iff_right apart]
    nodup := nodup
    reached := (List.pairwise_cons.1 inv.reached).2
    waiting := fun entry mem => inv.waiting entry (List.mem_cons_of_mem _ mem)
    leads := nofun
    followed := by
      refine inv.followed.2.mono (fun c has => (done c).2 (.inr has)) fun c mem => .inr ?_
      exact (done c).2 (.inl (List.mem_singleton.1 mem))
    closed := by
      intro c d has edge
      refine (done d).2 (.inr ?_)
      rcases (done c).1 has with rfl | has
      · exact children d edge
      · exact inv.closed c d has edge
    acyclic := by
      intro c has cycle
      rcases (done c).1 has with rfl | has
      · obtain ⟨d, edge, back⟩ := TransGen.head'_iff.1 cycle
        cases active.symm.trans (inv.done_of_reached (children d edge) back)
      · exact inv.acyclic c has cycle }

/-- An active glyph lies on the path, and so leads to the glyph on top of it. -/
theorem Searching.leads_back (inv : Searching graph count marks [] ((g, c :: rest) :: path))
    (active : Has marks c .active) : ReflTransGen (Edge graph) c g := by
  have mem := (inv.active c).1 active
  rw [List.map_cons, List.mem_cons] at mem
  rcases mem with rfl | mem
  · exact .refl
  · obtain ⟨entry, lower, rfl⟩ := List.mem_map.1 mem
    exact ((List.pairwise_cons.1 inv.reached).1 entry lower).to_reflTransGen

/-! ## The search -/

/-- Both ends of every edge are glyphs of the font. -/
def Bounded (graph : ComponentGraph) (count : Nat) : Prop :=
  ∀ g c, Edge graph g c → g.toNat < count ∧ c.toNat < count

/-- What a search leaves behind: whatever was on the path is done. -/
structure Finished (graph : ComponentGraph) (count : Nat) (marks marks' : Array Mark) : Prop where
  searching : Searching graph count marks' [] []
  done : ∀ g, Visited marks g → Has marks' g .done

theorem Searching.not_active (inv : Searching graph count marks [] []) :
    ¬ Has marks g .active := by
  intro active
  cases (inv.active g).1 active

theorem Searching.finished (inv : Searching graph count marks [] []) :
    Finished graph count marks marks :=
  ⟨inv, fun _ visited => visited.resolve_left inv.not_active⟩

/-- The fault names a component that leads back to the glyph it is a component of. -/
def NamesCycle (graph : ComponentGraph) (e : FontError) : Prop :=
  ∃ c g, e = .invalidFormat (.cyclicComposite c g) ∧ Edge graph g c ∧ ReflTransGen (Edge graph) c g

section
variable (bounded : Bounded graph count)
include bounded

theorem search_ok (inv : Searching graph count marks [] path)
    (run : search graph marks path = .ok marks') : Finished graph count marks marks' := by
  fun_induction search graph marks path with
  | case1 marks =>
    cases run
    exact inv.finished
  | case2 marks g path ih =>
    have bound := (Array.getElem?_eq_some_iff.1 ((inv.active g).2 List.mem_cons_self)).1
    obtain ⟨searching, done⟩ := ih inv.leave run
    refine ⟨searching, fun c visited => done c ?_⟩
    rw [Array.setIfInBounds, dif_pos bound]
    exact visited.set bound (.inr rfl)
  | case3 => cases run
  | case4 marks g c rest path bound done ih =>
    exact ih (inv.follow.skip ((has_iff_getElem bound).2 done)) run
  | case5 marks g c rest path bound free ih =>
    obtain ⟨searching, done⟩ := ih (inv.follow.enter ((has_iff_getElem bound).2 free) bound) run
    exact ⟨searching, fun d visited => done d (visited.set bound (.inl rfl))⟩
  | case6 marks g c rest path outside =>
    have edge := inv.waiting _ List.mem_cons_self c List.mem_cons_self
    exact absurd (inv.size ▸ (bounded g c edge).2) outside

theorem search_error {e : FontError} (inv : Searching graph count marks [] path)
    (run : search graph marks path = .error e) : NamesCycle graph e := by
  fun_induction search graph marks path with
  | case1 => cases run
  | case2 marks g path ih => exact ih inv.leave run
  | case3 marks g c rest path bound active =>
    cases run
    have edge := inv.waiting _ List.mem_cons_self c List.mem_cons_self
    exact ⟨c, g, rfl, edge, inv.leads_back ((has_iff_getElem bound).2 active)⟩
  | case4 marks g c rest path bound done ih =>
    exact ih (inv.follow.skip ((has_iff_getElem bound).2 done)) run
  | case5 marks g c rest path bound free ih =>
    exact ih (inv.follow.enter ((has_iff_getElem bound).2 free) bound) run
  | case6 marks g c rest path outside =>
    have edge := inv.waiting _ List.mem_cons_self c List.mem_cons_self
    exact absurd (inv.size ▸ (bounded g c edge).2) outside

theorem searchFrom_ok (inv : Searching graph count marks [] [])
    (run : searchFrom graph marks g = .ok marks') :
    Finished graph count marks marks' ∧ (g.toNat < count → Has marks' g .done) := by
  rw [searchFrom] at run
  split at run
  · rename_i bound
    split at run
    · rename_i free
      have finished := search_ok bounded
        ((inv.root g).enter ((has_iff_getElem bound).2 free) bound) run
      refine ⟨⟨finished.searching, fun c visited => ?_⟩, fun _ => finished.done g (.inl ?_)⟩
      · exact finished.done c (visited.set bound (.inl rfl))
      · rw [has_set, if_pos rfl]
    · rename_i seen
      cases run
      refine ⟨inv.finished, fun _ => ?_⟩
      cases mark : marks[g.toNat] with
      | unvisited => exact absurd mark seen
      | active => exact absurd ((has_iff_getElem bound).2 mark) inv.not_active
      | done => exact (has_iff_getElem bound).2 mark
  · rename_i outside
    cases run
    exact ⟨inv.finished, fun bound => absurd (inv.size ▸ bound) outside⟩

theorem searchFrom_error {e : FontError} (inv : Searching graph count marks [] [])
    (run : searchFrom graph marks g = .error e) : NamesCycle graph e := by
  rw [searchFrom] at run
  split at run
  · rename_i bound
    split at run
    · rename_i free
      exact search_error bounded ((inv.root g).enter ((has_iff_getElem bound).2 free) bound) run
    · cases run
  · cases run

theorem roots_ok {roots : List GlyphId} (inv : Searching graph count marks [] [])
    (run : roots.foldlM (searchFrom graph) marks = .ok marks') :
    Finished graph count marks marks' ∧ ∀ g ∈ roots, g.toNat < count → Has marks' g .done := by
  induction roots generalizing marks with
  | nil =>
    cases run
    exact ⟨inv.finished, nofun⟩
  | cons root others ih =>
    obtain ⟨marks₁, first, run⟩ := bind_eq_ok.1 run
    obtain ⟨finished, here⟩ := searchFrom_ok bounded inv first
    obtain ⟨finished', there⟩ := ih finished.searching run
    refine ⟨⟨finished'.searching, fun c visited => ?_⟩, fun g mem bound => ?_⟩
    · exact finished'.done c (.inr (finished.done c visited))
    · rcases List.mem_cons.1 mem with rfl | mem
      · exact finished'.done g (.inr (here bound))
      · exact there g mem bound

theorem roots_error {roots : List GlyphId} {e : FontError}
    (inv : Searching graph count marks [] [])
    (run : roots.foldlM (searchFrom graph) marks = .error e) : NamesCycle graph e := by
  induction roots generalizing marks with
  | nil => cases run
  | cons root others ih =>
    rw [List.foldlM_cons] at run
    cases first : searchFrom graph marks root with
    | error e' =>
      rw [first] at run
      cases run
      exact searchFrom_error bounded inv first
    | ok marks₁ =>
      rw [first] at run
      exact ih (searchFrom_ok bounded inv first).1.searching run

theorem checkAcyclic_error {e : FontError} (run : checkAcyclic count graph = .error e) :
    NamesCycle graph e := by
  rw [checkAcyclic] at run
  cases roots : graph.keys.foldlM (searchFrom graph) (Array.replicate count .unvisited) with
  | error e' =>
    rw [roots] at run
    cases run
    exact roots_error bounded (.start graph count) roots
  | ok marks =>
    rw [roots] at run
    cases run

theorem checkAcyclic_eq_ok :
    checkAcyclic count graph = .ok () ↔ ∀ g, ¬ TransGen (Edge graph) g g := by
  constructor
  · intro run g cycle
    obtain ⟨marks, roots, -⟩ := bind_eq_ok.1 run
    obtain ⟨finished, done⟩ := roots_ok bounded (.start graph count) roots
    obtain ⟨c, edge, -⟩ := TransGen.head'_iff.1 cycle
    obtain ⟨children, entry, -⟩ := edge_iff.1 edge
    have key : g ∈ graph.keys := by
      rw [Std.TreeMap.mem_keys, Std.TreeMap.mem_iff_isSome_getElem?, entry]
      rfl
    exact finished.searching.acyclic g (done g key (bounded g c edge).1) cycle
  · intro acyclic
    cases run : checkAcyclic count graph with
    | ok => rfl
    | error e =>
      obtain ⟨c, g, -, edge, back⟩ := checkAcyclic_error bounded run
      exact absurd (TransGen.head' edge back) (acyclic g)

end

end

/-! ## Needed glyphs -/

section
variable (data : Bytes) (outlines : Nat) (locations : Locations) (used : GlyphSet)

def HasComponent (g c : GlyphId) : Prop :=
  ∃ glyph, Glyph.read data outlines locations g = .ok glyph ∧ c ∈ glyph.components

/-- The glyphs that drawing glyph 0 and the used ones needs. -/
inductive Needed : GlyphId → Prop
  | seed {g : GlyphId} (bound : g.toNat < locations.count) (wanted : g = 0 ∨ g ∈ used) : Needed g
  | component {g c : GlyphId} (needed : Needed g)
    (part : HasComponent data outlines locations g c) : Needed c

/-- A needed glyph contains itself. -/
def Cyclic : Prop :=
  ∃ g, Needed data outlines locations used g ∧ TransGen (HasComponent data outlines locations) g g

end

section
variable {data : Bytes} {outlines : Nat} {locations : Locations} {used : GlyphSet}
  {seen : Array Bool} {graph : ComponentGraph} {g c : GlyphId}

theorem Explored.edge_iff (done : Explored data outlines locations seen [] graph) :
    Edge graph g c ↔ Marked seen g ∧ HasComponent data outlines locations g c := by
  rw [Closure.edge_iff]
  constructor
  · rintro ⟨children, entry, mem⟩
    obtain ⟨mark, records, found, rfl⟩ := done.recorded g children entry
    exact ⟨mark, _, found, mem⟩
  · rintro ⟨mark, glyph, found, mem⟩
    obtain ⟨glyph', known, -, recorded⟩ := (done.read g mark).resolve_left List.not_mem_nil
    cases found.symm.trans known
    cases glyph with
    | composite records => exact ⟨_, recorded records rfl, mem⟩
    | empty => cases mem
    | simple contours => cases mem

theorem Explored.marked_component (done : Explored data outlines locations seen [] graph)
    (mark : Marked seen g) (part : HasComponent data outlines locations g c) :
    Marked seen c ∧ c.toNat < locations.count := by
  obtain ⟨glyph, found, mem⟩ := part
  obtain ⟨glyph', known, below⟩ := done.selfContained g mark
  cases found.symm.trans known
  exact (below c mem).symm

theorem Explored.bounded (done : Explored data outlines locations seen [] graph) :
    Bounded graph locations.count := by
  intro g c edge
  obtain ⟨mark, part⟩ := done.edge_iff.1 edge
  exact ⟨done.size ▸ (Array.getElem?_eq_some_iff.1 mark).1, (done.marked_component mark part).2⟩

theorem Explored.edge_le (done : Explored data outlines locations seen [] graph) :
    Edge graph ≤ HasComponent data outlines locations :=
  fun _ _ edge => (done.edge_iff.1 edge).2

theorem Explored.cycle_iff (done : Explored data outlines locations seen [] graph) :
    TransGen (Edge graph) g g ↔
      Marked seen g ∧ TransGen (HasComponent data outlines locations) g g := by
  constructor
  · intro cycle
    obtain ⟨c, edge, -⟩ := TransGen.head'_iff.1 cycle
    exact ⟨(done.edge_iff.1 edge).1, TransGen.mono done.edge_le g g cycle⟩
  · rintro ⟨mark, cycle⟩
    have follow {c : GlyphId} (reached : TransGen (HasComponent data outlines locations) g c) :
        TransGen (Edge graph) g c ∧ Marked seen c := by
      induction reached with
      | single part =>
        exact ⟨.single (done.edge_iff.2 ⟨mark, part⟩), (done.marked_component mark part).1⟩
      | tail _ part ih =>
        obtain ⟨path, mark⟩ := ih
        exact ⟨path.tail (done.edge_iff.2 ⟨mark, part⟩), (done.marked_component mark part).1⟩
    exact (follow cycle).1

theorem needed_closed :
    Closed data outlines locations used {g | Needed data outlines locations used g} where
  seeds _ bound wanted := .seed bound wanted
  components _ needed glyph found _ mem := .component needed ⟨glyph, found, mem⟩

theorem marked_iff_needed
    (run : walk data outlines locations (seeded locations used).1
      (seeded locations used).2.reverse [] ∅ = .ok (seen, graph)) :
    Marked seen g ↔ Needed data outlines locations used g := by
  have least := walk_least run
  constructor
  · intro mark
    exact least.2 needed_closed mark
  · intro needed
    induction needed with
    | seed bound wanted => exact least.1.seeds _ bound wanted
    | component _ part ih =>
      obtain ⟨glyph, found, mem⟩ := part
      exact least.1.components _ ih glyph found _ mem

/-- Needed glyphs can be walked as long as they can be read, and then the recorded graph has a cycle
if and only if one of them contains itself. -/
theorem walk_needed (contained : SelfContained data outlines locations
    {g | Needed data outlines locations used g}) :
    ∃ seen graph, walk data outlines locations (seeded locations used).1
        (seeded locations used).2.reverse [] ∅ = .ok (seen, graph) ∧
      Explored data outlines locations seen [] graph ∧
      (checkAcyclic locations.count graph = .ok () ↔ ¬ Cyclic data outlines locations used) := by
  have start := @seeded_explored data outlines locations used
  obtain ⟨⟨seen, graph⟩, run⟩ := walk_ok contained fun g mem => by
    obtain ⟨bound, wanted⟩ := marked_seeded.1 (start.queued g mem)
    exact Needed.seed bound wanted
  have done := walk_explored run start
  refine ⟨seen, graph, run, done, ?_⟩
  rw [checkAcyclic_eq_ok done.bounded, Cyclic, not_exists]
  refine forall_congr' fun g => ?_
  rw [done.cycle_iff, marked_iff_needed run]

theorem result_glyphClosure : (glyphClosure data outlines locations used).result =
    walk data outlines locations (seeded locations used).1 (seeded locations used).2.reverse [] ∅
      >>= fun out => (checkAcyclic locations.count out.2).map fun _ => marked out.1 := by
  simp only [glyphClosure, Traced.result_bind, Traced.result_reportAll, Traced.result_lift,
    Traced.result_report, Traced.result_pure, ok_bind]
  rfl

end

end FontSubset.Closure

namespace FontSubset
open Closure Relation

variable {data : Bytes} {outlines : Nat} {locations : Locations} {used used' retained : GlyphSet}

theorem glyphClosure_error_iff_cyclic
    (readable : ∀ g, Needed data outlines locations used g →
      ∃ glyph, Glyph.read data outlines locations g = .ok glyph ∧
        ∀ c ∈ glyph.components, c.toNat < locations.count) :
    ((∃ fault, (glyphClosure data outlines locations used).result =
        .error (.invalidFormat fault)) ↔ Cyclic data outlines locations used) ∧
    ((∃ retained, (glyphClosure data outlines locations used).result = .ok retained) ↔
      ¬ Cyclic data outlines locations used) ∧
    ∀ e, (glyphClosure data outlines locations used).result = .error e →
      ∃ c g, e = .invalidFormat (.cyclicComposite c g) ∧
        Needed data outlines locations used g ∧ HasComponent data outlines locations g c ∧
          ReflTransGen (HasComponent data outlines locations) c g := by
  obtain ⟨seen, graph, run, done, acyclic⟩ := walk_needed fun g needed => by
    obtain ⟨glyph, found, below⟩ := readable g needed
    exact ⟨glyph, found, fun c mem => ⟨below c mem, .component needed ⟨glyph, found, mem⟩⟩⟩
  have result : (glyphClosure data outlines locations used).result =
      (checkAcyclic locations.count graph).map fun _ => marked seen := by
    rw [result_glyphClosure, run, ok_bind]
  rw [result]
  cases check : checkAcyclic locations.count graph with
  | ok =>
    have none := acyclic.1 check
    simp [Except.map, none]
  | error e =>
    have some : Cyclic data outlines locations used := by
      by_contra none
      cases check.symm.trans (acyclic.2 none)
    obtain ⟨c, g, rfl, edge, back⟩ := checkAcyclic_error done.bounded check
    obtain ⟨mark, part⟩ := done.edge_iff.1 edge
    refine ⟨iff_of_true ⟨_, rfl⟩ some, iff_of_false (by simp [Except.map]) (not_not.2 some), ?_⟩
    rintro _ ⟨⟩
    exact ⟨c, g, rfl, (marked_iff_needed run).1 mark, part,
      ReflTransGen.mono done.edge_le c g back⟩

/-- Used glyphs that lie in a closure have a closure, which is a part of it. -/
theorem glyphClosure_ok_of_subset
    (run : (glyphClosure data outlines locations used).result = .ok retained)
    (sub : ∀ g : GlyphId, g.toNat < locations.count → g ∈ used' → g ∈ retained) :
    ∃ retained', (glyphClosure data outlines locations used').result = .ok retained' ∧
      ∀ g ∈ retained', g ∈ retained := by
  obtain ⟨seen, graph, walked, acyclic, rfl⟩ := glyphClosure_eq_ok.1 run
  have done := walk_explored walked (seeded_explored used)
  have least := walk_least walked
  have inside (g : GlyphId) (needed : Needed data outlines locations used' g) : Marked seen g := by
    induction needed with
    | seed bound wanted =>
      rcases wanted with rfl | mem
      · exact least.1.seeds 0 bound (.inl rfl)
      · exact (mem_marked done.proper).1 (sub _ bound mem)
    | component _ part ih => exact (done.marked_component ih part).1
  obtain ⟨seen', graph', walked', done', acyclic'⟩ := walk_needed fun g needed => by
    obtain ⟨glyph, found, below⟩ := done.selfContained g (inside g needed)
    exact ⟨glyph, found, fun c mem => ⟨(below c mem).1, .component needed ⟨glyph, found, mem⟩⟩⟩
  refine ⟨_, glyphClosure_eq_ok.2 ⟨seen', graph', walked', acyclic'.2 ?_, rfl⟩, fun g mem => ?_⟩
  · rintro ⟨g, needed, cycle⟩
    have loop := done.cycle_iff.2 ⟨inside g needed, cycle⟩
    exact (checkAcyclic_eq_ok done.bounded).1 acyclic g loop
  · rw [mem_marked done'.proper, marked_iff_needed walked'] at mem
    exact (mem_marked done.proper).2 (inside g mem)

open Sample (sharedOutlines sharedLocations)

/-- The components of each glyph of the sample. -/
def sharedComponents : List (List GlyphId) := [[], [0], [0, 1], [4], [3]]

theorem read_sharedOutlines : ∀ i < 5,
    (Glyph.read sharedOutlines 0 sharedLocations (UInt16.ofNat i)).map
      Glyph.components = .ok (sharedComponents.getD i []) := by
  decide +kernel

theorem sharedOutlines_readable {used : GlyphSet} {g : GlyphId}
    (needed : Needed sharedOutlines 0 sharedLocations used g) :
    ∃ glyph, Glyph.read sharedOutlines 0 sharedLocations g = .ok glyph ∧
      ∀ c ∈ glyph.components, c.toNat < 5 := by
  have below : sharedComponents.all (·.all (·.toNat < 5)) := by decide
  simp only [List.all_eq_true, decide_eq_true_eq] at below
  have inside (i : Nat) (bound : i < 5) : ∀ c ∈ sharedComponents.getD i [], c.toNat < 5 := by
    have bound : i < sharedComponents.length := bound
    rw [List.getD_eq_getElem?_getD, List.getElem?_eq_getElem bound, Option.getD_some]
    exact below _ (List.getElem_mem bound)
  have read {g : GlyphId} (bound : g.toNat < 5) := map_eq_ok.1 (read_sharedOutlines g.toNat bound)
  simp only [UInt16.ofNat_toNat] at read
  have bound : g.toNat < 5 := by
    induction needed with
    | seed bound => exact bound
    | component _ part ih =>
      obtain ⟨glyph, found, mem⟩ := part
      obtain ⟨glyph', found', parts⟩ := read ih
      cases found.symm.trans found'
      exact inside _ ih _ (parts ▸ mem)
  obtain ⟨glyph, found, parts⟩ := read bound
  exact ⟨glyph, found, fun c mem => inside _ bound c (parts ▸ mem)⟩

/-- A glyph that is shared is no cycle. -/
theorem sharedOutlines_cyclic :
    (glyphClosure sharedOutlines 0 sharedLocations (.ofList [(2 : GlyphId)])).result =
        .ok (.ofList [(0 : GlyphId), 1, 2]) ∧
      ¬ Cyclic sharedOutlines 0 sharedLocations (.ofList [(2 : GlyphId)]) ∧
      (glyphClosure sharedOutlines 0 sharedLocations (.ofList [(3 : GlyphId)])).result =
        .error (.invalidFormat (.cyclicComposite 3 4)) ∧
      Cyclic sharedOutlines 0 sharedLocations (.ofList [(3 : GlyphId)]) := by
  have shared : (glyphClosure sharedOutlines 0 sharedLocations (.ofList [(2 : GlyphId)])).result =
      .ok (.ofList [(0 : GlyphId), 1, 2]) := by cbv
  have looping : (glyphClosure sharedOutlines 0 sharedLocations (.ofList [(3 : GlyphId)])).result =
      .error (.invalidFormat (.cyclicComposite 3 4)) := by cbv
  refine ⟨shared, ?_, looping, ?_⟩
  · exact (glyphClosure_error_iff_cyclic fun _ => sharedOutlines_readable).2.1.1 ⟨_, shared⟩
  · exact (glyphClosure_error_iff_cyclic fun _ => sharedOutlines_readable).1.1 ⟨_, looping⟩

end FontSubset
