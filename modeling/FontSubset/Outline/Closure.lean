import FontSubset.Outline.Glyph
import Std.Data.TreeSet

/-!
# Glyph closure

The glyphs that are needed to draw some used ones: glyph 0, the used glyphs, and the components of
every composite among them. The walk keeps a queue of glyphs to be read, and a mark for every
glyph that was ever put there, so that a glyph is read once however often it occurs. A composite
that contains itself can never be drawn; `checkAcyclic` finds one by a depth-first search.
-/

namespace FontSubset

abbrev GlyphSet := Std.TreeSet GlyphId

/-- The components of each composite glyph, in the order of its records. -/
abbrev ComponentGraph := Std.TreeMap GlyphId (List GlyphId)

namespace Closure

/-- Marks the glyphs that have no mark yet, and puts them before `found`, the latest one first. -/
def discover (seen : Array Bool) (found : List GlyphId) :
    List GlyphId → Array Bool × List GlyphId
  | [] => (seen, found)
  | g :: rest =>
    if h : g.toNat < seen.size then
      if seen[g.toNat] then discover seen found rest
      else discover (seen.set g.toNat true) (g :: found) rest
    else discover seen found rest

/-- Each glyph found uses up one free mark. -/
theorem discover_measure (seen : Array Bool) (found children : List GlyphId) :
    (discover seen found children).2.length + (discover seen found children).1.count false =
      found.length + seen.count false := by
  induction children generalizing seen found with
  | nil => rfl
  | cons g rest ih =>
    rw [discover]
    split
    · rename_i h
      split
      · exact ih seen found
      · rename_i free
        rw [ih, List.length_cons, Array.count_set h]
        have : 0 < seen.count false :=
          Array.count_pos_iff.2 (by simpa [free] using Array.getElem_mem h)
        simp [free]
        omega
    · exact ih seen found

/-- Reads the glyphs of the queue `front ++ back.reverse` and those that they lead to. -/
def walk (data : Bytes) (outlines : Nat) (locations : Locations) (seen : Array Bool)
    (front back : List GlyphId) (graph : ComponentGraph) :
    Except FontError (Array Bool × ComponentGraph) :=
  match front with
  | [] =>
    match back with
    | [] => .ok (seen, graph)
    | g :: rest => walk data outlines locations seen (g :: rest).reverse [] graph
  | g :: front =>
    match Glyph.read data outlines locations g with
    | .error e => .error e
    | .ok (.composite records) =>
      let children := records.map (·.glyph)
      match children.find? (fun c => locations.count ≤ c.toNat) with
      | some c => .error (.invalidFormat (.missingComponent g c))
      | none =>
        match _found : discover seen back children with
        | (marked, queued) =>
          walk data outlines locations marked front queued (graph.insert g children)
    | .ok _ => walk data outlines locations seen front back graph
termination_by (front.length + back.length + seen.count false, back.length)
decreasing_by
  · exact Prod.Lex.right' _ (by simp) (by simp)
  · have := discover_measure seen back children
    rw [_found] at this
    exact Prod.Lex.left _ _ (by simp only [List.length_cons] at *; omega)
  · exact Prod.Lex.left _ _ (by simp only [List.length_cons]; omega)

/-- How far the search for cycles has come with a glyph. -/
inductive Mark
  | unvisited
  /-- On the path that is being followed. -/
  | active
  | done
  deriving DecidableEq

theorem count_setIfInBounds_le {marks : Array Mark} {i : Nat} :
    (marks.setIfInBounds i .done).count .unvisited ≤ marks.count .unvisited := by
  rw [Array.setIfInBounds]
  split
  · rename_i h
    rw [Array.count_set h]
    have : (Mark.done == Mark.unvisited) = false := rfl
    simp [this]
  · exact Nat.le_refl _

theorem count_set_active_lt {marks : Array Mark} {i : Nat} (h : i < marks.size)
    (free : marks[i] = .unvisited) :
    (marks.set i .active).count .unvisited < marks.count .unvisited := by
  rw [Array.count_set h]
  have : 0 < marks.count .unvisited :=
    Array.count_pos_iff.2 (by simpa [free] using Array.getElem_mem h)
  have active : (Mark.active == Mark.unvisited) = false := rfl
  simp only [free, active, beq_self_eq_true, if_true, Bool.false_eq_true, if_false]
  omega

/-- Follows components to glyphs without a mark. The path holds each active glyph with the
components that are still to be followed. -/
def search (graph : ComponentGraph) (marks : Array Mark) :
    List (GlyphId × List GlyphId) → Except FontError (Array Mark)
  | [] => .ok marks
  | (g, []) :: path => search graph (marks.setIfInBounds g.toNat .done) path
  | (g, c :: rest) :: path =>
    if h : c.toNat < marks.size then
      match free : marks[c.toNat] with
      | .active => .error (.invalidFormat (.cyclicComposite c g))
      | .done => search graph marks ((g, rest) :: path)
      | .unvisited =>
        search graph (marks.set c.toNat .active) ((c, graph.getD c []) :: (g, rest) :: path)
    else search graph marks ((g, rest) :: path)
termination_by path => (marks.count .unvisited, (path.map fun entry => entry.2.length + 1).foldr (· + ·) 0)
decreasing_by
  · exact Prod.Lex.right' _ count_setIfInBounds_le (by simp)
  · exact Prod.Lex.right _ (by simp)
  · exact Prod.Lex.left _ _ (count_set_active_lt h free)
  · exact Prod.Lex.right _ (by simp)

/-- Searches from a composite glyph, unless a search has come past it. -/
def searchFrom (graph : ComponentGraph) (marks : Array Mark) (root : GlyphId) :
    Except FontError (Array Mark) :=
  if h : root.toNat < marks.size then
    if marks[root.toNat] = .unvisited then
      search graph (marks.set root.toNat .active) [(root, graph.getD root [])]
    else .ok marks
  else .ok marks

/-- Fails if a composite among `count` glyphs is reached from itself. -/
def checkAcyclic (count : Nat) (graph : ComponentGraph) : Except FontError Unit := do
  let _ ← graph.keys.foldlM (searchFrom graph) (Array.replicate count .unvisited)
  return ()

/-- The glyphs with a mark. -/
def marked (seen : Array Bool) : GlyphSet :=
  Std.TreeSet.ofList (((List.range seen.size).filter fun i => seen[i]?.getD false).map
    UInt16.ofNat)

end Closure

/-- The glyphs to be retained for the used ones. Used glyphs past the last one have no outline to
be retained, and are left out with a warning. -/
def glyphClosure (data : Bytes) (outlines : Nat) (locations : Locations) (used : GlyphSet) :
    Traced GlyphSet := do
  let count := locations.count
  let seeds := 0 :: used.toList
  let past := seeds.filter (count ≤ ·.toNat)
  Traced.reportAll (past.map (.glyphPastLocations · count))
  let (seen, found) := Closure.discover (Array.replicate count false) [] seeds
  let (seen, graph) ← Closure.walk data outlines locations seen found.reverse [] ∅
  Closure.checkAcyclic count graph
  let retained := Closure.marked seen
  Traced.report (.closureFound used.size retained.size graph.size)
  return retained

end FontSubset
