import FontSubset.Proofs.Result
import FontSubset.Shaping.Reorder
import Mathlib.Logic.Function.Basic

/-!
# Visual order of a run

* `reorder_rearranges`: vowel signs of two halves are split, and then some pairs of neighbours trade
  places. A sign that is drawn first comes before the glyph that it follows, and all other glyphs
  stay in order.

`place` follows each glyph of a run to where it is drawn, so that equal glyphs are told apart.
-/

namespace FontSubset.Bengali

/-- A sign of two halves is replaced by their glyphs, if the font has both. -/
def halved (lookup : Char → Option GlyphInfo) (g : GlyphInfo) : List GlyphInfo :=
  (do
    let (first, second) ← halves? g.characters
    return [← lookup first, ← lookup second]).getD [g]

theorem value_split (lookup : Char → Option GlyphInfo) (g : GlyphInfo) :
    (split lookup g).value = halved lookup g := by
  unfold split halved
  cases halves? g.characters with
  | none => rfl
  | some pair =>
    obtain ⟨first, second⟩ := pair
    cases left : lookup first with
    | none => simp [left]
    | some a => cases right : lookup second <;> simp [left, right]

theorem value_reorder (lookup : Char → Option GlyphInfo) (glyphs : List GlyphInfo) :
    (reorder lookup glyphs).value =
      shiftLeft (glyphs.flatMap fun g => (split lookup g).value) := by
  simp [reorder, Logged.value_mapM, List.flatMap]

/-! ## Neighbours that trade places -/

theorem shiftLeft_perm (glyphs : List GlyphInfo) : (shiftLeft glyphs).Perm glyphs := by
  fun_induction shiftLeft glyphs with
  | case1 a b rest _ ih => exact (List.Perm.swap a b _).trans ((ih.cons b).cons a)
  | case2 a b rest _ ih => exact ih.cons a
  | case3 => exact .refl _

/-- Where glyph number `i` of a run is drawn. -/
def place : List GlyphInfo → Nat → Nat
  | _ :: b :: rest, i =>
    if isPreBase b then
      match i with
      | 0 => 1
      | 1 => 0
      | i + 2 => place rest i + 2
    else
      match i with
      | 0 => 0
      | i + 1 => place (b :: rest) i + 1
  | _, i => i

section
variable {a b : GlyphInfo} {rest : List GlyphInfo}

theorem place_behind_sign (sign : isPreBase b) (i : Nat) :
    place (a :: b :: rest) (i + 2) = place rest i + 2 := by
  simp [place, sign]

theorem place_succ (stays : ¬ isPreBase b) (i : Nat) :
    place (a :: b :: rest) (i + 1) = place (b :: rest) i + 1 := by
  simp [place, stays]

end

theorem getElem?_place (run : List GlyphInfo) (i : Nat) :
    (shiftLeft run)[place run i]? = run[i]? := by
  fun_induction place run i with
  | case1 _ b rest sign => simp [shiftLeft, sign]
  | case2 _ b rest sign => simp [shiftLeft, sign]
  | case3 _ b rest sign i ih => simpa [shiftLeft, sign] using ih
  | case4 _ b rest other => simp [shiftLeft, other]
  | case5 _ b rest other i ih => simpa [shiftLeft, other] using ih
  | case6 run i short => rw [shiftLeft.eq_2 run short]

theorem place_involutive (run : List GlyphInfo) : Function.Involutive (place run) := by
  intro i
  fun_induction place run i with
  | case1 _ b rest sign => simp [place, sign]
  | case2 _ b rest sign => simp [place, sign]
  | case3 _ b rest sign i ih => simpa [place, sign] using ih
  | case4 _ b rest other => simp [place, other]
  | case5 _ b rest other i ih => simpa [place, other] using ih
  | case6 run i short => exact place.eq_4 run i short

theorem place_le (run : List GlyphInfo) (i : Nat) : place run i ≤ i + 1 := by
  fun_induction place run i with
  | case1 | case2 | case4 | case6 => omega
  | case3 _ b rest _ i ih => omega
  | case5 _ b rest _ i ih => omega

theorem le_place (run : List GlyphInfo) (i : Nat) : i ≤ place run i + 1 := by
  have back := place_le run (place run i)
  rwa [place_involutive] at back

section
variable {run : List GlyphInfo} {i j : Nat} {g g' : GlyphInfo}

theorem place_lt_place (before : i < j) (first : run[i]? = some g) (second : run[j]? = some g')
    (other : ¬ isPreBase g) (other' : ¬ isPreBase g') : place run i < place run j := by
  fun_induction shiftLeft run generalizing i j with
  | case1 a b rest sign ih =>
    -- Glyph 1 is the sign that moves, so neither of the two is that one.
    have absent {k : Nat} {g : GlyphInfo} (found : (a :: b :: rest)[k]? = some g)
        (other : ¬ isPreBase g) : k ≠ 1 := by
      rintro rfl
      cases found
      exact other sign
    obtain _ | _ | j := j
    · omega
    · exact absurd rfl (absent second other')
    · obtain _ | _ | i := i
      · simp [place, sign]
      · exact absurd rfl (absent first other)
      · rw [place_behind_sign sign, place_behind_sign sign]
        exact Nat.add_lt_add_right (ih (by omega) first second) 2
  | case2 a b rest stays ih =>
    obtain _ | j := j
    · omega
    · obtain _ | i := i
      · simp [place, stays]
      · rw [place_succ stays, place_succ stays]
        exact Nat.succ_lt_succ (ih (by omega) first second)
  | case3 run short => rwa [place.eq_4 run i short, place.eq_4 run j short]

theorem place_of_follows (first : run[i]? = some g) (second : run[i + 1]? = some g')
    (other : ¬ isPreBase g) (sign : isPreBase g') : place run i = place run (i + 1) + 1 := by
  fun_induction shiftLeft run generalizing i with
  | case1 a b rest moved ih =>
    obtain _ | _ | i := i
    · simp [place, moved]
    · cases first
      exact absurd moved other
    · rw [place_behind_sign moved, place_behind_sign moved, ih first second]
  | case2 a b rest stays ih =>
    obtain _ | i := i
    · cases second
      exact absurd sign stays
    · rw [place_succ stays, place_succ stays, ih first second]
  | case3 run short =>
    obtain _ | ⟨a, _ | ⟨b, rest⟩⟩ := run
    · cases first
    · cases second
    · exact absurd rfl (short a b rest)

end

/-- Glyph number `i` of the run is drawn at `place i`. -/
structure Rearranges (run drawn : List GlyphInfo) (place : Nat → Nat) : Prop where
  perm : drawn.Perm run
  involutive : Function.Involutive place
  moved : ∀ i, drawn[place i]? = run[i]?
  /-- Glyphs that are no signs drawn first stay in order. -/
  ordered : ∀ i j g g', i < j → run[i]? = some g → run[j]? = some g' → ¬ isPreBase g →
    ¬ isPreBase g' → place i < place j
  /-- A sign that is drawn first stands directly before the glyph that it follows. -/
  signs : ∀ i g sign, run[i]? = some g → run[i + 1]? = some sign → ¬ isPreBase g →
    isPreBase sign → place i = place (i + 1) + 1
  near : ∀ i, place i ≤ i + 1 ∧ i ≤ place i + 1

theorem reorder_rearranges (lookup : Char → Option GlyphInfo) (glyphs : List GlyphInfo) :
    ∃ place, Rearranges (glyphs.flatMap (halved lookup)) (reorder lookup glyphs).value place := by
  simp only [value_reorder, value_split]
  generalize glyphs.flatMap (halved lookup) = run
  refine ⟨place run, ?_⟩
  constructor
  case perm => exact shiftLeft_perm run
  case involutive => exact place_involutive run
  case moved => exact getElem?_place run
  case ordered => exact fun i j g g' => place_lt_place
  case signs => exact fun i g sign => place_of_follows
  case near => exact fun i => ⟨place_le run i, le_place run i⟩

end FontSubset.Bengali
