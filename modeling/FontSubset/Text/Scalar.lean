/-!
# Scalar values

A code stands for a character unless it is a surrogate or lies beyond the last plane.
-/

namespace FontSubset.Text

/-- The character with a code, if there is one. -/
def scalar? (code : UInt32) : Option Char :=
  if h : code.isValidChar then some ⟨code, h⟩ else none

theorem scalar?_eq_some_iff {code : UInt32} {c : Char} : scalar? code = some c ↔ c.val = code := by
  unfold scalar?
  constructor
  · split
    · rintro ⟨⟩; rfl
    · nofun
  · rintro rfl
    simp [c.valid]

end FontSubset.Text
