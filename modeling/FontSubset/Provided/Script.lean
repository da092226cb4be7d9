import FontSubset.Text.Script

/-!
# The characters of scripts
-/

namespace FontSubset.Script

/-- The ranges of code points that are in a script, in order. The last two of Bengali are not assigned
up to Unicode 17; the table of scripts that the program is built with is newer and has them. -/
def ranges : Script → List (Nat × Nat)
  | bengali => [(0x0980, 0x0983), (0x0985, 0x098C), (0x098F, 0x0990), (0x0993, 0x09A8),
      (0x09AA, 0x09B0), (0x09B2, 0x09B2), (0x09B6, 0x09B9), (0x09BC, 0x09C4), (0x09C7, 0x09C8),
      (0x09CB, 0x09CE), (0x09D7, 0x09D7), (0x09DC, 0x09DD), (0x09DF, 0x09E3), (0x09E6, 0x09FE),
      (0x11DF0, 0x11DF1)]

def contains (script : Script) (c : Char) : Bool :=
  script.ranges.any fun (first, last) => first ≤ c.toNat ∧ c.toNat ≤ last

example : bengali.contains 'ক' ∧ ¬ bengali.contains 'k' := by decide

instance table : ScriptTable := ⟨contains⟩

end FontSubset.Script
