/-!
# Scripts

The scripts that languages are written in. Which characters are in a script is for a table of the
characters of Unicode to say.
-/

namespace FontSubset

inductive Script
  | bengali
  deriving DecidableEq

/-- A table of the Unicode property Script. -/
class ScriptTable where
  isIn (script : Script) (c : Char) : Bool

end FontSubset
