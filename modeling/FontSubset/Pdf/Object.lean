import FontSubset.Number.Fixed
import FontSubset.Pdf.Compressor

/-!
# PDF objects

The objects of a file are numbered from one on in the order in which they are added. An object is
a dictionary or a stream, which is a dictionary with data behind it.
-/

namespace FontSubset.Pdf

structure ObjectList where
  /-- What stands between the first and the last line of each object. -/
  bodies : Array Bytes
  deriving DecidableEq

namespace ObjectList

def empty : ObjectList := ⟨#[]⟩

def size (o : ObjectList) : Nat :=
  o.bodies.size

/-- Adds an object and gives its number. -/
def add (o : ObjectList) (body : Bytes) : Nat × ObjectList :=
  (o.size + 1, ⟨o.bodies.push body⟩)

/-- The object of a number. -/
def get? (o : ObjectList) (number : Nat) : Option Bytes :=
  if number = 0 then none else o.bodies[number - 1]?

/-- An object with its number, as it stands in a file. -/
def objectBytes (number : Nat) (body : Bytes) : Bytes :=
  Bytes.concat [Bytes.ofText s!"{number} 0 obj\n", body, Bytes.ofText "\nendobj\n\n"]

def toBytes (o : ObjectList) : Bytes :=
  Bytes.concat (o.bodies.toList.mapIdx fun index body => objectBytes (index + 1) body)

@[simp] theorem get?_add (o : ObjectList) (body : Bytes) :
    (o.add body).2.get? (o.add body).1 = some body := by
  simp [add, get?, size]

theorem get?_add_of_le (o : ObjectList) (body : Bytes) {number : Nat} (h : number ≤ o.size) :
    (o.add body).2.get? number = o.get? number := by
  unfold get?
  split
  · rfl
  · simp only [add, size] at h ⊢
    rw [Array.getElem?_push, if_neg (by omega)]

end ObjectList

/-! ## Values -/

def name (text : String) : String :=
  "/" ++ text

/-- A reference to the object of a number. -/
def reference (number : Nat) : String :=
  s!"{number} 0 R"

def array (items : List String) : String :=
  "[" ++ " ".intercalate items ++ "]"

/-- A dictionary of keys and values. -/
def dictionary (entries : List (String × String)) : String :=
  "<< " ++ String.join (entries.map fun (key, value) => name key ++ " " ++ value ++ " ") ++ ">>"

/-- A number: integers without a point, others with up to four decimal places. -/
def number (x : Binary64) : String :=
  if x.isFinite ∧ x.isIntegral then toString x.truncated
  else String.ofList ((x.fixed 4).toList.reverse.dropWhile (· = '0')).reverse

/-- The data of a stream as they are stored in the file. -/
def deflated [Compressor] (data : Bytes) : Bytes :=
  Compressor.compress 6 data

/-- A compressed stream with some entries of its own in its dictionary. -/
def stream [Compressor] (entries : List (String × String)) (data : Bytes) : Bytes :=
  let compressed := deflated data
  let head := dictionary (("Length", toString compressed.size) :: entries ++
    [("Filter", name "FlateDecode")])
  Bytes.concat [Bytes.ofText (head ++ "\nstream\n"), compressed, Bytes.ofText "\nendstream"]

end FontSubset.Pdf
