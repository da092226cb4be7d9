import FontSubset.Bytes
import Std.Data.TreeMap

/-!
# Workspaces

A workspace is a directory of files without directories in it. Paths are followed from there;
`place` says where a path leads, and why it cannot be followed if it cannot. A path may lead out of
the workspace, where nothing is known but the directories that the workspace lies in.
-/

namespace FontSubset

/-- Why a file cannot be read or written. -/
inductive FileFault
  | notFound
  | notDirectory
  | isDirectory
  | nameTooLong
  | invalidPath
  deriving DecidableEq

def FileFault.message : FileFault → String
  | .notFound => "No such file or directory (os error 2)"
  | .notDirectory => "Not a directory (os error 20)"
  | .isDirectory => "Is a directory (os error 21)"
  | .nameTooLong => "File name too long (os error 36)"
  | .invalidPath => "file name contained an unexpected NUL byte"

structure Workspace where
  files : Std.TreeMap String Bytes

/-- Where a path leads. -/
inductive FilePlace
  | directory
  /-- A name in the workspace or, unless `inside`, in a directory around it. A path that ends in a
  slash can only stand for a directory. -/
  | entry (inside : Bool) (name : String) (asDirectory : Bool)
  deriving DecidableEq

namespace Workspace

def empty : Workspace := ⟨∅⟩

def ofList (files : List (String × Bytes)) : Workspace :=
  ⟨Std.TreeMap.ofList files⟩

/-- The text between slashes. -/
def components (path : List Char) : List (List Char) :=
  path.foldr (fun c parts =>
    if c = '/' then [] :: parts
    else match parts with
      | part :: rest => (c :: part) :: rest
      | [] => [[c]]) [[]]

/-- Longest name of a file, in bytes. -/
def maxName : Nat := 255

/-- Longest path, in bytes. -/
def maxPath : Nat := 4095

def isLong (name : String) : Bool :=
  maxName < name.utf8ByteSize

/-- Follows names, none of which is empty, from the workspace or, unless `inside`, from a directory
around it. No name of a file or of nothing can be followed by another one. -/
def follow (w : Workspace) (asDirectory inside : Bool) :
    List (List Char) → Except FileFault FilePlace
  | [] => .ok .directory
  | ['.'] :: rest => follow w asDirectory inside rest
  | ['.', '.'] :: rest => follow w asDirectory false rest
  | [last] => .ok (.entry inside (String.ofList last) asDirectory)
  | next :: _ =>
    let name := String.ofList next
    if isLong name then .error .nameTooLong
    else if inside ∧ w.files.contains name then .error .notDirectory
    else .error .notFound

def place (w : Workspace) (path : String) : Except FileFault FilePlace :=
  let characters := path.toList
  if '\x00' ∈ characters then .error .invalidPath
  else if characters.isEmpty then .error .notFound
  else if maxPath < path.utf8ByteSize then .error .nameTooLong
  else w.follow (characters.getLast? = some '/') (characters.head? ≠ some '/')
    ((components characters).filter (· ≠ []))

/-- The file of a name. -/
def find? (w : Workspace) (inside : Bool) (name : String) : Option Bytes :=
  if inside then w.files[name]? else none

def read (w : Workspace) (path : String) : Except FileFault Bytes := do
  match ← w.place path with
  | .directory => throw .isDirectory
  | .entry inside name asDirectory =>
    if isLong name then throw .nameTooLong
    match w.find? inside name with
    | some data => if asDirectory then throw .notDirectory else return data
    | none => throw .notFound

/-- Writes a file, which replaces one that is there. What is written around the workspace leaves
the workspace as it is. -/
def write (w : Workspace) (path : String) (data : Bytes) : Except FileFault Workspace := do
  match ← w.place path with
  | .directory => throw .isDirectory
  | .entry inside name asDirectory =>
    if asDirectory then throw .isDirectory
    if isLong name then throw .nameTooLong
    return if inside then ⟨w.files.insert name data⟩ else w

end Workspace

end FontSubset
