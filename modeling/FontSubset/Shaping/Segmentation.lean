/-!
# Segmentation

A text is cut into words of a lexicon and plain pieces between them. At each position the longest
word that fits is taken, and a piece without words is as long as possible.
-/

namespace FontSubset

/-- The order in which words are tried: longer ones first, words of one length by their
characters. -/
def wordOrder (a b : List Char) : Ordering :=
  (compare b.length a.length).then (compare a b)

/-- The items of a list without those that are equal to the one before them. -/
def withoutRepeats [DecidableEq α] : List α → List α
  | a :: b :: rest =>
    if a = b then withoutRepeats (b :: rest) else a :: withoutRepeats (b :: rest)
  | items => items

/-- Words that stand for themselves in a text, in the order in which they are tried. -/
structure Lexicon where
  words : List (List Char)

/-- A piece of a text: a word or what lies between words. -/
inductive Piece
  | composite (text : List Char)
  | plain (text : List Char)
  deriving DecidableEq

def Piece.text : Piece → List Char
  | composite text | plain text => text

namespace Lexicon

def ofList (words : List (List Char)) : Lexicon :=
  ⟨withoutRepeats ((words.filter (· ≠ [])).mergeSort fun a b => (wordOrder a b).isLE)⟩

def isEmpty (l : Lexicon) : Bool :=
  l.words.isEmpty

/-- The first word that the text begins with. -/
def match? (l : Lexicon) (text : List Char) : Option (List Char) :=
  l.words.find? (·.isPrefixOf text)

/-- A plain piece of the characters since the last word, the latest one first. -/
def plainPiece (passed : List Char) : List Piece :=
  if passed.isEmpty then [] else [.plain passed.reverse]

/-- The pieces of the rest of a text, when `passed` lies between it and the last word. -/
def segmentFrom (l : Lexicon) (passed : List Char) : List Char → List Piece
  | [] => plainPiece passed
  | c :: rest =>
    match l.match? (c :: rest) with
    | some word =>
      plainPiece passed ++ .composite word :: segmentFrom l [] (rest.drop (word.length - 1))
    | none => segmentFrom l (c :: passed) rest
termination_by text => text.length
decreasing_by
  · simp only [List.length_drop, List.length_cons]; omega
  · simp

def segment (l : Lexicon) (text : List Char) : List Piece :=
  segmentFrom l [] text

end Lexicon

end FontSubset
