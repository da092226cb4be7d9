import FontSubset.Proofs.Embedding.WidthArray
import FontSubset.Proofs.Pdf.Values
import FontSubset.Provided.Zlib

/-!
# Objects of an embedded font

* `Pdf.hasFont_writeFont`: the objects of a font are added behind those that are there, they refer
  to each other and to nothing else, and whatever the name of the font is, it is one token of
  dictionaries that do not depend on it otherwise.
-/

namespace FontSubset

/-- The values that a run adds to a width array. -/
def WidthRun.items (run : WidthRun) : List (List CodeMap.Token) :=
  [[.integer run.first.toNat], Pdf.arrayTokens (run.widths.map fun width => [.integer width.toNat])]

namespace Pdf
open CodeMap

/-! ## Dictionaries as they are read -/

def streamEntries (size : Nat) (entries : List (String × List Token)) :
    List (String × List Token) :=
  ("Length", [CodeMap.number size]) :: entries ++ [("Filter", [.name "FlateDecode"])]

def descriptorEntries (title : String) (d : Descriptor) (fontFile : Nat) :
    List (String × List Token) := [
  ("Type", [.name "FontDescriptor"]),
  ("FontName", [.name title]),
  ("Flags", [.integer d.flags.toNat]),
  ("FontBBox", arrayTokens ([d.bounds.left, d.bounds.bottom, d.bounds.right, d.bounds.top].map
    fun n => [.integer n.toInt])),
  ("ItalicAngle", [.integer d.italicAngle.truncated]),
  ("Ascent", [.integer d.ascent.toInt]),
  ("Descent", [.integer d.descent.toInt]),
  ("CapHeight", [.integer d.capHeight.toInt]),
  ("StemV", [.integer d.stemWidth.toNat]),
  ("FontFile2", referenceTokens fontFile)]

def collectionEntries : List (String × List Token) := [
  ("Registry", [.literal (Bytes.ofText "Adobe").toList]),
  ("Ordering", [.literal (Bytes.ofText "Identity").toList]),
  ("Supplement", [.integer 0])]

def descendantEntries (title : String) (runs : List WidthRun) (descriptor : Nat) :
    List (String × List Token) := [
  ("Type", [.name "Font"]),
  ("Subtype", [.name "CIDFontType2"]),
  ("BaseFont", [.name title]),
  ("CIDSystemInfo", dictionaryTokens collectionEntries),
  ("FontDescriptor", referenceTokens descriptor),
  ("DW", [.integer defaultWidth.toNat])] ++
  (if runs.isEmpty then [] else [("W", arrayTokens (runs.flatMap WidthRun.items))]) ++
  [("CIDToGIDMap", [.name "Identity"])]

def fontEntries (title : String) (descendant : Nat) (toUnicode : Option Nat) :
    List (String × List Token) := [
  ("Type", [.name "Font"]),
  ("Subtype", [.name "Type0"]),
  ("BaseFont", [.name title]),
  ("Encoding", [.name "Identity-H"]),
  ("DescendantFonts", arrayTokens [referenceTokens descendant])] ++
  toUnicode.toList.map fun number => ("ToUnicode", referenceTokens number)

/-! ## Objects as they are read -/

/-- The input is lexed to a dictionary that refers to some objects. -/
structure SpellsDictionary (input : Rest) (entries : List (String × List Token))
    (referred : List Nat) : Prop where
  lexed : lex input = (dictionaryTokens entries, none)
  values : ∀ entry ∈ entries, IsValue entry.2
  references : references (dictionaryTokens entries) = referred.map CodeMap.number

def HasDictionary (objects : ObjectList) (number : Nat) (entries : List (String × List Token))
    (referred : List Nat) : Prop :=
  ∃ body, objects.get? number = some body ∧ SpellsDictionary body.toList entries referred

section
variable [Compressor]

/-- The object is a stream with some entries of its own in its dictionary, and inflating what is
stored gives the data. -/
def HasStream (objects : ObjectList) (number : Nat) (entries : List (String × List Token))
    (data : Bytes) : Prop :=
  ∃ front, objects.get? number = some (Bytes.concat [front, Bytes.ofText "stream\n",
      deflated data, Bytes.ofText "\nendstream"]) ∧
    Compressor.inflate? (deflated data) = some data ∧
    ¬ (Bytes.ofText "stream").toList <:+: front.toList ∧
    SpellsDictionary front.toList (streamEntries (deflated data).size entries) []

/-- A font has been added to a list of objects. -/
structure HasFont (before : ObjectList) (e : Embedding) (runs : List WidthRun)
    (numbers : FontObjects) (after : ObjectList) : Prop where
  earlier : ∀ number ≤ before.size, after.get? number = before.get? number
  appended : [numbers.fontFile, numbers.descriptor, numbers.descendant] ++
    numbers.toUnicode.toList ++ [numbers.font] =
      List.range' (before.size + 1) (after.size - before.size)
  fontFile : HasStream after numbers.fontFile
    [("Length1", [CodeMap.number e.fontData.size])] e.fontData
  descriptor : HasDictionary after numbers.descriptor
    (descriptorEntries (fontName e.fontName) e.descriptor numbers.fontFile) [numbers.fontFile]
  descendant : HasDictionary after numbers.descendant
    (descendantEntries (fontName e.fontName) runs numbers.descriptor) [numbers.descriptor]
  toUnicode : Option.Rel (fun number map => HasStream after number [] (Bytes.ofText map))
    numbers.toUnicode e.toUnicode
  font : HasDictionary after numbers.font
    (fontEntries (fontName e.fontName) numbers.descendant numbers.toUnicode)
    (numbers.descendant :: numbers.toUnicode.toList)

end

/-! ## Texts of the dictionaries -/

theorem kept_fontName (text : String) : (fontName text).toList.all isNameCharacter := by
  unfold fontName
  dsimp only
  split
  · decide +kernel
  · simp

theorem spellsValue_int32 (n : Int32) : SpellsValue (integer n) [.integer n.toInt] := by
  have low := n.le_toInt
  have high := n.toInt_lt
  exact spellsValue_integer (by omega) (by omega)

theorem spellsValue_word (n : UInt32) : SpellsValue (toString n) [.integer n.toNat] := by
  have bound := n.toNat_lt
  have small : n.toNat < 0x8000000000000000 := by omega
  exact number_of_lt small ▸ spellsValue_number n.toNat

theorem spellsValue_angle {x : Binary64} (finite : x.isFinite) (integral : x.isIntegral) :
    SpellsValue (number x) [.integer x.truncated] := by
  rw [number, if_pos ⟨finite, integral⟩]
  exact spellsValue_integer (by rw [Binary64.truncated]; omega) (by rw [Binary64.truncated]; omega)

theorem written_descriptorText {title : String} (kept : title.toList.all isNameCharacter)
    {d : Descriptor} (finite : d.italicAngle.isFinite) (integral : d.italicAngle.isIntegral)
    (fontFile : Nat) :
    Written (descriptorText title d fontFile) (descriptorEntries title d fontFile) := by
  refine ⟨_, rfl, ?_⟩
  refine .cons (spellsEntry (by decide) (spellsValue_name (by decide))) ?_
  refine .cons (spellsEntry (by decide) (spellsValue_name kept)) ?_
  refine .cons (spellsEntry (by decide) (spellsValue_word _)) ?_
  refine .cons (spellsEntry (by decide) (spellsValue_array fun n _ => spellsValue_int32 n)) ?_
  refine .cons (spellsEntry (by decide) (spellsValue_angle finite integral)) ?_
  refine .cons (spellsEntry (by decide) (spellsValue_int32 _)) ?_
  refine .cons (spellsEntry (by decide) (spellsValue_int32 _)) ?_
  refine .cons (spellsEntry (by decide) (spellsValue_int32 _)) ?_
  refine .cons (spellsEntry (by decide) (spellsValue_word _)) ?_
  exact .cons (spellsEntry (by decide) (spellsValue_reference _)) .nil

theorem written_collection : Written identityCollection collectionEntries := by
  have adobe : SpellsValue "(Adobe)" [.literal (Bytes.ofText "Adobe").toList] :=
    spellsValue_literal "Adobe" (by decide +kernel)
  have identity : SpellsValue "(Identity)" [.literal (Bytes.ofText "Identity").toList] :=
    spellsValue_literal "Identity" (by decide +kernel)
  refine ⟨_, rfl, ?_⟩
  refine .cons (spellsEntry (by decide) adobe) ?_
  refine .cons (spellsEntry (by decide) identity) ?_
  exact .cons (spellsEntry (by decide) (spellsValue_number 0)) .nil

theorem flatten_items (runs : List WidthRun) :
    (runs.flatMap WidthRun.items).flatten = runs.flatMap WidthRun.tokens := by
  have widths (run : WidthRun) : (run.widths.map fun width =>
      [Token.integer width.toNat]).flatten = WidthRun.widthTokens run.widths := by
    rw [← List.flatMap_def, ← List.map_eq_flatMap, WidthRun.widthTokens]
  have one (run : WidthRun) : run.items.flatten = run.tokens := by
    simp [WidthRun.items, arrayTokens, WidthRun.tokens, widths]
  induction runs with
  | nil => rfl
  | cons run rest ih =>
    rw [List.flatMap_cons, List.flatten_append, one, ih, List.flatMap_cons]

theorem isValue_items (runs : List WidthRun) :
    ∀ item ∈ runs.flatMap WidthRun.items, IsValue item := by
  intro item mem
  obtain ⟨run, -, mem⟩ := List.mem_flatMap.1 mem
  simp only [WidthRun.items, List.mem_cons, List.not_mem_nil, or_false] at mem
  rcases mem with rfl | rfl
  · exact .integer _
  · refine .array fun item mem => ?_
    obtain ⟨width, -, rfl⟩ := List.mem_map.1 mem
    exact .integer _

theorem spellsValue_runs (runs : List WidthRun) :
    SpellsValue ("[" ++ String.join (runs.map WidthRun.text) ++ "]")
      (arrayTokens (runs.flatMap WidthRun.items)) := by
  refine ⟨?_, .array (isValue_items runs)⟩
  rw [arrayTokens, flatten_items]
  exact (WidthArray.spells_runs runs).word

theorem spells_widthEntry (runs : List WidthRun) :
    List.Forall₂ SpellsEntry ((widthArray runs).toList.map (("W", ·)))
      (if runs.isEmpty then [] else [("W", arrayTokens (runs.flatMap WidthRun.items))]) := by
  rw [widthArray]
  split
  · exact .nil
  · exact .cons (spellsEntry (by decide) (spellsValue_runs runs)) .nil

theorem written_descendantText {title : String} (kept : title.toList.all isNameCharacter)
    (runs : List WidthRun) (descriptor : Nat) :
    Written (descendantText title (widthArray runs) descriptor)
      (descendantEntries title runs descriptor) := by
  refine ⟨_, rfl, ?_⟩
  rw [descendantEntries]
  refine List.rel_append (List.rel_append ?_ (spells_widthEntry runs)) ?_
  · refine .cons (spellsEntry (by decide) (spellsValue_name (by decide))) ?_
    refine .cons (spellsEntry (by decide) (spellsValue_name (by decide))) ?_
    refine .cons (spellsEntry (by decide) (spellsValue_name kept)) ?_
    refine .cons (spellsEntry (by decide) written_collection.spellsValue) ?_
    refine .cons (spellsEntry (by decide) (spellsValue_reference _)) ?_
    exact .cons (spellsEntry (by decide) (spellsValue_word _)) .nil
  · exact .cons (spellsEntry (by decide) (spellsValue_name (by decide))) .nil

theorem written_fontText {title : String} (kept : title.toList.all isNameCharacter)
    (descendant : Nat) (toUnicode : Option Nat) :
    Written (fontText title descendant toUnicode) (fontEntries title descendant toUnicode) := by
  have descendants : SpellsValue (array ([descendant].map reference))
      (arrayTokens ([descendant].map referenceTokens)) :=
    spellsValue_array fun n _ => spellsValue_reference n
  refine ⟨_, rfl, ?_⟩
  rw [fontEntries]
  refine List.rel_append ?_ ?_
  · refine .cons (spellsEntry (by decide) (spellsValue_name (by decide))) ?_
    refine .cons (spellsEntry (by decide) (spellsValue_name (by decide))) ?_
    refine .cons (spellsEntry (by decide) (spellsValue_name kept)) ?_
    refine .cons (spellsEntry (by decide) (spellsValue_name (by decide))) ?_
    exact .cons (spellsEntry (by decide) descendants) .nil
  · cases toUnicode with
    | none => exact .nil
    | some number => exact .cons (spellsEntry (by decide) (spellsValue_reference number)) .nil

/-! ## References -/

theorem references_descriptor (title : String) (d : Descriptor) (fontFile : Nat) :
    references (dictionaryTokens (descriptorEntries title d fontFile)) =
      [CodeMap.number fontFile] := by
  simp [descriptorEntries, dictionaryTokens, arrayTokens, referenceTokens, references]

theorem references_font (title : String) (descendant : Nat) (toUnicode : Option Nat) :
    references (dictionaryTokens (fontEntries title descendant toUnicode)) =
      (descendant :: toUnicode.toList).map CodeMap.number := by
  cases toUnicode <;>
    simp [fontEntries, dictionaryTokens, arrayTokens, referenceTokens, references]

theorem free_runs (runs : List WidthRun) :
    Token.keyword "R" ∉ runs.flatMap WidthRun.tokens := by
  simp [WidthRun.tokens, WidthRun.widthTokens]

theorem references_descendant (title : String) (runs : List WidthRun) (descriptor : Nat) :
    references (dictionaryTokens (descendantEntries title runs descriptor)) =
      [CodeMap.number descriptor] := by
  have behind : Token.keyword "R" ∉ [Token.arrayEnd, .name "CIDToGIDMap", .name "Identity",
    .dictEnd].take 2 := by simp
  cases empty : runs.isEmpty with
  | true =>
    simp [descendantEntries, empty, collectionEntries, dictionaryTokens, referenceTokens,
      references]
  | false =>
    simp [descendantEntries, empty, collectionEntries, dictionaryTokens, arrayTokens,
      referenceTokens, references, flatten_items, take_two_ne (free_runs runs) behind,
      references_append (free_runs runs) behind]

/-! ## Objects -/

theorem hasDictionary {objects : ObjectList} {number : Nat} {text : String}
    {tokens : List (String × List Token)} {referred : List Nat}
    (found : objects.get? number = some (Bytes.ofText text)) (written : Written text tokens)
    (refers : references (dictionaryTokens tokens) = referred.map CodeMap.number) :
    HasDictionary objects number tokens referred :=
  ⟨_, found, written.spells.lex_eq, written.isValue, refers⟩

/-- The word `stream` cannot begin in the text. -/
def Unmarked (text : String) : Prop :=
  's'.toUInt8 ∉ (Bytes.ofText text).toList

instance (text : String) : Decidable (Unmarked text) :=
  inferInstanceAs (Decidable (_ ∉ _))

theorem unmarked_append {front back : String} :
    Unmarked (front ++ back) ↔ Unmarked front ∧ Unmarked back := by
  rw [Unmarked, Bytes.toList_ofText_append, List.mem_append, not_or, Unmarked, Unmarked]

theorem unmarked_number (n : Nat) : Unmarked (toString n) := by
  have digits := List.all_eq_true.1 (Decimal.all_isDigit_toDigits n)
  have all : ∀ k < 10, (Char.ofNat (48 + k)).toUInt8 ≠ 's'.toUInt8 := by decide
  rw [Unmarked, toList_ofText_toString]
  intro mem
  obtain ⟨c, digit, same⟩ := List.mem_map.1 mem
  exact byte_of_isDigit (· ≠ 's'.toUInt8) all (digits c digit) same

theorem unmarked_dictionary {entries : List (String × String)}
    (h : ∀ entry ∈ entries, Unmarked entry.1 ∧ Unmarked entry.2) :
    Unmarked (dictionary entries) := by
  have blank : Unmarked " " := by decide +kernel
  have slash : Unmarked "/" := by decide +kernel
  have inner : Unmarked (String.join
      (entries.map fun entry => name entry.1 ++ " " ++ entry.2 ++ " ")) := by
    induction entries with
    | nil => exact List.not_mem_nil
    | cons entry rest ih =>
      obtain ⟨key, value⟩ := h entry List.mem_cons_self
      rw [List.map_cons, String.join_cons, name]
      simp only [unmarked_append]
      exact ⟨⟨⟨⟨⟨slash, key⟩, blank⟩, value⟩, blank⟩,
        ih fun other mem => h other (List.mem_cons_of_mem entry mem)⟩
  rw [dictionary, unmarked_append, unmarked_append]
  exact ⟨⟨by decide +kernel, inner⟩, by decide +kernel⟩

/-- The entries of the dictionary of a stream. -/
def head (size : Nat) (entries : List (String × String)) : List (String × String) :=
  ("Length", toString size) :: entries ++ [("Filter", name "FlateDecode")]

theorem written_head {entries : List (String × String)} {tokens : List (String × List Token)}
    (h : List.Forall₂ SpellsEntry entries tokens) (size : Nat) :
    Written (dictionary (head size entries)) (streamEntries size tokens) :=
  ⟨_, rfl, .cons (spellsEntry (by decide) (spellsValue_number size))
    (List.rel_append h (.cons (spellsEntry (by decide) (spellsValue_name (by decide))) .nil))⟩

theorem hasStream [Compressor] {objects : ObjectList} {number : Nat} {entries : List (String × String)}
    {tokens : List (String × List Token)} {data : Bytes}
    (found : objects.get? number = some (stream entries data))
    (spelled : List.Forall₂ SpellsEntry entries tokens)
    (unmarked : ∀ entry ∈ entries, Unmarked entry.1 ∧ Unmarked entry.2)
    (free : references (dictionaryTokens (streamEntries (deflated data).size tokens)) = []) :
    HasStream objects number tokens data := by
  have written := written_head spelled (deflated data).size
  have newline : SpellsText "\n" [] := fun behind => lex_blank (b := 10) rfl behind
  have front := written.spells.append newline
  rw [List.append_nil] at front
  have headUnmarked : Unmarked (dictionary (head (deflated data).size entries) ++ "\n") := by
    refine unmarked_append.2 ⟨unmarked_dictionary fun entry mem => ?_, by decide +kernel⟩
    rw [head, List.cons_append, List.mem_cons, List.mem_append, List.mem_singleton] at mem
    rcases mem with rfl | mem | rfl
    · exact ⟨show Unmarked "Length" by decide +kernel, unmarked_number _⟩
    · exact unmarked entry mem
    · exact ⟨show Unmarked "Filter" by decide +kernel,
        show Unmarked (name "FlateDecode") by decide +kernel⟩
  refine ⟨Bytes.ofText (dictionary (head (deflated data).size entries) ++ "\n"), ?_,
    Compressor.inflate?_compress 6 data, ?_, front.lex_eq, written.isValue, free⟩
  · rw [found, stream, ← head]
    refine congrArg some (Array.toList_inj.1 ?_)
    have lines : (Bytes.ofText "\nstream\n").toList =
        (Bytes.ofText "\n").toList ++ (Bytes.ofText "stream\n").toList := by decide +kernel
    simp [Bytes.toList_concat, Bytes.toList_ofText_append, lines]
  · intro inside
    have first : 's'.toUInt8 ∈ (Bytes.ofText "stream").toList := by decide +kernel
    exact headUnmarked (inside.subset first)

/-! ## All objects of a font -/

/-- The numbers of the objects from `first` on. -/
def fontNumbers (first : Nat) (e : Embedding) : FontObjects where
  fontFile := first
  descriptor := first + 1
  descendant := first + 2
  toUnicode := e.toUnicode.map fun _ => first + 3
  font := first + (3 + e.toUnicode.toList.length)

/-- The objects of a font that has the numbers from `first` on. -/
def fontBodies [Compressor] (first : Nat) (e : Embedding) : List Bytes :=
  let title := fontName e.fontName
  [stream [("Length1", toString e.fontData.size)] e.fontData,
    Bytes.ofText (descriptorText title e.descriptor first),
    Bytes.ofText (descendantText title e.widths (first + 1))] ++
    e.toUnicode.toList.map (fun map => stream [] (Bytes.ofText map)) ++
    [Bytes.ofText (fontText title (first + 2) (fontNumbers first e).toUnicode)]

theorem addFont_eq [Compressor] (before : ObjectList) (e : Embedding) :
    addFont before e = (fontNumbers (before.size + 1) e,
      ⟨before.bodies ++ (fontBodies (before.size + 1) e).toArray⟩) := by
  rw [addFont, fontBodies, fontNumbers]
  cases e.toUnicode <;>
    simp [addToUnicode, ObjectList.add, ObjectList.size, Nat.add_assoc, ← Array.toList_inj]

section
variable {before : ObjectList} {bodies : List Bytes} {number : Nat}

theorem get?_append_of_le (old : number ≤ before.size) :
    (ObjectList.mk (before.bodies ++ bodies.toArray)).get? number = before.get? number := by
  unfold ObjectList.get?
  split
  · rfl
  · rw [ObjectList.size] at old
    rw [Array.getElem?_append_left (by omega)]

theorem get?_append (before : ObjectList) (bodies : List Bytes) (i : Nat) :
    (ObjectList.mk (before.bodies ++ bodies.toArray)).get? (before.size + 1 + i) = bodies[i]? := by
  rw [ObjectList.get?, if_neg (by omega), ObjectList.size,
    Array.getElem?_append_right (by omega), List.getElem?_toArray]
  congr 1
  omega

end

theorem hasFont_addFont [Compressor] (before : ObjectList) {e : Embedding} {runs : List WidthRun}
    (widths : e.widths = widthArray runs) (finite : e.descriptor.italicAngle.isFinite)
    (integral : e.descriptor.italicAngle.isIntegral) :
    HasFont before e runs (addFont before e).1 (addFont before e).2 := by
  have kept := kept_fontName e.fontName
  have length1 : List.Forall₂ SpellsEntry [("Length1", toString e.fontData.size)]
      [("Length1", [CodeMap.number e.fontData.size])] :=
    .cons (spellsEntry (by decide) (spellsValue_number _)) .nil
  have body := get?_append before (fontBodies (before.size + 1) e)
  have last : (fontBodies (before.size + 1) e)[3 + e.toUnicode.toList.length]? =
      some (Bytes.ofText (fontText (fontName e.fontName) (before.size + 1 + 2)
        (fontNumbers (before.size + 1) e).toUnicode)) := by
    cases map : e.toUnicode <;> simp [fontBodies, map]
  rw [addFont_eq]
  exact {
    earlier := fun number old => get?_append_of_le old
    appended := by
      cases map : e.toUnicode <;>
        simp [fontNumbers, fontBodies, map, ObjectList.size, List.range'_succ, Nat.add_assoc]
    fontFile := by
      refine hasStream (body 0) length1 ?_ ?_
      · simp only [List.mem_singleton, forall_eq]
        exact ⟨by decide +kernel, unmarked_number _⟩
      · simp [streamEntries, dictionaryTokens, references]
    descriptor := hasDictionary (body 1) (written_descriptorText kept finite integral _)
      (references_descriptor _ _ _)
    descendant := hasDictionary (body 2) (widths ▸ written_descendantText kept runs _)
      (references_descendant _ _ _)
    toUnicode := by
      rw [fontNumbers]
      cases map : e.toUnicode with
      | none => exact .none
      | some text =>
        refine .some (hasStream ((body 3).trans (by simp [fontBodies, map])) .nil (by simp) ?_)
        simp [streamEntries, dictionaryTokens, references]
    font := hasDictionary ((body (3 + e.toUnicode.toList.length)).trans last)
      (written_fontText kept _ _) (references_font _ _ _) }

/-- The objects of a font stand behind those that are there and refer to each other. Its name is
one token of their dictionaries, whose other tokens do not depend on it. -/
theorem hasFont_writeFont [Compressor] (before : ObjectList) {e : Embedding} {runs : List WidthRun}
    (widths : e.widths = widthArray runs) (finite : e.descriptor.italicAngle.isFinite)
    (integral : e.descriptor.italicAngle.isIntegral) :
    HasFont before e runs (writeFont before e).value.1 (writeFont before e).value.2 :=
  hasFont_addFont before widths finite integral

/-! ## A stray name -/

/-- A font whose name would end its dictionaries. -/
def strayNamed : Embedding where
  fontName := "A/B (C) >> /FontFile2 1 0 R"
  fontData := #[0, 1, 0, 0]
  isSubset := false
  widths := some "[3[500 600]10[250]]"
  toUnicode := some "begincmap"
  descriptor := {
    flags := 32
    bounds := ⟨-50, -210, 950, 890⟩
    italicAngle := ⟨0xC028000000000000⟩
    ascent := 800
    descent := -200
    capHeight := 700
    stemWidth := 80 }

/-- Short data and their streams, each of one block in the codes of fixed lengths. -/
def shortStreams : List (Bytes × Bytes) := [
  (strayNamed.fontData,
    #[0x78, 0x9C, 0x63, 0x60, 0x64, 0x60, 0x00, 0x00, 0x00, 0x07, 0x00, 0x02]),
  (Bytes.ofText "begincmap",
    #[0x78, 0x9C, 0x4B, 0x4A, 0x4D, 0xCF, 0xCC, 0x4B, 0xCE, 0x4D, 0x2C, 0x00, 0x00, 0x12, 0x15,
      0x03, 0xA7])]

def shortStream? (data : Bytes) : Option Bytes :=
  (shortStreams.find? (·.1 = data)).map (·.2)

def shortData? (stream : Bytes) : Option Bytes :=
  (shortStreams.find? (·.2 = stream)).map (·.1)

theorem shortData?_of_shortStream? {data stream : Bytes} (h : shortStream? data = some stream) :
    shortData? stream = some data := by
  have known : ∀ entry ∈ shortStreams, shortData? entry.2 = some entry.1 := by
    simp only [shortStreams, List.forall_mem_cons]
    exact ⟨by decide +kernel, by decide +kernel, List.forall_mem_nil _⟩
  obtain ⟨entry, found, rfl⟩ := Option.map_eq_some_iff.1 h
  have same := List.find?_some found
  rw [decide_eq_true_eq] at same
  exact same ▸ known entry (List.mem_of_find?_eq_some found)

/-- Stored streams begin with another byte about the level. -/
theorem shortData?_encode (data : Bytes) : shortData? (Zlib.encode data) = none := by
  have other : ∀ entry ∈ shortStreams, entry.2.toList.take 2 ≠ Zlib.header := by
    simp only [shortStreams, List.forall_mem_cons]
    exact ⟨by decide, by decide, List.forall_mem_nil _⟩
  refine Option.map_eq_none_iff.2 (List.find?_eq_none.2 fun entry mem same => ?_)
  rw [decide_eq_true_eq] at same
  exact other entry mem (by rw [same]; rfl)

/-- A compressor that knows the streams of some short data and stores all other data. -/
@[reducible]
def shortCompressor : Compressor where
  compress _ data := (shortStream? data).getD (Zlib.encode data)
  inflate? stream := (shortData? stream).or (Zlib.decode? stream)
  inflate?_compress _ data := by
    cases short : shortStream? data with
    | some stream => rw [Option.getD_some, shortData?_of_shortStream? short, Option.some_or]
    | none => rw [Option.getD_none, shortData?_encode, Option.none_or, Zlib.decode?_encode]

theorem hasFont_writeFont_strayNamed :
    fontName strayNamed.fontName = "ABCFontFile210R" ∧
      strayNamed.widths = widthArray [⟨3, [500, 600]⟩, ⟨10, [250]⟩] ∧
      @HasFont shortCompressor ⟨#[#[], #[]]⟩ strayNamed [⟨3, [500, 600]⟩, ⟨10, [250]⟩]
        ⟨7, 5, 4, 3, some 6⟩ (@writeFont shortCompressor ⟨#[#[], #[]]⟩ strayNamed).value.2 := by
  have widths : strayNamed.widths = widthArray [⟨3, [500, 600]⟩, ⟨10, [250]⟩] := by decide +kernel
  exact ⟨by decide +kernel, widths, @hasFont_writeFont shortCompressor ⟨#[#[], #[]]⟩ _ _ widths
    (by decide +kernel) (by decide +kernel)⟩

end Pdf

end FontSubset
