import FontSubset.Proofs.Bytes
import FontSubset.Substitution.Rule
import Mathlib.Data.List.Sort

/-!
# Substitution rules by their bytes

What the bytes of a lookup list say, without the readers: `Coverage` lists the glyphs of a coverage
table, `SingleRules` and `LigatureRules` the rules of a subtable of either kind, and `Collected`
those of all lookups. Each reader succeeds with what is said there and fails where nothing is, up
to `readRules_eq_ok` for the whole list.

Positions are relative to the structure that an offset stands in. A format that is not known says
nothing, and so does a lookup of another type.
-/

namespace FontSubset.Substitution

/-- The glyphs from `first` to `last`, in ascending order. -/
structure GlyphsBetween (first last : GlyphId) (glyphs : List GlyphId) : Prop where
  ascending : glyphs.Pairwise (· < ·)
  mem_iff : ∀ glyph, glyph ∈ glyphs ↔ first ≤ glyph ∧ glyph ≤ last

/-- The glyphs of a range record at `pos`. Its third field, the number of the first one, is not looked
at. -/
def RangeRecord (data : Bytes) (pos : Nat) (glyphs : List GlyphId) : Prop :=
  ∃ first last, data.Words pos [first, last] ∧ GlyphsBetween first last glyphs

/-- The glyphs of a coverage table at `pos`, in its order. -/
inductive Coverage (data : Bytes) (pos : Nat) : List GlyphId → Prop
  | listed {glyphs : List GlyphId} (header : data.Words pos [1])
    (listed : data.Counted (pos + 2) glyphs) : Coverage data pos glyphs
  | ranges {count : UInt16} {ranges : List (List GlyphId)} (header : data.Words pos [2, count])
    (records : List.Forall₂ (fun i => RangeRecord data (pos + 4 + 6 * i))
      (List.range count.toNat) ranges) : Coverage data pos ranges.flatten
  | unknown {format count : UInt16} (header : data.Words pos [format, count])
    (other : format ∉ [1, 2]) : Coverage data pos []

/-- The rules of a single substitution at `pos`. -/
inductive SingleRules (data : Bytes) (pos : Nat) : List SubstitutionRule → Prop
  | distance {coverage distance : UInt16} {glyphs : List GlyphId}
    (header : data.Words pos [1, coverage, distance])
    (covered : Coverage data (pos + coverage.toNat) glyphs) :
    SingleRules data pos (glyphs.map fun glyph => ⟨glyph + distance, [glyph]⟩)
  | listed {coverage : UInt16} {substitutes glyphs : List GlyphId}
    (header : data.Words pos [2, coverage]) (listed : data.Counted (pos + 4) substitutes)
    (covered : Coverage data (pos + coverage.toNat) glyphs) :
    SingleRules data pos
      (List.zipWith (fun glyph substitute => ⟨substitute, [glyph]⟩) glyphs substitutes)
  | unknown {format coverage : UInt16} (header : data.Words pos [format, coverage])
    (other : format ∉ [1, 2]) : SingleRules data pos []

/-- A ligature at `pos` that begins with `first`. Its count takes in the first glyph. -/
def Ligature (data : Bytes) (first : GlyphId) (pos : Nat) (rule : SubstitutionRule) : Prop :=
  ∃ glyph count others, others.length = count.toNat - 1 ∧
    data.Words pos (glyph :: count :: others) ∧ rule = ⟨glyph, first :: others⟩

/-- The ligatures at `pos` that begin with `first`. -/
def LigatureSet (data : Bytes) (first : GlyphId) (pos : Nat) (rules : List SubstitutionRule) :
    Prop :=
  ∃ offsets, data.Counted pos offsets ∧
    List.Forall₂ (fun offset => Ligature data first (pos + offset.toNat)) offsets rules

/-- The rules of a ligature substitution at `pos`. -/
inductive LigatureRules (data : Bytes) (pos : Nat) : List SubstitutionRule → Prop
  | sets {coverage : UInt16} {offsets : List UInt16} {firsts : List GlyphId}
    {parts : List (List SubstitutionRule)} (header : data.Words pos [1, coverage])
    (listed : data.Counted (pos + 4) offsets)
    (covered : Coverage data (pos + coverage.toNat) firsts)
    (each : List.Forall₂ (fun entry => LigatureSet data entry.1 (pos + entry.2.toNat))
      (firsts.zip offsets) parts) : LigatureRules data pos parts.flatten
  | unknown {format : UInt16} (header : data.Words pos [format]) (other : format ≠ 1) :
    LigatureRules data pos []

/-- The rules of a subtable of a lookup of some type. -/
inductive SubtableRules (data : Bytes) : UInt16 → Nat → List SubstitutionRule → Prop
  | single {pos : Nat} {rules : List SubstitutionRule} (inner : SingleRules data pos rules) :
    SubtableRules data 1 pos rules
  | ligatures {pos : Nat} {rules : List SubstitutionRule} (inner : LigatureRules data pos rules) :
    SubtableRules data 4 pos rules
  | extension {pos : Nat} {kind : UInt16} {offset : UInt32} {rules : List SubstitutionRule}
    (wrapped : data.Words (pos + 2) [kind]) (place : data.Holds (pos + 4) (be32 offset))
    (plain : kind ≠ 7) (inner : SubtableRules data kind (pos + offset.toNat) rules) :
    SubtableRules data 7 pos rules
  | nested {pos : Nat} {offset : UInt32} (wrapped : data.Words (pos + 2) [7])
    (place : data.Holds (pos + 4) (be32 offset)) : SubtableRules data 7 pos []
  | unused {pos : Nat} {kind : UInt16} (other : kind ∉ [1, 4, 7]) : SubtableRules data kind pos []

/-- The rules of the lookup at `pos`. -/
def LookupRules (data : Bytes) (pos : Nat) (rules : List SubstitutionRule) : Prop :=
  ∃ kind offsets parts, data.Words pos [kind] ∧ data.Counted (pos + 4) offsets ∧
    List.Forall₂ (fun offset => SubtableRules data kind (pos + offset.toNat)) offsets parts ∧
    parts.flatten = rules

/-- The rules of the lookup list at `pos`, in the order of the table. -/
def Collected (data : Bytes) (pos : Nat) (rules : List SubstitutionRule) : Prop :=
  ∃ offsets parts, data.Counted pos offsets ∧
    List.Forall₂ (fun offset => LookupRules data (pos + offset.toNat)) offsets parts ∧
    parts.flatten = rules

/-! ## Coverage tables -/

section
variable {first last : GlyphId} {glyphs glyphs' : List GlyphId}

theorem GlyphsBetween.unique (between : GlyphsBetween first last glyphs)
    (between' : GlyphsBetween first last glyphs') : glyphs = glyphs' :=
  between.ascending.eq_of_mem_iff between'.ascending fun glyph =>
    (between.mem_iff glyph).trans (between'.mem_iff glyph).symm

theorem toNat_ofNat_between {i : Nat} (inside : i < last.toNat + 1 - first.toNat) :
    (UInt16.ofNat (first.toNat + i)).toNat = first.toNat + i := by
  have le : first.toNat + i ≤ last.toNat := by omega
  exact UInt16.toNat_ofNat_of_lt' (Nat.lt_of_le_of_lt le last.toNat_lt)

theorem glyphsBetween_glyphRange (first last : GlyphId) :
    GlyphsBetween first last (glyphRange first last) where
  ascending := by
    refine List.pairwise_map.2 (List.pairwise_lt_range.imp_of_mem ?_)
    intro i j mem mem' less
    rw [UInt16.lt_iff_toNat_lt, toNat_ofNat_between (List.mem_range.1 mem),
      toNat_ofNat_between (List.mem_range.1 mem')]
    exact Nat.add_lt_add_left less _
  mem_iff glyph := by
    simp only [glyphRange, List.mem_map, List.mem_range, UInt16.le_iff_toNat_le]
    constructor
    · rintro ⟨i, inside, rfl⟩
      rw [toNat_ofNat_between inside]
      omega
    · rintro ⟨low, high⟩
      refine ⟨glyph.toNat - first.toNat, by omega, ?_⟩
      rw [Nat.add_sub_cancel' low, UInt16.ofNat_toNat]

theorem glyphRange_eq_iff : glyphRange first last = glyphs ↔ GlyphsBetween first last glyphs := by
  constructor
  · rintro rfl
    exact glyphsBetween_glyphRange first last
  · exact (glyphsBetween_glyphRange first last).unique

end

section
variable {data : Bytes} {pos : Nat} {glyphs : List GlyphId}

theorem readRange_eq_ok : readRange data pos = .ok glyphs ↔ RangeRecord data pos glyphs := by
  simp only [readRange, bind_eq_ok, pure_eq_ok, glyphRange_eq_iff, RangeRecord, Bytes.words_pair]
  constructor
  · rintro ⟨first, low, last, high, between⟩
    exact ⟨first, last, ⟨low, high⟩, between⟩
  · rintro ⟨first, last, ⟨low, high⟩, between⟩
    exact ⟨first, low, last, high, between⟩

theorem readCoverage_eq_ok :
    (readCoverage data pos).result = .ok glyphs ↔ Coverage data pos glyphs := by
  simp only [readCoverage, Traced.result_bind, Traced.result_lift, bind_eq_ok]
  constructor
  · rintro ⟨format, here, count, next, run⟩
    split at run
    · exact .listed (Bytes.words_singleton.2 here) (Bytes.counted_iff.2 ⟨count, next, run⟩)
    · simp only [Traced.result_bind, Traced.result_mapM, Traced.result_lift, bind_eq_ok, mapM_eq_ok,
        readRange_eq_ok] at run
      obtain ⟨ranges, records, ⟨⟩⟩ := run
      exact .ranges (Bytes.words_pair.2 ⟨here, next⟩) records
    · rename_i listed ranges
      cases Except.ok.inj run
      exact .unknown (Bytes.words_pair.2 ⟨here, next⟩) (by simpa using ⟨listed, ranges⟩)
  · rintro (⟨header, listed⟩ | ⟨header, records⟩ | ⟨header, other⟩)
    · obtain ⟨count, next, listed⟩ := Bytes.counted_iff.1 listed
      exact ⟨1, Bytes.words_singleton.1 header, count, next, listed⟩
    · obtain ⟨here, next⟩ := Bytes.words_pair.1 header
      refine ⟨2, here, _, next, ?_⟩
      simp only [Traced.result_bind, Traced.result_mapM, Traced.result_lift, bind_eq_ok, mapM_eq_ok,
        readRange_eq_ok]
      exact ⟨_, records, rfl⟩
    · obtain ⟨here, next⟩ := Bytes.words_pair.1 header
      refine ⟨_, here, _, next, ?_⟩
      split
      · exact absurd other (by decide)
      · exact absurd other (by decide)
      · rfl

example : Coverage #[0, 2, 0, 1, 0, 5, 0, 7, 0, 0] 0 [5, 6, 7] :=
  readCoverage_eq_ok.1 (by decide +kernel)

end

/-! ## Subtables -/

section
variable {data : Bytes} {pos : Nat} {rules : List SubstitutionRule}

theorem positions_eq_ok {base : Nat} {places : List Nat} : positions data pos base = .ok places ↔
    ∃ offsets, data.Counted pos offsets ∧ offsets.map (base + ·.toNat) = places := by
  simp only [positions, bind_eq_ok, pure_eq_ok, Bytes.counted_iff]
  constructor
  · rintro ⟨count, here, offsets, listed, same⟩
    exact ⟨offsets, ⟨count, here, listed⟩, same⟩
  · rintro ⟨offsets, ⟨count, here, listed⟩, same⟩
    exact ⟨count, here, offsets, listed, same⟩

theorem readSingle_eq_ok :
    (readSingle data pos).result = .ok rules ↔ SingleRules data pos rules := by
  simp only [readSingle, Traced.result_bind, Traced.result_lift, bind_eq_ok]
  constructor
  · rintro ⟨format, here, coverage, next, run⟩
    split at run
    · simp only [Traced.result_bind, Traced.result_lift, bind_eq_ok, readCoverage_eq_ok] at run
      obtain ⟨distance, last, glyphs, covered, ⟨⟩⟩ := run
      exact .distance (Bytes.words_cons.2 ⟨here, Bytes.words_pair.2 ⟨next, last⟩⟩) covered
    · simp only [Traced.result_bind, Traced.result_lift, bind_eq_ok, readCoverage_eq_ok] at run
      obtain ⟨count, number, substitutes, listed, glyphs, covered, ⟨⟩⟩ := run
      exact .listed (Bytes.words_pair.2 ⟨here, next⟩)
        (Bytes.counted_iff.2 ⟨count, number, listed⟩) covered
    · rename_i distance listed
      cases Except.ok.inj run
      exact .unknown (Bytes.words_pair.2 ⟨here, next⟩) (by simpa using ⟨distance, listed⟩)
  · rintro (⟨header, covered⟩ | ⟨header, listed, covered⟩ | ⟨header, other⟩)
    · obtain ⟨here, header⟩ := Bytes.words_cons.1 header
      obtain ⟨next, last⟩ := Bytes.words_pair.1 header
      refine ⟨1, here, _, next, ?_⟩
      simp only [Traced.result_bind, Traced.result_lift, bind_eq_ok, readCoverage_eq_ok]
      exact ⟨_, last, _, covered, rfl⟩
    · obtain ⟨here, next⟩ := Bytes.words_pair.1 header
      obtain ⟨count, number, listed⟩ := Bytes.counted_iff.1 listed
      refine ⟨2, here, _, next, ?_⟩
      simp only [Traced.result_bind, Traced.result_lift, bind_eq_ok, readCoverage_eq_ok]
      exact ⟨count, number, _, listed, _, covered, rfl⟩
    · obtain ⟨here, next⟩ := Bytes.words_pair.1 header
      refine ⟨_, here, _, next, ?_⟩
      split
      · exact absurd other (by decide)
      · exact absurd other (by decide)
      · rfl

theorem readLigature_eq_ok {first : GlyphId} {rule : SubstitutionRule} :
    readLigature data first pos = .ok rule ↔ Ligature data first pos rule := by
  simp only [readLigature, bind_eq_ok, pure_eq_ok, Ligature]
  constructor
  · rintro ⟨glyph, here, count, next, others, listed, rfl⟩
    have start : pos + 4 ≤ data.size := (Bytes.u16At_eq_ok.1 next).size_le
    obtain ⟨length, listed⟩ := (Bytes.u16sAt_eq_ok start).1 listed
    exact ⟨glyph, count, others, length,
      Bytes.words_cons.2 ⟨here, Bytes.words_cons.2 ⟨next, listed⟩⟩, rfl⟩
  · rintro ⟨glyph, count, others, length, fields, rfl⟩
    obtain ⟨here, fields⟩ := Bytes.words_cons.1 fields
    obtain ⟨next, listed⟩ := Bytes.words_cons.1 fields
    exact ⟨glyph, here, count, next, others,
      (Bytes.u16sAt_eq_ok listed.start_le).2 ⟨length, listed⟩, rfl⟩

theorem readLigatureSet_eq_ok {first : GlyphId} :
    readLigatureSet data first pos = .ok rules ↔ LigatureSet data first pos rules := by
  simp only [readLigatureSet, bind_eq_ok, positions_eq_ok, mapM_eq_ok, readLigature_eq_ok,
    LigatureSet]
  constructor
  · rintro ⟨_, ⟨offsets, listed, rfl⟩, each⟩
    exact ⟨offsets, listed, List.forall₂_map_left_iff.1 each⟩
  · rintro ⟨offsets, listed, each⟩
    exact ⟨_, ⟨offsets, listed, rfl⟩, List.forall₂_map_left_iff.2 each⟩

theorem readLigatures_eq_ok :
    (readLigatures data pos).result = .ok rules ↔ LigatureRules data pos rules := by
  simp only [readLigatures, Traced.result_bind, Traced.result_lift, bind_eq_ok]
  constructor
  · rintro ⟨format, here, run⟩
    split at run
    · rename_i known
      subst known
      simp only [Traced.result_bind, Traced.result_mapM, Traced.result_lift, bind_eq_ok, mapM_eq_ok,
        readCoverage_eq_ok, readLigatureSet_eq_ok, positions_eq_ok] at run
      obtain ⟨coverage, next, _, ⟨offsets, listed, rfl⟩, firsts, covered, parts, each, ⟨⟩⟩ := run
      rw [List.zip_map_right, List.forall₂_map_left_iff] at each
      exact .sets (Bytes.words_pair.2 ⟨here, next⟩) listed covered each
    · rename_i other
      cases Except.ok.inj run
      exact .unknown (Bytes.words_singleton.2 here) other
  · rintro (⟨header, listed, covered, each⟩ | ⟨header, other⟩)
    · obtain ⟨here, next⟩ := Bytes.words_pair.1 header
      refine ⟨1, here, ?_⟩
      rw [if_pos rfl]
      simp only [Traced.result_bind, Traced.result_mapM, Traced.result_lift, bind_eq_ok, mapM_eq_ok,
        readCoverage_eq_ok, readLigatureSet_eq_ok, positions_eq_ok]
      refine ⟨_, next, _, ⟨_, listed, rfl⟩, _, covered, _, ?_, rfl⟩
      rw [List.zip_map_right, List.forall₂_map_left_iff]
      exact each
    · refine ⟨_, Bytes.words_singleton.1 header, ?_⟩
      rw [if_neg other]
      rfl

variable {kind : UInt16}

theorem readPlain_eq_ok (plain : kind ≠ extension) :
    (readPlain data kind pos).result = .ok rules ↔ SubtableRules data kind pos rules := by
  unfold readPlain
  split
  · rw [readSingle_eq_ok]
    constructor
    · exact .single
    · rintro (inner | _ | _ | _ | other)
      · exact inner
      · exact absurd other (by decide)
  · rw [readLigatures_eq_ok]
    constructor
    · exact .ligatures
    · rintro (_ | inner | _ | _ | other)
      · exact inner
      · exact absurd other (by decide)
  · rename_i single ligature
    constructor
    · intro run
      cases Except.ok.inj run
      exact .unused (by simpa using ⟨single, ligature, plain⟩)
    · rintro (_ | _ | _ | _ | _)
      · exact absurd rfl single
      · exact absurd rfl ligature
      · exact absurd rfl plain
      · exact absurd rfl plain
      · rfl

theorem readSubtable_eq_ok :
    (readSubtable data kind pos).result = .ok rules ↔ SubtableRules data kind pos rules := by
  unfold readSubtable
  split
  · rename_i same
    subst same
    simp only [Traced.result_bind, Traced.result_lift, bind_eq_ok, ← Bytes.words_singleton,
      Bytes.u32At_eq_ok]
    constructor
    · rintro ⟨wrapped, kind, offset, place, run⟩
      split at run
      · rename_i nested
        subst nested
        cases Except.ok.inj run
        exact .nested kind place
      · rename_i plain
        exact .extension kind place plain ((readPlain_eq_ok plain).1 run)
    · rintro (_ | _ | ⟨wrapped, place, plain, inner⟩ | ⟨wrapped, place⟩ | other)
      · refine ⟨_, wrapped, _, place, ?_⟩
        split
        · rename_i nested
          exact absurd nested plain
        · exact (readPlain_eq_ok plain).2 inner
      · exact ⟨_, wrapped, _, place, rfl⟩
      · exact absurd other (by decide)
  · rename_i plain
    exact readPlain_eq_ok plain

/-! ## Lookups -/

theorem readLookup_eq_ok :
    (readLookup data pos).result = .ok rules ↔ LookupRules data pos rules := by
  simp only [readLookup, Traced.result_bind, Traced.result_lift, Traced.result_collect, bind_eq_ok,
    map_eq_ok, mapM_eq_ok, positions_eq_ok, readSubtable_eq_ok, LookupRules,
    Bytes.words_singleton]
  constructor
  · rintro ⟨kind, here, _, ⟨offsets, listed, rfl⟩, parts, each, rfl⟩
    exact ⟨kind, offsets, parts, here, listed, List.forall₂_map_left_iff.1 each, rfl⟩
  · rintro ⟨kind, offsets, parts, here, listed, each, rfl⟩
    exact ⟨kind, here, _, ⟨offsets, listed, rfl⟩, parts, List.forall₂_map_left_iff.2 each, rfl⟩

theorem readRules_eq_ok :
    (readRules data pos).result = .ok rules ↔ Collected data pos rules := by
  simp only [readRules, Traced.result_bind, Traced.result_lift, Traced.result_collect, bind_eq_ok,
    map_eq_ok, mapM_eq_ok, positions_eq_ok, readLookup_eq_ok, Collected]
  constructor
  · rintro ⟨_, ⟨offsets, listed, rfl⟩, parts, each, rfl⟩
    exact ⟨offsets, parts, listed, List.forall₂_map_left_iff.1 each, rfl⟩
  · rintro ⟨offsets, parts, listed, each, rfl⟩
    exact ⟨_, ⟨offsets, listed, rfl⟩, parts, List.forall₂_map_left_iff.2 each, rfl⟩

end

end FontSubset.Substitution
