import FontSubset.CodeMap.Collection
import FontSubset.Proofs.CodeMap.CidEntries
import FontSubset.Proofs.TableEntries

/-!
# Texts of a character collection

* `CidTexts.load_inverts`: the text of a CID is the lowest character that has it. It depends on the
  final CIDs of the characters alone, not on the order in which they are listed nor on the entries
  that they come from.
-/

namespace FontSubset

namespace CodeMap

/-- The characters that have CIDs, in order. -/
def characters (m : CodeMap) : List (Char × UInt32) :=
  m.cids.toList.filterMap fun pair => (Text.scalar? pair.1).map (·, pair.2)

theorem mem_characters {m : CodeMap} {c : Char} {cid : UInt32} :
    (c, cid) ∈ m.characters ↔ m.cids[c.val]? = some cid := by
  rw [characters, List.mem_filterMap, ← Std.TreeMap.mem_toList_iff_getElem?_eq_some]
  constructor
  · rintro ⟨⟨code, cid'⟩, mem, found⟩
    obtain ⟨c', scalar, same⟩ := Option.map_eq_some_iff.1 found
    cases same
    rwa [Text.scalar?_eq_some_iff.1 scalar]
  · intro mem
    exact ⟨(c.val, cid), mem, by rw [Text.scalar?_eq_some_iff.2 rfl]; rfl⟩

theorem pairwise_characters (m : CodeMap) : m.characters.Pairwise fun a b => a.1 < b.1 := by
  refine (pairwise_toList m.cids).filterMap _ ?_
  rintro ⟨code, cid⟩ ⟨code', cid'⟩ less a found b found'
  obtain ⟨c, scalar, rfl⟩ := Option.map_eq_some_iff.1 found
  obtain ⟨c', scalar', rfl⟩ := Option.map_eq_some_iff.1 found'
  obtain rfl := Text.scalar?_eq_some_iff.1 scalar
  obtain rfl := Text.scalar?_eq_some_iff.1 scalar'
  exact less

theorem le_of_find? {m : CodeMap} {cid : UInt32} {entry : Char × UInt32} {c : Char}
    (found : (m.characters.find? fun entry => entry.2 = cid) = some entry)
    (has : m.cids[c.val]? = some cid) : entry.1 ≤ c := by
  rcases rel_of_find? m.pairwise_characters found (mem_characters.2 has)
    (decide_eq_true rfl) with same | less
  · exact UInt32.le_of_eq (congrArg (·.1.val) same).symm
  · exact UInt32.le_of_lt less

theorem toList_cids_congr {m m' : CodeMap} (same : ∀ code : UInt32, m.cids[code]? = m'.cids[code]?) :
    m.cids.toList = m'.cids.toList :=
  Std.TreeMap.equiv_iff_toList_eq.1 (.of_forall_constGet?_eq same)

end CodeMap

namespace CidTexts

/-- Takes in a character code with its CID. -/
def note (texts : CidTexts) (pair : UInt32 × UInt32) : CidTexts :=
  (Text.scalar? pair.1).elim texts fun c => texts.insertIfNew pair.2 c.toString

theorem ofCodeMap_eq_foldl (m : CodeMap) : ofCodeMap m = m.cids.toList.foldl note ∅ := by
  rw [ofCodeMap]
  congr
  funext texts ⟨code, cid⟩
  dsimp only [note]
  cases Text.scalar? code <;> rfl

/-- A CID has the text of the first character in order that has it. -/
theorem getElem?_ofCodeMap (m : CodeMap) (cid : UInt32) : (ofCodeMap m)[cid]? =
    (m.characters.find? fun entry => entry.2 = cid).map (·.1.toString) := by
  have filled : ofCodeMap m = m.characters.foldl
      (fun texts entry => texts.insertIfNew entry.2 entry.1.toString) ∅ := by
    rw [ofCodeMap_eq_foldl, CodeMap.characters, List.foldl_filterMap]
    congr
    funext texts pair
    rw [note]
    cases Text.scalar? pair.1 <;> rfl
  have first := getElem?_foldl_insertIfNew (fun entry : Char × UInt32 => entry.2)
    (fun entry => entry.1.toString) m.characters ∅ cid
  rw [filled]
  exact first.trans (by simp)

theorem getElem?_ofCodeMap_eq_some {m : CodeMap} {cid : UInt32} {text : String} :
    (ofCodeMap m)[cid]? = some text ↔ ∃ c : Char, text = c.toString ∧
      m.cids[c.val]? = some cid ∧ ∀ c' : Char, m.cids[c'.val]? = some cid → c ≤ c' := by
  rw [getElem?_ofCodeMap, Option.map_eq_some_iff]
  constructor
  · rintro ⟨⟨c, cid'⟩, found, rfl⟩
    obtain rfl : cid' = cid := by simpa using List.find?_some found
    exact ⟨c, rfl, CodeMap.mem_characters.1 (List.mem_of_find?_eq_some found),
      fun c' has => CodeMap.le_of_find? found has⟩
  · rintro ⟨c, rfl, has, least⟩
    have isSome : (m.characters.find? fun entry => entry.2 = cid).isSome :=
      List.find?_isSome.2 ⟨(c, cid), CodeMap.mem_characters.2 has, decide_eq_true rfl⟩
    obtain ⟨⟨c', cid'⟩, found⟩ := Option.isSome_iff_exists.1 isSome
    obtain rfl : cid' = cid := by simpa using List.find?_some found
    have has' := CodeMap.mem_characters.1 (List.mem_of_find?_eq_some found)
    refine ⟨_, found, congrArg Char.toString ?_⟩
    exact Char.le_antisymm (CodeMap.le_of_find? found has) (least c' has')

theorem mem_ofCodeMap {m : CodeMap} {cid : UInt32} :
    cid ∈ ofCodeMap m ↔ ∃ c : Char, m.cids[c.val]? = some cid := by
  rw [Std.TreeMap.mem_iff_isSome_getElem?, getElem?_ofCodeMap, Option.isSome_map,
    List.find?_isSome]
  constructor
  · rintro ⟨⟨c, cid'⟩, mem, same⟩
    obtain rfl : cid' = cid := by simpa using same
    exact ⟨c, CodeMap.mem_characters.1 mem⟩
  · rintro ⟨c, has⟩
    exact ⟨(c, cid), CodeMap.mem_characters.2 has, decide_eq_true rfl⟩

/-! ## The order in which characters are listed -/

/-- Pairs are ordered by their codes, and those of one code by their CIDs. -/
def pairOrder (a b : UInt32 × UInt32) : Bool :=
  a.1 < b.1 ∨ a.1 = b.1 ∧ a.2 ≤ b.2

/-- Pairs of a code and its CID, listed in any order, read backwards in their own. -/
def ofPairs (pairs : List (UInt32 × UInt32)) : CidTexts :=
  (pairs.mergeSort pairOrder).foldl note ∅

theorem pairOrder_iff {a b : UInt32 × UInt32} : pairOrder a b ↔
    a.1.toNat < b.1.toNat ∨ a.1.toNat = b.1.toNat ∧ a.2.toNat ≤ b.2.toNat := by
  rw [pairOrder, decide_eq_true_eq, UInt32.lt_iff_toNat_lt, ← UInt32.toNat_inj,
    UInt32.le_iff_toNat_le]

theorem mergeSort_eq_toList {m : CodeMap} {pairs : List (UInt32 × UInt32)}
    (listed : pairs.Perm m.cids.toList) : pairs.mergeSort pairOrder = m.cids.toList := by
  have sorted : (pairs.mergeSort pairOrder).Pairwise fun a b => pairOrder a b := by
    refine List.pairwise_mergeSort ?_ ?_ pairs
    · intro a b c before behind
      rw [pairOrder_iff] at before behind ⊢
      omega
    · intro a b
      rw [Bool.or_eq_true, pairOrder_iff, pairOrder_iff]
      omega
  have ordered : m.cids.toList.Pairwise fun a b => pairOrder a b :=
    (pairwise_toList m.cids).imp fun less => decide_eq_true (.inl less)
  refine List.Perm.eq_of_pairwise ?_ sorted ordered ((List.mergeSort_perm pairs _).trans listed)
  intro a b _ _ before behind
  rw [pairOrder_iff] at before behind
  exact Prod.ext (UInt32.toNat_inj.1 (by omega)) (UInt32.toNat_inj.1 (by omega))

/-! ## Loading -/

theorem load_eq_ok {resources : Resources} {collection : CharacterCollection} {texts : CidTexts} :
    (load resources collection).result = .ok (some texts) ↔
      ∃ name data m, collection.mapName? = some name ∧
        (resources name).result = .ok (some data) ∧ (CodeMap.read data).result = .ok m ∧
        ofCodeMap m = texts := by
  rw [load]
  cases collection.mapName? with
  | none => simp
  | some name =>
    simp only [Traced.result_bind, bind_eq_ok]
    constructor
    · rintro ⟨data?, loaded, run⟩
      cases data? with
      | none => simp [Except.map] at run
      | some data =>
        simp only [Traced.result_bind, bind_eq_ok, Traced.result_pure, Except.ok.injEq,
          Option.some.injEq] at run
        obtain ⟨m, read, inverted⟩ := run
        exact ⟨name, data, m, rfl, loaded, read, inverted⟩
    · rintro ⟨_, data, m, ⟨⟩, loaded, read, inverted⟩
      refine ⟨some data, loaded, ?_⟩
      simp [read, inverted, Except.map]

theorem load_inverts {resources : Resources} {collection : CharacterCollection} {texts : CidTexts}
    (run : (load resources collection).result = .ok (some texts)) :
    ∃ name data m, collection.mapName? = some name ∧
      (resources name).result = .ok (some data) ∧ (CodeMap.read data).result = .ok m ∧
      (∀ code : UInt32, m.cids[code]? = CodeMap.finalCid? (CodeMap.cidEntries data) code) ∧
      (∀ cid, cid ∈ texts ↔ ∃ c : Char, m.cids[c.val]? = some cid) ∧
      (∀ cid text, texts[cid]? = some text ↔ ∃ c : Char, text = c.toString ∧
        m.cids[c.val]? = some cid ∧ ∀ c' : Char, m.cids[c'.val]? = some cid → c ≤ c') ∧
      (∀ pairs : List (UInt32 × UInt32), pairs.Perm m.cids.toList → ofPairs pairs = texts) ∧
      ∀ (resources' : Resources) (data' : Bytes) (m' : CodeMap),
        (resources' name).result = .ok (some data') → (CodeMap.read data').result = .ok m' →
        (∀ code, CodeMap.finalCid? (CodeMap.cidEntries data') code =
          CodeMap.finalCid? (CodeMap.cidEntries data) code) →
        (load resources' collection).result = .ok (some texts) := by
  obtain ⟨name, data, m, known, loaded, read, rfl⟩ := load_eq_ok.1 run
  have final := CodeMap.getElem?_cids_of_read read
  refine ⟨name, data, m, known, loaded, read, final, fun _ => mem_ofCodeMap,
    fun _ _ => getElem?_ofCodeMap_eq_some, fun pairs listed => ?_, ?_⟩
  · rw [ofPairs, mergeSort_eq_toList listed, ofCodeMap_eq_foldl]
  · intro resources' data' m' loaded' read' same
    refine load_eq_ok.2 ⟨name, data', m', known, loaded', read', ?_⟩
    have cids : m'.cids.toList = m.cids.toList := CodeMap.toList_cids_congr fun code => by
      rw [CodeMap.getElem?_cids_of_read read', same, final]
    rw [ofCodeMap_eq_foldl, ofCodeMap_eq_foldl, cids]

/-! ### Two characters of one CID -/

def rangeText : String :=
  "1 begincidrange <0041> <0042> 34 endcidrange 1 begincidchar <AC00> 34 endcidchar"

def singlesText : String :=
  "3 begincidchar <AC00> 34 <0042> 35 <0041> 34 endcidchar"

def koreanResource (text : String) : Resources := fun name =>
  return if name = "UniKS-UCS2-H" then some (.ofText text) else none

theorem finalCid?_singles (code : UInt32) :
    CodeMap.finalCid? (CodeMap.cidEntries (.ofText singlesText)) code =
      CodeMap.finalCid? (CodeMap.cidEntries (.ofText rangeText)) code := by
  have singles : CodeMap.cidEntries (.ofText singlesText) =
      [⟨0xAC00, 0xAC00, 34⟩, ⟨0x42, 0x42, 35⟩, ⟨0x41, 0x41, 34⟩] := by decide +kernel
  have range : CodeMap.cidEntries (.ofText rangeText) =
      [⟨0x41, 0x42, 34⟩, ⟨0xAC00, 0xAC00, 34⟩] := by decide +kernel
  rw [singles, range]
  by_cases letter : code = 0x41
  · subst letter
    decide
  by_cases next : code = 0x42
  · subst next
    decide
  have outside (low high : UInt32) (apart : low.toNat ≤ code.toNat → ¬ code.toNat ≤ high.toNat) :
      CodeMap.CidEntry.cid? ⟨low, high, 34⟩ code = none :=
    if_neg fun within => apart within.1 within.2.1
  rw [← UInt32.toNat_inj] at letter next
  simp only [UInt32.reduceToNat] at letter next
  have last : CodeMap.CidEntry.cid? ⟨0x42, 0x42, 35⟩ code = none :=
    if_neg fun within => next (Nat.le_antisymm within.2.1 within.1)
  simp only [CodeMap.finalCid?, List.reverse_cons, List.reverse_nil, List.nil_append,
    List.cons_append, List.findSome?_cons, List.findSome?_nil, last,
    outside 0x41 0x41 (by simp only [UInt32.reduceToNat]; omega),
    outside 0x41 0x42 (by simp only [UInt32.reduceToNat]; omega)]

theorem load_inverts_korean : ∃ texts,
    (load (koreanResource rangeText) ⟨"Adobe", "Korea1"⟩).result = .ok (some texts) ∧
      texts[(34 : UInt32)]? = some "A" ∧ texts[(35 : UInt32)]? = some "B" ∧
      (load (koreanResource singlesText) ⟨"Adobe", "Korea1"⟩).result = .ok (some texts) := by
  have loads : (load (koreanResource rangeText) ⟨"Adobe", "Korea1"⟩).result.map
      (·.map fun texts => (texts[(34 : UInt32)]?, texts[(35 : UInt32)]?)) =
        .ok (some (some "A", some "B")) := by decide +kernel
  have reads : (CodeMap.read (.ofText singlesText)).result.map (·.cids.size) = .ok 3 := by
    decide +kernel
  obtain ⟨texts?, run, found⟩ := map_eq_ok.1 loads
  obtain ⟨texts, rfl, pair⟩ := Option.map_eq_some_iff.1 found
  obtain ⟨letter, next⟩ := Prod.mk.inj pair
  obtain ⟨m', read', -⟩ := map_eq_ok.1 reads
  obtain ⟨name, data, m, known, loaded, -, -, -, -, -, regroup⟩ := load_inverts run
  cases known
  cases loaded
  exact ⟨texts, run, letter, next, regroup _ _ m' rfl read' finalCid?_singles⟩

end CidTexts

end FontSubset
