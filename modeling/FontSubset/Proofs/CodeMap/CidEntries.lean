import FontSubset.Proofs.CodeMap.CidSections
import FontSubset.Proofs.CodeMap.Places

/-!
# Entries of CIDs

* `getElem?_cids_of_read`: the CID of a code is the one that the last entry about this code gives
  it, whether the entry is one for a single code or for a range.
-/

namespace FontSubset.CodeMap

/-- An entry that gives consecutive codes consecutive CIDs; an entry for a single code is a range of
one. -/
structure CidEntry where
  low : UInt32
  high : UInt32
  first : UInt32
  deriving DecidableEq

/-- The CID that an entry gives to a code, as long as it has 32 bits. -/
def CidEntry.cid? (entry : CidEntry) (code : UInt32) : Option UInt32 :=
  let cid := entry.first.toNat + (code.toNat - entry.low.toNat)
  if entry.low ≤ code ∧ code ≤ entry.high ∧ cid < UInt32.size then some (UInt32.ofNat cid) else none

/-- The entry that a token completes. -/
def Place.cidEntry? : Place → Token → Option CidEntry
  | .charCid code, .integer (.ofNat cid) => some ⟨codeOf code, codeOf code, UInt32.ofNat cid⟩
  | .cidFirst low (some high), .integer cid =>
    if 0 ≤ cid ∧ cid < UInt32.size then
      some ⟨codeOf low, codeOf high, UInt32.ofNat cid.toNat⟩
    else none
  | _, _ => none

/-- The entries that some tokens complete, in order. -/
def Place.cidEntries (place : Place) : List Token → List CidEntry
  | [] => []
  | token :: rest => (place.cidEntry? token).toList ++ (place.next token).cidEntries rest

/-- The CID that the last entry about a code gives it. -/
def finalCid? (entries : List CidEntry) (code : UInt32) : Option UInt32 :=
  entries.reverse.findSome? (·.cid? code)

/-- The entries of a code map. -/
def cidEntries (data : Bytes) : List CidEntry :=
  (Place.outside none).cidEntries (tokens data).1

theorem finalCid?_append (front back : List CidEntry) (code : UInt32) :
    finalCid? (front ++ back) code = (finalCid? back code).or (finalCid? front code) := by
  rw [finalCid?, List.reverse_append, List.findSome?_append]
  rfl

theorem finalCid?_toList (o : Option CidEntry) (code : UInt32) :
    finalCid? o.toList code = o.bind (·.cid? code) := by
  cases o with
  | none => rfl
  | some entry => simp [finalCid?]

/-! ## What entries do -/

theorem getElem?_setCid (m : CodeMap) (code cid other : UInt32) :
    (m.setCid code cid).cids[other]? =
      (CidEntry.cid? ⟨code, code, cid⟩ other).or m.cids[other]? := by
  have inserted : (m.setCid code cid).cids = m.cids.insert code cid := rfl
  rw [inserted, Std.TreeMap.getElem?_insert, CidEntry.cid?]
  dsimp only
  by_cases same : code = other
  · subst same
    rw [if_pos (by simp), if_pos ⟨UInt32.le_rfl, UInt32.le_rfl, by simpa using cid.toNat_lt⟩]
    simp
  · rw [if_neg (by simpa using same), if_neg fun within =>
      same (UInt32.le_antisymm within.1 within.2.1)]
    rfl

theorem getElem?_setCidRange (m : CodeMap) (low high first code : UInt32) :
    (m.setCidRange low high first).cids[code]? =
      (CidEntry.cid? ⟨low, high, first⟩ code).or m.cids[code]? := by
  have counted := counted_setRange low high first.toNat m code
  rw [setRange, if_pos first.toNat_lt, UInt32.ofNat_toNat] at counted
  rw [counted, CidEntry.cid?]
  dsimp only
  split <;> rfl

theorem cids_setTextRange (m : CodeMap) (low high : UInt32) (units : List UInt16) :
    (m.setTextRange low high units).cids = m.cids := by
  rw [setTextRange]
  apply kept_foldl
  intro m step
  rfl

/-- Only the token that completes an entry changes CIDs. -/
theorem getElem?_cids_effect {place : Place} {m m' : CodeMap} {token : Token}
    (effect : place.effect m token = .ok m') (code : UInt32) :
    m'.cids[code]? = ((place.cidEntry? token).bind (·.cid? code)).or m.cids[code]? := by
  cases place with
  | charCid low =>
    cases token with
    | integer cid =>
      cases cid with
      | ofNat cid =>
        cases effect
        exact getElem?_setCid m (codeOf low) (UInt32.ofNat cid) code
      | negSucc n =>
        cases effect
        rfl
    | _ =>
      cases effect
      rfl
  | cidFirst low high =>
    cases high with
    | none =>
      cases effect
      rfl
    | some high =>
      cases token with
      | integer cid =>
        simp only [Place.effect] at effect
        simp only [Place.cidEntry?]
        split at effect
        · next fit =>
          obtain ⟨_, -, rfl⟩ := map_eq_ok.1 effect
          rw [if_pos fit]
          exact getElem?_setCidRange m (codeOf low) (codeOf high) (UInt32.ofNat cid.toNat) code
        · next unfit =>
          cases effect
          rw [if_neg unfit]
          rfl
      | _ =>
        cases effect
        rfl
  | rangeText low high =>
    cases token with
    | hex text =>
      cases effect
      rw [cids_setTextRange]
      rfl
    | _ =>
      cases effect
      rfl
  | rangeHigh low =>
    cases token with
    | hex high =>
      obtain ⟨_, -, rfl⟩ := map_eq_ok.1 effect
      rfl
    | _ =>
      cases effect
      rfl
  | rangeArray high at_ =>
    cases token with
    | hex text =>
      cases effect
      split <;> rfl
    | _ =>
      cases effect
      rfl
  | spaceHigh low =>
    cases token with
    | hex high =>
      simp only [Place.effect] at effect
      split at effect <;> cases effect <;> rfl
    | _ =>
      cases effect
      rfl
  | outside lastName | mapName | entry part | charText at_ | cidHigh low =>
    cases token <;> cases effect <;> rfl

theorem getElem?_cids_foldlM {front : List Token} {r r' : Place × CodeMap}
    (run : front.foldlM coreStep r = .ok r') (code : UInt32) :
    r'.2.cids[code]? = (finalCid? (r.1.cidEntries front) code).or r.2.cids[code]? := by
  induction front generalizing r with
  | nil =>
    cases run
    rfl
  | cons token rest ih =>
    rw [List.foldlM_cons, bind_eq_ok] at run
    obtain ⟨s, first, others⟩ := run
    obtain ⟨effect, next⟩ := coreStep_eq_ok.1 first
    rw [ih others, getElem?_cids_effect effect, Place.cidEntries, finalCid?_append,
      finalCid?_toList, next, Option.or_assoc]

theorem getElem?_cids_of_read {data : Bytes} {m : CodeMap} (read : (read data).result = .ok m)
    (code : UInt32) : m.cids[code]? = finalCid? (cidEntries data) code := by
  obtain ⟨-, r, run, -, rfl⟩ := read_eq_ok.1 read
  obtain ⟨spaces, kept⟩ := exists_spaces_result r
  have last := getElem?_cids_foldlM (reads_core run) code
  rw [kept]
  exact last.trans (by simp [core, Reader.start, empty, cidEntries])

end FontSubset.CodeMap
