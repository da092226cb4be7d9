import FontSubset.Proofs.Bytes
import FontSubset.Outline.Locations

/-!
# Location tables as bytes

`entries_of_holds`: a location table whose offsets its format can express is read back from its
bytes. What `parse` reads can always be expressed (`representable_of_parse`).
-/

namespace FontSubset.Locations

def Ascending (l : Locations) : Prop := l.offsets.toList.Pairwise (· ≤ ·)

instance (l : Locations) : Decidable l.Ascending :=
  inferInstanceAs (Decidable (l.offsets.toList.Pairwise (· ≤ ·)))

/-- A short entry holds half of an even offset in sixteen bits. -/
def Representable (l : Locations) : Prop :=
  l.format = .short → ∀ offset ∈ l.offsets, offset.toNat % 2 = 0 ∧ offset.toNat < 0x20000

theorem parse_eq_ok {data : Bytes} {d : Directory} {l : Locations} :
    parse data d = .ok l ↔ LocationFormat.read data d = .ok l.format ∧ ∃ table,
      d.require .locations = .ok table ∧
        entries data l.format table.start (table.length.toNat / l.format.entrySize) =
          .ok l.offsets.toList := by
  simp only [parse, bind_eq_ok, pure_eq_ok]
  constructor
  · rintro ⟨format, flag, table, found, offsets, run, rfl⟩
    exact ⟨flag, table, found, run⟩
  · rintro ⟨flag, table, found, run⟩
    exact ⟨_, flag, table, found, _, run, by simp⟩

theorem format_eq_ok {data : Bytes} {d : Directory} {format : LocationFormat} :
    LocationFormat.read data d = .ok format ↔ ∃ header flag, d.require .header = .ok header ∧
      data.Holds (header.start + LocationFormat.headerField) #[flag] ∧
        format = if flag = 0 then .short else .long := by
  simp only [LocationFormat.read, bind_eq_ok, pure_eq_ok, Bytes.u8At_eq_ok]
  constructor
  · rintro ⟨header, found, flag, h, rfl⟩
    exact ⟨header, flag, found, h, rfl⟩
  · rintro ⟨header, flag, found, h, rfl⟩
    exact ⟨header, found, flag, h, rfl⟩

theorem bounds_of_entries {data : Bytes} {pos count : Nat} {offsets : List UInt32}
    (run : entries data .short pos count = .ok offsets) :
    ∀ offset ∈ offsets, offset.toNat % 2 = 0 ∧ offset.toNat < 0x20000 := by
  intro offset mem
  obtain ⟨halves, -, rfl⟩ := map_eq_ok.1 run
  obtain ⟨half, -, rfl⟩ := List.mem_map.1 mem
  have := half.toNat_lt
  rw [UInt32.toNat_mul, UInt16.toNat_toUInt32]
  simp
  omega

theorem representable_of_parse {data : Bytes} {d : Directory} {l : Locations}
    (run : parse data d = .ok l) : l.Representable := by
  intro short offset mem
  obtain ⟨-, table, -, run⟩ := parse_eq_ok.1 run
  rw [short] at run
  exact bounds_of_entries run offset (Array.mem_toList_iff.2 mem)

theorem double_half {offset : UInt32} (even : offset.toNat % 2 = 0)
    (bound : offset.toNat < 0x20000) : (offset / 2).toUInt16.toUInt32 * 2 = offset := by
  rw [← UInt32.toNat_inj]
  simp
  omega

/-- The spelling of one entry. -/
def entryBytes (format : LocationFormat) (offset : UInt32) : Bytes :=
  match format with
  | .short => be16 (offset / 2).toUInt16
  | .long => be32 offset

theorem toBytes_eq (l : Locations) :
    l.toBytes = Bytes.concat (l.offsets.toList.map (entryBytes l.format)) := rfl

theorem size_toBytes (l : Locations) : l.toBytes.size = l.format.entrySize * l.offsets.size := by
  have even : ∀ entry ∈ l.offsets.toList.map (entryBytes l.format),
      entry.size = l.format.entrySize := by
    intro entry mem
    obtain ⟨offset, -, rfl⟩ := List.mem_map.1 mem
    cases l.format <;> rfl
  rw [toBytes_eq, Bytes.size_concat even, List.length_map, Array.length_toList]

theorem entries_of_holds {data : Bytes} {pos : Nat} {l : Locations} (fits : l.Representable)
    (h : data.Holds pos l.toBytes) :
    entries data l.format pos l.offsets.size = .ok l.offsets.toList := by
  rw [toBytes_eq] at h
  rw [← Array.length_toList]
  cases format : l.format with
  | short =>
    have spelled : data.Holds pos
        (Bytes.concat ((l.offsets.toList.map fun offset => (offset / 2).toUInt16).map be16)) := by
      rw [List.map_map]
      rwa [format] at h
    have read := Bytes.u16sAt_of_holds spelled
    rw [List.length_map] at read
    simp only [entries, read, Except.map, List.map_map]
    congr 1
    refine (List.map_congr_left fun offset mem => ?_).trans (List.map_id _)
    obtain ⟨even, bound⟩ := fits format offset (Array.mem_toList_iff.1 mem)
    exact double_half even bound
  | long =>
    rw [format] at h
    exact Bytes.u32sAt_of_holds h

end FontSubset.Locations
