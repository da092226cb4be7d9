import FontSubset.Font
import FontSubset.Proofs.Sfnt.ReadBack

/-!
# Loading of a font

`load_eq_ok`: a font that has been loaded is what its parts have been read as (`Loaded`).
-/

namespace FontSubset.Font

/-- The parts of `f` are what its file holds for the member. -/
structure Loaded [FaceParser] (data : Bytes) (member : Option UInt32) (f : Font) : Prop where
  file : f.data = data
  kind : Collection.isCollection f.data = .ok f.inCollection
  selected : Collection.directoryOffset f.data member = .ok f.directory.offset
  parsed : Directory.parse f.data f.directory.offset = .ok f.directory
  complete : checkTables f.directory = .ok ()
  measured : ∃ face, readFace f.data member = .ok face ∧ face.metrics = f.metrics ∧
    face.widths = f.widths ∧ face.postScriptName = f.name
  mapped : (CharacterMaps.read f.data f.directory f.widths).result = .ok f.characterMaps
  substituted : (Substitutions.read f.data f.directory f.characterMaps.glyphToUnicode
    f.widths).result = .ok f.substitutions

theorem load_eq_ok [FaceParser] {data : Bytes} {member : Option UInt32} {f : Font} :
    (load data member).result = .ok f ↔ Loaded data member f := by
  simp only [load, Traced.result_bind, bind_eq_ok, Traced.result_pure, Traced.result_lift,
    Traced.result_report, Directory.result_read]
  constructor
  · rintro ⟨_, kind, offset, selected, directory, parsed, _, complete, face, measured, _, mapped,
      _, substituted, _, _, ⟨⟩⟩
    obtain rfl := Directory.offset_of_parse parsed
    exact ⟨rfl, kind, selected, parsed, complete, ⟨face, measured, rfl, rfl, rfl⟩, mapped,
      substituted⟩
  · rintro ⟨rfl, kind, selected, parsed, complete, ⟨face, measured, metrics, widths, name⟩, mapped,
      substituted⟩
    rw [← widths] at mapped substituted
    refine ⟨_, kind, _, selected, _, parsed, (), complete, face, measured, _, mapped, _,
      substituted, (), trivial, ?_⟩
    rw [metrics, widths, name]

end FontSubset.Font
