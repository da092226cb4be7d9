import FontSubset.Proofs.CharacterMap.Entries
import FontSubset.Proofs.Shaping.Typesetter

/-!
# Widths of glyphs

* `width_of_mem_glyphs`: wherever a glyph of a text comes from, a character map, a composite or the
  half of a sign, it has the width that the font has for it.
-/

namespace FontSubset

/-! ## Character maps -/

def GlyphMap.Measured (widths : GlyphWidths) (map : GlyphMap) : Prop :=
  ∀ (code : UInt32) (metric : GlyphMetric), map[code]? = some metric →
    metric = widths.metric metric.glyph

namespace GlyphMap
variable {widths : GlyphWidths}

theorem measured_read {data : Bytes} {pos : Nat} {symbol : Bool} {map : GlyphMap}
    (run : (read data pos widths symbol).result = .ok (some map)) : Measured widths map := by
  have entered := eq_of_read run
  split at entered
  · obtain rfl := Option.some.inj entered
    intro code metric found
    rw [getElem?_ofEntries] at found
    obtain ⟨glyph, -, rfl⟩ := Option.map_eq_some_iff.1 found
    rfl
  · cases entered

end GlyphMap

namespace CharacterMaps

theorem measured_readEncoding {data : Bytes} {base : Nat} {widths : GlyphWidths} {symbol : Bool}
    {offset : Option Nat} {found : Option GlyphMap}
    (run : (readEncoding data base widths symbol offset).result = .ok found) :
    ∀ map ∈ found, map.Measured widths := by
  rintro map rfl
  cases offset with
  | none => cases run
  | some offset => exact GlyphMap.measured_read run

/-- The maps that text is looked up in. -/
def maps (m : CharacterMaps) : List (Option GlyphMap) :=
  [m.byteEncoding, m.unicode, m.unicodeFull]

theorem measured_of_read {data : Bytes} {directory : Directory} {widths : GlyphWidths}
    {m : CharacterMaps} (run : (read data directory widths).result = .ok m) :
    ∀ map, some map ∈ m.maps → map.Measured widths := by
  simp only [read, Traced.result_bind, bind_eq_ok, Traced.result_pure, Except.ok.injEq] at run
  obtain ⟨_, -, _, -, romanMap, roman, unicode, plane, symbolMap, symbol, unicodeFull, full, rfl⟩ :=
    run
  simp only [maps, List.mem_cons, List.not_mem_nil, or_false]
  rintro map (same | same | same)
  · split at same
    · exact measured_readEncoding symbol map same.symm
    · exact measured_readEncoding roman map same.symm
  · exact measured_readEncoding plane map same.symm
  · exact measured_readEncoding full map same.symm

theorem exists_of_lookup {m : CharacterMaps} {code : UInt32} {metric : GlyphMetric}
    (found : m.lookup code = some metric) :
    ∃ map, some map ∈ m.maps ∧ ∃ code : UInt32, map[code]? = some metric := by
  rw [lookup] at found
  simp only [maps, List.mem_cons, List.not_mem_nil, or_false]
  split at found
  · rename_i full here
    exact ⟨full, .inr (.inr here.symm), code, found⟩
  · split at found
    · simp only [Option.bind_eq_bind, Option.bind_eq_some_iff] at found
      obtain ⟨map, here, byte, -, found⟩ := found
      exact ⟨map, .inl here.symm, byte, found⟩
    · obtain ⟨map, here, found⟩ := Option.bind_eq_some_iff.1 found
      exact ⟨map, .inr (.inl here.symm), code, found⟩

end CharacterMaps

/-! ## Text -/

section
variable [FaceParser] {data : Bytes} {member : Option UInt32} {font : Font}
  (loaded : (Font.load data member).result = .ok font)
include loaded

theorem Font.metric_of_load {code : UInt32} {metric : GlyphMetric}
    (found : font.metric? code = some metric) : metric.width = font.width metric.glyph := by
  obtain ⟨map, here, code, found⟩ := CharacterMaps.exists_of_lookup found
  have measured := CharacterMaps.measured_of_read (load_eq_ok.1 loaded).mapped map here
  rw [measured code metric found]
  rfl

theorem Typesetter.width_of_mem_glyphs [ScriptTable] {text : String} {g : GlyphInfo}
    (mem : g ∈ ((ofFont font).value.glyphs text).value) : g.width = font.width g.code := by
  refine of_mem_glyphs (P := fun g => g.width = font.width g.code) (fun c g found => ?_)
    (fun text g found => ?_) mem
  · obtain ⟨metric, known, rfl⟩ := Option.map_eq_some_iff.1 found
    rw [font_ofFont] at known
    exact Font.metric_of_load loaded known
  · obtain ⟨s, here, found⟩ := Option.bind_eq_some_iff.1 found
    rw [font_ofFont] at here
    rw [(Font.wellMade_of_load loaded s here _ g found).1]
    rfl

end

end FontSubset
