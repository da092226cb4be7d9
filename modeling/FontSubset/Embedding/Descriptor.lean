import FontSubset.Font

/-!
# Font descriptors

The measures of a font that a viewer needs to choose a replacement, and flags about its style.
-/

namespace FontSubset

structure Descriptor where
  flags : UInt32
  bounds : Box
  italicAngle : Binary64
  ascent : Int32
  descent : Int32
  capHeight : Int32
  /-- The width of the vertical stems. -/
  stemWidth : UInt32
  deriving DecidableEq

namespace Descriptor

def fixedPitch : UInt32 := 0x1
def symbolic : UInt32 := 0x4
def nonsymbolic : UInt32 := 0x20
def italic : UInt32 := 0x40
def forceBold : UInt32 := 0x40000

def flagsOf (m : FontMetrics) (fontSpecific : Bool) : UInt32 :=
  (if fontSpecific then symbolic else nonsymbolic) |||
    (if m.fixedPitch then fixedPitch else 0) |||
    (if m.italicAngle.isZero then 0 else italic) |||
    (if m.bold then forceBold else 0)

def ofFont (f : Font) : Descriptor :=
  let m := f.metrics
  { flags := flagsOf m f.characterMaps.fontSpecific
    bounds := m.bounds
    italicAngle := m.italicAngle
    ascent := m.ascent
    descent := m.descent
    capHeight := m.capHeight
    stemWidth := if m.bold then 120 else 80 }

end Descriptor

end FontSubset
