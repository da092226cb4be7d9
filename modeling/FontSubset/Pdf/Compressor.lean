import FontSubset.Bytes

/-!
# Compression

Streams of a PDF file may be compressed. All that is asked of a compressor is that inflating gives
the data back.
-/

namespace FontSubset.Pdf

/-- A compressor of the filter `FlateDecode`, and the filter itself. -/
class Compressor where
  /-- The level says how much work is put into small streams. -/
  compress (level : UInt8) (data : Bytes) : Bytes
  inflate? (stream : Bytes) : Option Bytes
  inflate?_compress (level : UInt8) (data : Bytes) : inflate? (compress level data) = some data

end FontSubset.Pdf
