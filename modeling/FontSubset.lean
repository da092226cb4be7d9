import FontSubset.Bytes
import FontSubset.CharacterMap.Basic
import FontSubset.CharacterMap.Subtable
import FontSubset.CodeMap.Basic
import FontSubset.CodeMap.Collection
import FontSubset.CodeMap.Lexer
import FontSubset.CodeMap.Reader
import FontSubset.CodeMap.Token
import FontSubset.CommandLine
import FontSubset.CommandLine.Program
import FontSubset.Cursor
import FontSubset.Digest
import FontSubset.Embedding.Descriptor
import FontSubset.Embedding.FontUse
import FontSubset.Embedding.SubsetName
import FontSubset.Embedding.ToUnicode
import FontSubset.Embedding.UsedGlyph
import FontSubset.Embedding.WidthArray
import FontSubset.Error
import FontSubset.Event
import FontSubset.Face.Basic
import FontSubset.Face.Metrics
import FontSubset.Face.Name
import FontSubset.Face.Width
import FontSubset.Font
import FontSubset.Job
import FontSubset.Job.Format
import FontSubset.Log
import FontSubset.Main
import FontSubset.Number.Binary64
import FontSubset.Number.Decimal
import FontSubset.Number.Fixed
import FontSubset.Number.Shortest
import FontSubset.Outline.Closure
import FontSubset.Outline.Glyph
import FontSubset.Outline.Locations
import FontSubset.Outline.Subset
import FontSubset.Pdf.Compressor
import FontSubset.Pdf.FontObjects
import FontSubset.Pdf.Object
import FontSubset.Proofs.Bytes
import FontSubset.Proofs.CharacterMap.Encodings
import FontSubset.Proofs.CharacterMap.Entries
import FontSubset.Proofs.CharacterMap.Inverse
import FontSubset.Proofs.CharacterMap.Segments
import FontSubset.Proofs.CharacterMap.Skipped
import FontSubset.Proofs.CharacterMap.Symbol
import FontSubset.Proofs.CodeMap.CidEntries
import FontSubset.Proofs.CodeMap.CidSections
import FontSubset.Proofs.CodeMap.CodeSpaces
import FontSubset.Proofs.CodeMap.Codes
import FontSubset.Proofs.CodeMap.Collection
import FontSubset.Proofs.CodeMap.Lexer
import FontSubset.Proofs.CodeMap.Lines
import FontSubset.Proofs.CodeMap.Places
import FontSubset.Proofs.CodeMap.Reader
import FontSubset.Proofs.CodeMap.Sections
import FontSubset.Proofs.CodeMap.Spelling
import FontSubset.Proofs.CodeMap.TextArrays
import FontSubset.Proofs.CodeMap.TextRanges
import FontSubset.Proofs.CommandLine
import FontSubset.Proofs.Cursor
import FontSubset.Proofs.Embedding.Coverage
import FontSubset.Proofs.Embedding.History
import FontSubset.Proofs.Embedding.OrderIndependence
import FontSubset.Proofs.Embedding.TextRecovery
import FontSubset.Proofs.Embedding.ToUnicode
import FontSubset.Proofs.Embedding.UsedGlyph
import FontSubset.Proofs.Embedding.WidthArray
import FontSubset.Proofs.Embedding.WidthRuns
import FontSubset.Proofs.Font
import FontSubset.Proofs.Number.Decimal
import FontSubset.Proofs.Outline.Closure
import FontSubset.Proofs.Outline.Composite
import FontSubset.Proofs.Outline.Cycle
import FontSubset.Proofs.Outline.Extent
import FontSubset.Proofs.Outline.Glyph
import FontSubset.Proofs.Outline.Locations
import FontSubset.Proofs.Outline.Member
import FontSubset.Proofs.Outline.Offsets
import FontSubset.Proofs.Outline.Rebuild
import FontSubset.Proofs.Outline.Resubset
import FontSubset.Proofs.Outline.Subset
import FontSubset.Proofs.Pdf.FontObjects
import FontSubset.Proofs.Result
import FontSubset.Proofs.Sfnt.Layout
import FontSubset.Proofs.Sfnt.ReadBack
import FontSubset.Proofs.Shaping.Conservation
import FontSubset.Proofs.Shaping.Missing
import FontSubset.Proofs.Shaping.Reorder
import FontSubset.Proofs.Shaping.Segmentation
import FontSubset.Proofs.Shaping.Typesetter
import FontSubset.Proofs.Shaping.Width
import FontSubset.Proofs.Shaping.WordOrder
import FontSubset.Proofs.Shown.AverageWidth
import FontSubset.Proofs.Shown.Character
import FontSubset.Proofs.Shown.Codes
import FontSubset.Proofs.Shown.Dictionary
import FontSubset.Proofs.Shown.Space
import FontSubset.Proofs.Substitution.Composite
import FontSubset.Proofs.Substitution.Layout
import FontSubset.Proofs.Substitution.Trace
import FontSubset.Proofs.TableEntries
import FontSubset.Proofs.Text.Utf16
import FontSubset.Proofs.Text.Utf8
import FontSubset.Provided.Face.Names
import FontSubset.Provided.Face.Parser
import FontSubset.Provided.Face.Tables
import FontSubset.Provided.Json.Job
import FontSubset.Provided.Json.Numeral
import FontSubset.Provided.Json.Quote
import FontSubset.Provided.Json.Reader
import FontSubset.Provided.Json.Record
import FontSubset.Provided.Json.Value
import FontSubset.Provided.Script
import FontSubset.Provided.Zlib
import FontSubset.Sample.Bytes
import FontSubset.Sample.CharacterMap
import FontSubset.Sample.Font
import FontSubset.Sample.Outline
import FontSubset.Sample.Substitution
import FontSubset.Sfnt.Assembly
import FontSubset.Sfnt.Collection
import FontSubset.Sfnt.Directory
import FontSubset.Sfnt.Tag
import FontSubset.Shaping.Language
import FontSubset.Shaping.Reorder
import FontSubset.Shaping.Segmentation
import FontSubset.Shaping.Typesetter
import FontSubset.ShownFont
import FontSubset.Substitution.Composite
import FontSubset.Substitution.Rule
import FontSubset.Text.Blank
import FontSubset.Text.Hex
import FontSubset.Text.MacRoman
import FontSubset.Text.Quoted
import FontSubset.Text.Scalar
import FontSubset.Text.Script
import FontSubset.Text.Utf16
import FontSubset.Text.Utf8
import FontSubset.Workspace
