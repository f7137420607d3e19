import LasFile.Number.Arithmetic
import LasFile.Number.Single
import LasFile.Number.Decimal
import LasFile.Text.Blank
import LasFile.Text.Fixed
import LasFile.Byte.Order
import LasFile.Byte.Slice
import LasFile.Error
import LasFile.Dimension
import LasFile.Transform
import LasFile.Byte.Reader
import LasFile.Byte.Writer
import LasFile.Value
import LasFile.Point
import LasFile.Format
import LasFile.ExtraDim.Selection
import LasFile.ExtraDim.Descriptor
import LasFile.Record.Layout
import LasFile.Vlr.Ignore
import LasFile.Vlr.Catalog
import LasFile.Header.Codec
import LasFile.Header.Summary
import LasFile.Settings.Text
import LasFile.OpenFile
import LasFile.Draft
import LasFile.Proofs.Draft.Count
import LasFile.Proofs.Draft.Refusal
import LasFile.Proofs.Draft.Contents
import LasFile.Proofs.Draft.Reopened
import LasFile.Proofs.Number.Conversion
import LasFile.Proofs.Byte.Complement
import LasFile.Proofs.Record.Value
import LasFile.Proofs.Byte.Patch
import LasFile.Proofs.Record.Pack
import LasFile.Proofs.Record.Fields
import LasFile.Proofs.Record.Restore
import LasFile.Proofs.Record.IntegerField
import LasFile.Proofs.Draft.OwnSettings
import LasFile.Proofs.Draft.Records
import LasFile.Proofs.Draft.Histogram
import LasFile.Proofs.Record.ExtraField
import LasFile.Proofs.Vlr.Calls
import LasFile.Proofs.Vlr.Lookup
import LasFile.Proofs.ExtraDim.Sampled
import LasFile.Proofs.Draft.Sampled
import LasFile.Proofs.OpenFile.Opening
import LasFile.Proofs.OpenFile.Points
import LasFile.Proofs.OpenFile.Vlrs
import LasFile.Proofs.Draft.KeptVlrs
import LasFile.Proofs.Text.Decoded
import LasFile.Proofs.Header.Rewritten
import LasFile.Proofs.Number.Order
import LasFile.Proofs.Number.Rational
import LasFile.Proofs.Number.Grid
import LasFile.Proofs.Record.Coordinate
import LasFile.Proofs.Draft.Bounds
import LasFile.Proofs.Record.Frame
import LasFile.Proofs.Number.Nearest
import LasFile.Proofs.Number.Narrowing
import LasFile.Proofs.Record.ExtraSection
import LasFile.Proofs.Record.Footprint
import LasFile.Proofs.Record.Kinds
import LasFile.Proofs.Record.Absent
import LasFile.Proofs.ExtraDim.Resolution
import LasFile.Proofs.Header.LegacyCounts
import LasFile.Proofs.ExtraDim.Decoding
import LasFile.Proofs.ExtraDim.Payload
import LasFile.Proofs.ExtraDim.Encoding
import LasFile.Proofs.OpenFile.StatedDims
import LasFile.Proofs.Settings.Options
import LasFile.Proofs.Byte.Sequence
import LasFile.Proofs.Settings.Saved
