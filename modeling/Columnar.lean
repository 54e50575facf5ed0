import Columnar.Crc32c
import Columnar.Varint
import Columnar.Ieee.Format
import Columnar.Ieee.Shortest
import Columnar.Text.Utf8
import Columnar.Field
import Columnar.SortKey
import Columnar.Schema
import Columnar.Options
import Columnar.RowBlock
import Columnar.Bisect
import Columnar.Page.Values
import Columnar.Page.Compression
import Columnar.Page
import Columnar.ZoneMap
import Columnar.OrdinalIndex
import Columnar.ShortKeyIndex
import Columnar.Column.Writer
import Columnar.Segment.RowScan
import Columnar.Segment.Writer
import Columnar.Directory
import Columnar.Inspect.Run
import Columnar.Main
import Columnar.Proofs.Packing
import Columnar.Proofs.StoredValues
import Columnar.Proofs.PageValues
import Columnar.Proofs.Lz4RoundTrip
import Columnar.Proofs.Lz4Matches
import Columnar.Proofs.PageRoundTrip
import Columnar.Proofs.ValueOrder
import Columnar.Proofs.ZoneMapBounds
import Columnar.Proofs.PageLookup
import Columnar.Proofs.ColumnCells
import Columnar.Proofs.StoredSections
import Columnar.Proofs.ColumnSections
import Columnar.Proofs.ColumnReading
import Columnar.Proofs.FooterRoundTrip
import Columnar.Proofs.ZoneMapSoundness
import Columnar.Proofs.ZoneMapMerge
import Columnar.Proofs.SegmentRows
import Columnar.Proofs.SegmentFile
import Columnar.Proofs.SegmentOpening
import Columnar.Proofs.SegmentReading
import Columnar.Proofs.ColumnScan
import Columnar.Proofs.RowBatches
import Columnar.Proofs.SegmentRoundTrip
import Columnar.Proofs.DecodingFailures
import Columnar.Proofs.TruncatedSegments
import Columnar.Proofs.KeyOrder
import Columnar.Proofs.ShortKeyOrder
import Columnar.Proofs.ShortKeyRoundTrip
import Columnar.Proofs.KeyCuts
import Columnar.Proofs.ShortKeySearch
import Columnar.Proofs.ShortKeySeek
import Columnar.Proofs.IndexParsing
import Columnar.Proofs.ColumnCursor
import Columnar.Proofs.AlteredColumns
import Columnar.Proofs.AlteredSegments
import Columnar.Proofs.RowPositions
import Columnar.Proofs.ScanRefinement
import Columnar.Proofs.ColumnRoundTrip
import Columnar.Proofs.RejectedCalls
import Columnar.Proofs.SectionTiling
import Columnar.Proofs.RowAtomicity
import Columnar.Proofs.PageBuilding
import Columnar.Proofs.ShortKeySamples
import Columnar.Proofs.FooterParsing
import Columnar.Proofs.CellConformance
import Columnar.Proofs.DecodedPages
import Columnar.Proofs.MalformedSegments
import Columnar.Proofs.CleanScans
import Columnar.Proofs.VerifiedDumps
import Columnar.Proofs.PageTables
import Columnar.Proofs.CutBounds
import Columnar.Proofs.Lz4BlockRules
import Columnar.Proofs.BufferEstimates
import Columnar.Proofs.DecimalNumbers
import Columnar.Proofs.ShortKeyHeaders
import Columnar.Proofs.SchemaDocuments
import Columnar.Proofs.Machine.Packing
