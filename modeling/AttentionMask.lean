import AttentionMask.Size
import AttentionMask.Storage
import AttentionMask.Decimal
import AttentionMask.Fault
import AttentionMask.Pattern
import AttentionMask.Walk
import AttentionMask.KeyRun
import AttentionMask.KeyRun.Union
import AttentionMask.RowRule
import AttentionMask.RowRule.Painting
import AttentionMask.ByteRow
import AttentionMask.Grid
import AttentionMask.RunTable
import AttentionMask.RunTable.Assembly
import AttentionMask.Crc64
import AttentionMask.Mask
import AttentionMask.Mask.Digest
import AttentionMask.Session
import AttentionMask.Report
import AttentionMask.Main
import AttentionMask.Proofs.Words
import AttentionMask.Proofs.Writes
import AttentionMask.Proofs.Size
import AttentionMask.Proofs.Storage
import AttentionMask.Proofs.Storage.ImageBytes
import AttentionMask.Proofs.Decimal
import AttentionMask.Proofs.Requirement
import AttentionMask.Proofs.Fault.Texts
import AttentionMask.Proofs.KeyRun.Canonical
import AttentionMask.Proofs.KeyRun.Union
import AttentionMask.Proofs.KeyRun.Search
import AttentionMask.Proofs.KeyRun.Uniqueness
import AttentionMask.Proofs.KeyRun.LastWord
import AttentionMask.Proofs.KeyRun.LastStart
import AttentionMask.Proofs.RowRule.Reduction
import AttentionMask.Proofs.RowRule.Runs
import AttentionMask.Proofs.RowRule.Marks
import AttentionMask.Proofs.RowRule.Steps
import AttentionMask.Proofs.RowRule.Unchecked
import AttentionMask.Proofs.ByteRow
import AttentionMask.Proofs.RunTable.Layout
import AttentionMask.Proofs.RunTable.Relation
import AttentionMask.Proofs.RunTable.Assembly
import AttentionMask.Proofs.RunTable.Slices
import AttentionMask.Proofs.RunTable.Build
import AttentionMask.Proofs.Grid.Relation
import AttentionMask.Proofs.Grid.Build
import AttentionMask.Proofs.Conversion
import AttentionMask.Proofs.Construction
import AttentionMask.Proofs.RowOrder
import AttentionMask.Proofs.Redundancy
import AttentionMask.Proofs.Causality
import AttentionMask.Proofs.Distance
import AttentionMask.Proofs.CopyTask
import AttentionMask.Proofs.Refusal
import AttentionMask.Proofs.Crc64.Serial
import AttentionMask.Proofs.Crc64.Remainder
import AttentionMask.Proofs.Crc64.Detection
import AttentionMask.Proofs.Mask.Relation
import AttentionMask.Proofs.Mask.Rows
import AttentionMask.Proofs.Mask.RowKeys
import AttentionMask.Proofs.Mask.Agreement
import AttentionMask.Proofs.Mask.Image
import AttentionMask.Proofs.Mask.Digest
import AttentionMask.Proofs.Mask.Detection
import AttentionMask.Proofs.Mask.Padding
import AttentionMask.Proofs.Mask.PairCount
import AttentionMask.Proofs.Report.Reading
import AttentionMask.Proofs.Report.Demonstration
import AttentionMask.Proofs.Guarded
import AttentionMask.Proofs.Guarded.Rows
import AttentionMask.Proofs.Guarded.Assembly
import AttentionMask.Proofs.Guarded.Painting
import AttentionMask.Proofs.Guarded.Conversion
import AttentionMask.Proofs.Guarded.Queries
import AttentionMask.Proofs.Guarded.Mask
import AttentionMask.Proofs.Recorded
import AttentionMask.Proofs.Recorded.Rows
import AttentionMask.Proofs.Recorded.Painting
import AttentionMask.Proofs.Recorded.CopyTask
