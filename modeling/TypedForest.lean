import TypedForest.Number.Binary64
import TypedForest.Number.Numeral
import TypedForest.Number.Shortest
import TypedForest.Number.Rounding
import TypedForest.Text.Unprintable
import TypedForest.Text.GraphemeExtend
import TypedForest.Text.DefaultIgnorable
import TypedForest.Text.Quoted
import TypedForest.Value.Basic
import TypedForest.Value.Text
import TypedForest.Json.Basic
import TypedForest.Json.Printer
import TypedForest.Json.Reader
import TypedForest.Value.Json
import TypedForest.Schema.Basic
import TypedForest.Schema.Error
import TypedForest.Schema.Draft
import TypedForest.Notes
import TypedForest.Store.Basic
import TypedForest.Store.Error
import TypedForest.Store.Construct
import TypedForest.Store.Access
import TypedForest.Store.Assign
import TypedForest.Store.Sweep
import TypedForest.Store.Annotation
import TypedForest.Store.Traversal
import TypedForest.Store.Equality
import TypedForest.Store.Revision
import TypedForest.Text.Utf8
import TypedForest.Wire.Error
import TypedForest.Wire.Varint
import TypedForest.Wire.Format
import TypedForest.Wire.Writer
import TypedForest.Wire.Header
import TypedForest.Wire.Reader
import TypedForest.Snapshot.Basic
import TypedForest.Snapshot.Capture
import TypedForest.Snapshot.Json
import TypedForest.Proofs.Schema.Built
import TypedForest.Proofs.Schema.Inheritance
import TypedForest.Proofs.Schema.Refusals
import TypedForest.Proofs.Schema.Rearranging
import TypedForest.Proofs.Store.View
import TypedForest.Proofs.Store.WellFormed
import TypedForest.Proofs.Store.Marking
import TypedForest.Proofs.Store.Step
import TypedForest.Proofs.Store.Run
import TypedForest.Proofs.Tree.Basic
import TypedForest.Proofs.Tree.Unfolding
import TypedForest.Proofs.Notes
import TypedForest.Proofs.Tree.Planting
import TypedForest.Proofs.Text.Utf8
import TypedForest.Proofs.Wire.Reading
import TypedForest.Proofs.Wire.Spelling
import TypedForest.Proofs.Wire.Values
import TypedForest.Proofs.Wire.Trees
import TypedForest.Proofs.Tree.Observation
import TypedForest.Proofs.Tree.Equality
import TypedForest.Proofs.Tree.Traversal
import TypedForest.Proofs.Snapshot.Capture
import TypedForest.Proofs.Store.Copy
import TypedForest.Proofs.Store.Sweeping
import TypedForest.Proofs.Wire.Frames
import TypedForest.Proofs.Wire.Parser
import TypedForest.Proofs.Wire.Canonical
import TypedForest.Proofs.Wire.Truncation
import TypedForest.Proofs.Wire.Recovery
import TypedForest.Proofs.Wire.Faults
import TypedForest.Proofs.Wire.Safety
import TypedForest.Proofs.Store.History
import TypedForest.Proofs.Wire.Turns
import TypedForest.Proofs.Store.Recording
import TypedForest.Proofs.Revision.Recording
import TypedForest.Proofs.Store.Session
import TypedForest.Proofs.Store.Parents
import TypedForest.Proofs.Store.Staleness
import TypedForest.Proofs.Snapshot.Normal
import TypedForest.Proofs.Store.Descent
import TypedForest.Proofs.Store.Ownership
import TypedForest.Proofs.Revision.Sparing
import TypedForest.Proofs.Revision.DeepCopy
import TypedForest.Proofs.Revision.Relinking
import TypedForest.Proofs.Tree.Pruning
import TypedForest.Proofs.Revision.Pruning
import TypedForest.Proofs.Store.Slots
import TypedForest.Proofs.Store.Writing
import TypedForest.Proofs.Revision.Logging
import TypedForest.Proofs.Revision.PostOrder
import TypedForest.Proofs.Store.Bulk
import TypedForest.Proofs.Store.NoteDeletion
import TypedForest.Proofs.Snapshot.Conformance
import TypedForest.Proofs.Store.Lockstep
import TypedForest.Proofs.Wire.Loading
import TypedForest.Proofs.Number.Numeral
import TypedForest.Proofs.Number.Rounding
import TypedForest.Proofs.Number.Shortest
import TypedForest.Proofs.Json.Scalars
import TypedForest.Proofs.Json.Documents
import TypedForest.Proofs.Value.Json
import TypedForest.Proofs.Snapshot.Json
