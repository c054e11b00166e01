import HeapDump.Draft
import HeapDump.Graph.Dominators
import HeapDump.ObjectGraph.Retained
import HeapDump.ObjectGraph.StringValue
import HeapDump.ObjectGraph.Walk
import HeapDump.Proofs.Graph.Parents
import HeapDump.Proofs.Store.Sharded
import HeapDump.Proofs.Graph.Rounds
import HeapDump.Proofs.Graph.Traversal
import HeapDump.Proofs.Graph.TopologicalOrder
import HeapDump.Proofs.Graph.Dominators
import HeapDump.Proofs.Graph.Chain
import HeapDump.Proofs.Scan
import HeapDump.Proofs.SubRecord.RoundTrip
import HeapDump.Proofs.SubRecord.Bounds
import HeapDump.Proofs.ObjectGraph.Census
import HeapDump.Proofs.ObjectGraph.Table
import HeapDump.Proofs.ObjectGraph.Layout
import HeapDump.Proofs.ObjectGraph.Decode
import HeapDump.Proofs.ObjectGraph.Walk
import HeapDump.Proofs.ObjectGraph.Accepted
import HeapDump.Proofs.Graph.Subtree
import HeapDump.Proofs.ObjectGraph.Retained
import HeapDump.Proofs.Row
import HeapDump.Proofs.Record.Frame
import HeapDump.Proofs.ObjectGraph.Entry
import HeapDump.Proofs.SubRecord.Detach
import HeapDump.Proofs.SubRecord.Confined
import HeapDump.Proofs.ObjectGraph.Alike
import HeapDump.Proofs.ObjectGraph.SameGraph
import HeapDump.Proofs.Graph.Failure
import HeapDump.Proofs.ObjectGraph.Acceptance
import HeapDump.Proofs.ObjectGraph.Answers
import HeapDump.Proofs.ObjectGraph.Rearranged
import HeapDump.Proofs.ObjectGraph.Lineage
import HeapDump.Proofs.ObjectGraph.Filing
import HeapDump.Proofs.ObjectGraph.Links
import HeapDump.Proofs.ObjectGraph.Heaps
import HeapDump.Proofs.ObjectGraph.Index
import HeapDump.Proofs.ObjectGraph.WalkOrder
import HeapDump.Proofs.ObjectGraph.ClassNames
import HeapDump.Proofs.Text.Utf8
import HeapDump.Proofs.Header
import HeapDump.Proofs.Record.Cut
import HeapDump.Proofs.ObjectGraph.Cut
import HeapDump.Proofs.Draft
import HeapDump.Proofs.Record.Written
import HeapDump.Proofs.ObjectGraph.Written
import HeapDump.Proofs.Graph.Ascent
import HeapDump.Proofs.Graph.Meet
import HeapDump.Proofs.Graph.Discovery
import HeapDump.Proofs.ObjectGraph.WalkCourse
import HeapDump.Proofs.Text.Utf16
import HeapDump.Proofs.ObjectGraph.StringValue
import HeapDump.Proofs.Record.NamedText
import HeapDump.Proofs.Record.Tiling
import HeapDump.Proofs.ObjectGraph.Latest
import HeapDump.Proofs.Graph.Edges
import HeapDump.Proofs.ObjectGraph.RootOrder
import HeapDump.Proofs.ObjectGraph.Elements
import HeapDump.Proofs.ObjectGraph.Reported
import HeapDump.Proofs.Value
