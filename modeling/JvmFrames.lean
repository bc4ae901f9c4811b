import JvmFrames.Text
import JvmFrames.Name
import JvmFrames.Descriptor
import JvmFrames.Descriptor.Parser
import JvmFrames.AccessFlags
import JvmFrames.Label
import JvmFrames.WordSeq
import JvmFrames.VerificationType
import JvmFrames.Snapshot
import JvmFrames.StackMapFrame
import JvmFrames.Decimal
import JvmFrames.Instruction
import JvmFrames.Instruction.Mnemonic
import JvmFrames.Code
import JvmFrames.Method
import JvmFrames.Hierarchy
import JvmFrames.Error
import JvmFrames.Frame
import JvmFrames.Frame.Action
import JvmFrames.Frame.Effect
import JvmFrames.Frame.Merge
import JvmFrames.JoinGraph
import JvmFrames.JoinGraph.Build
import JvmFrames.JoinGraph.Flow
import JvmFrames.Analysis.Machine
import JvmFrames.Analysis.Directive
import JvmFrames.Analysis
import JvmFrames.Table
import JvmFrames.Table.Encode
import JvmFrames.Journal
import JvmFrames.Journal.Frame
import JvmFrames.Journal.Flow
import JvmFrames.Journal.Analysis
import JvmFrames.Proofs.JoinGraph.Arrival
import JvmFrames.Proofs.JoinGraph.Growth
import JvmFrames.Proofs.JoinGraph.Built
import JvmFrames.Proofs.Machine.Step
import JvmFrames.Proofs.Locals
import JvmFrames.Proofs.Execution
import JvmFrames.Proofs.Merge
import JvmFrames.Proofs.Closure
import JvmFrames.Proofs.Machine.Flow
import JvmFrames.Proofs.Assignable
import JvmFrames.Proofs.Hierarchy
import JvmFrames.Proofs.Effect
import JvmFrames.Proofs.WordEffect
import JvmFrames.Proofs.Monotone
import JvmFrames.Proofs.Values
import JvmFrames.Proofs.Soundness
import JvmFrames.Proofs.Completeness
import JvmFrames.Proofs.Machine.Measure
import JvmFrames.Proofs.Termination
import JvmFrames.Proofs.MergeOrder
import JvmFrames.Proofs.JoinGraph.Calls
import JvmFrames.Proofs.JoinGraph.Refusal
import JvmFrames.Proofs.JoinGraph.CatchTypes
import JvmFrames.Proofs.JoinGraph.Order
import JvmFrames.Proofs.Absorption
import JvmFrames.Proofs.AllocationSites
import JvmFrames.Proofs.StackDepth
import JvmFrames.Proofs.Maxima
import JvmFrames.Proofs.Edits
import JvmFrames.Proofs.Provenance
import JvmFrames.Proofs.Compression
import JvmFrames.Proofs.Table.Layout
import JvmFrames.Proofs.Table.Bytes
import JvmFrames.Proofs.Anchors
import JvmFrames.Proofs.Labelling
import JvmFrames.Proofs.Reanalysis
import JvmFrames.Proofs.Directives
import JvmFrames.Proofs.JoinGraph.Labels
import JvmFrames.Proofs.LabelErrors
import JvmFrames.Proofs.SiteRenaming
import JvmFrames.Proofs.Thinning
import JvmFrames.Proofs.Machine.Lockstep
import JvmFrames.Proofs.Unframed
import JvmFrames.Proofs.FrameNodes
import JvmFrames.Proofs.CommonSupertype
import JvmFrames.Proofs.DescriptorReading
import JvmFrames.Proofs.SnapshotEquality
import JvmFrames.Proofs.WordShuffle
import JvmFrames.Proofs.MergeWalk
import JvmFrames.Proofs.WordEdits
