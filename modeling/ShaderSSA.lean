import ShaderSSA.Arena
import ShaderSSA.Assoc
import ShaderSSA.Binary32
import ShaderSSA.BitSet
import ShaderSSA.Block
import ShaderSSA.Builder
import ShaderSSA.Channels
import ShaderSSA.Check
import ShaderSSA.Defect
import ShaderSSA.DerefChain
import ShaderSSA.Dominators
import ShaderSSA.Edit
import ShaderSSA.Fault
import ShaderSSA.Function
import ShaderSSA.Ident
import ShaderSSA.Instr
import ShaderSSA.Intrinsic
import ShaderSSA.Lanes
import ShaderSSA.Machine
import ShaderSSA.Merge.Class
import ShaderSSA.Merge.Pair
import ShaderSSA.Merge.Walk
import ShaderSSA.Mode
import ShaderSSA.Opcode
import ShaderSSA.Pipeline
import ShaderSSA.Postorder
import ShaderSSA.Proofs.Acceptance
import ShaderSSA.Proofs.Addressing
import ShaderSSA.Proofs.Analyses
import ShaderSSA.Proofs.Ascent
import ShaderSSA.Proofs.Building
import ShaderSSA.Proofs.Chains
import ShaderSSA.Proofs.ChannelAccounts
import ShaderSSA.Proofs.ChannelLaying
import ShaderSSA.Proofs.ChannelTable
import ShaderSSA.Proofs.ChannelVars
import ShaderSSA.Proofs.CheckAnswers
import ShaderSSA.Proofs.Clamping
import ShaderSSA.Proofs.Classes
import ShaderSSA.Proofs.Conduct
import ShaderSSA.Proofs.Conservation
import ShaderSSA.Proofs.Consistency
import ShaderSSA.Proofs.DeadChains
import ShaderSSA.Proofs.Defects
import ShaderSSA.Proofs.Dominance
import ShaderSSA.Proofs.Dropping
import ShaderSSA.Proofs.EditResults
import ShaderSSA.Proofs.Execution
import ShaderSSA.Proofs.Exhaustion
import ShaderSSA.Proofs.FlatAccounts
import ShaderSSA.Proofs.FlatChannels
import ShaderSSA.Proofs.FlatLaying
import ShaderSSA.Proofs.FlatSplit
import ShaderSSA.Proofs.FlatUnfolding
import ShaderSSA.Proofs.Forwarding
import ShaderSSA.Proofs.Fusing
import ShaderSSA.Proofs.Growth
import ShaderSSA.Proofs.Halting
import ShaderSSA.Proofs.Halves
import ShaderSSA.Proofs.History
import ShaderSSA.Proofs.Idempotence
import ShaderSSA.Proofs.Keeping
import ShaderSSA.Proofs.LaneAlgebra
import ShaderSSA.Proofs.LaneWise
import ShaderSSA.Proofs.Laying
import ShaderSSA.Proofs.Links
import ShaderSSA.Proofs.Mapped
import ShaderSSA.Proofs.Meaning
import ShaderSSA.Proofs.Membership
import ShaderSSA.Proofs.MergeTour
import ShaderSSA.Proofs.MergeWalk
import ShaderSSA.Proofs.Merging
import ShaderSSA.Proofs.Operations
import ShaderSSA.Proofs.Packing
import ShaderSSA.Proofs.ParentSweeps
import ShaderSSA.Proofs.Pipelines
import ShaderSSA.Proofs.Places
import ShaderSSA.Proofs.Progress
import ShaderSSA.Proofs.Readiness
import ShaderSSA.Proofs.Reads
import ShaderSSA.Proofs.Replacing
import ShaderSSA.Proofs.Reporting
import ShaderSSA.Proofs.Rerouting
import ShaderSSA.Proofs.Retargeting
import ShaderSSA.Proofs.Rewiring
import ShaderSSA.Proofs.Rewriting
import ShaderSSA.Proofs.Safety
import ShaderSSA.Proofs.Schedule
import ShaderSSA.Proofs.Scoping
import ShaderSSA.Proofs.Settled
import ShaderSSA.Proofs.Shedding
import ShaderSSA.Proofs.Simulation
import ShaderSSA.Proofs.SourceWidths
import ShaderSSA.Proofs.Sources
import ShaderSSA.Proofs.SplitMoves
import ShaderSSA.Proofs.Splitting
import ShaderSSA.Proofs.Stability
import ShaderSSA.Proofs.Stacks
import ShaderSSA.Proofs.Substitution
import ShaderSSA.Proofs.Success
import ShaderSSA.Proofs.Sweep
import ShaderSSA.Proofs.Takeover
import ShaderSSA.Proofs.Terms
import ShaderSSA.Proofs.Tours
import ShaderSSA.Proofs.Tracking
import ShaderSSA.Proofs.Traversal
import ShaderSSA.Proofs.Tree
import ShaderSSA.Proofs.Turning
import ShaderSSA.Proofs.Undeclared
import ShaderSSA.Proofs.Underway
import ShaderSSA.Proofs.VarChannels
import ShaderSSA.Proofs.VarMeaning
import ShaderSSA.Proofs.VarSplit
import ShaderSSA.Proofs.Verified
import ShaderSSA.Proofs.Views
import ShaderSSA.Proofs.Visiting
import ShaderSSA.Proofs.Walking
import ShaderSSA.Shader
import ShaderSSA.SideTable
import ShaderSSA.Split.Flat
import ShaderSSA.Split.Stats
import ShaderSSA.Split.Variables
import ShaderSSA.SwapErase
import ShaderSSA.VarType
import ShaderSSA.Variable
