import AffineFlow.FlowGraph.Text
import AffineFlow.Lowering.Function
import AffineFlow.Proofs.Acceptance.Calls
import AffineFlow.Proofs.Acceptance.Defects
import AffineFlow.Proofs.Acceptance.Edges
import AffineFlow.Proofs.Acceptance.Function
import AffineFlow.Proofs.Acceptance.Instructions
import AffineFlow.Proofs.Acceptance.Settles
import AffineFlow.Proofs.Acceptance.WellFormed
import AffineFlow.Proofs.Assembly.Finished
import AffineFlow.Proofs.Assembly.Growth
import AffineFlow.Proofs.Assembly.Progress
import AffineFlow.Proofs.Calls.Agreement
import AffineFlow.Proofs.Calls.Copying
import AffineFlow.Proofs.Calls.Crossing
import AffineFlow.Proofs.Calls.Passing
import AffineFlow.Proofs.Calls.Sites
import AffineFlow.Proofs.ControlFlow.Correspondence
import AffineFlow.Proofs.ControlFlow.Skeleton
import AffineFlow.Proofs.Execution.Blocks
import AffineFlow.Proofs.Execution.Conditions
import AffineFlow.Proofs.Execution.Edges
import AffineFlow.Proofs.Execution.Following
import AffineFlow.Proofs.Execution.Freshness
import AffineFlow.Proofs.Execution.Graph
import AffineFlow.Proofs.Execution.Instructions
import AffineFlow.Proofs.Execution.Phis
import AffineFlow.Proofs.Execution.Soundness
import AffineFlow.Proofs.Execution.Source
import AffineFlow.Proofs.Execution.Stores
import AffineFlow.Proofs.Execution.Values
import AffineFlow.Proofs.Memory.Home
import AffineFlow.Proofs.Memory.Overwriting
import AffineFlow.Proofs.Memory.Staleness
import AffineFlow.Proofs.Merging.Absorption
import AffineFlow.Proofs.Merging.Bypass
import AffineFlow.Proofs.Merging.Invariant
import AffineFlow.Proofs.Merging.Turns
import AffineFlow.Proofs.Outcome
import AffineFlow.Proofs.PlainGraph
import AffineFlow.Proofs.Reachability
import AffineFlow.Proofs.Simplification
import AffineFlow.Proofs.Statements.Composition
import AffineFlow.Proofs.Statements.Emission
import AffineFlow.Proofs.Statements.Simplified
import AffineFlow.Proofs.Supply.Extension
import AffineFlow.Proofs.Supply.Lowering
import AffineFlow.Proofs.Trace
import AffineFlow.Proofs.Acceptance.Untracked
import AffineFlow.Proofs.Acceptance.Criterion
import AffineFlow.Proofs.Forms.Canonical
import AffineFlow.Proofs.Renaming.Renamable
import AffineFlow.Proofs.Renaming.Worlds
import AffineFlow.Proofs.Renaming.Uniform
import AffineFlow.Proofs.Renaming.Calls
import AffineFlow.Proofs.Renaming.Blocks
import AffineFlow.Proofs.Renaming.Arenas
import AffineFlow.Proofs.Renaming.Graphs
import AffineFlow.Proofs.Renaming.Simplification
import AffineFlow.Proofs.Renaming.Independence
import AffineFlow.Proofs.Forms.Expressions
import AffineFlow.Proofs.Supply.Names
import AffineFlow.Proofs.Supply.History
import AffineFlow.Proofs.Shape.Forms
import AffineFlow.Proofs.Shape.Code
import AffineFlow.Proofs.Shape.Graph
import AffineFlow.Proofs.Shape.Overflow
import AffineFlow.Proofs.Phis.Atomicity
import AffineFlow.Proofs.Phis.Simultaneous
import AffineFlow.Proofs.Forms.Operands
import AffineFlow.Proofs.Conditions.Branching
import AffineFlow.Proofs.Conditions.Selecting
import AffineFlow.Proofs.Memory.Storing
import AffineFlow.Proofs.Addresses.Exactness
import AffineFlow.Proofs.Addresses.GivingUp
import AffineFlow.Proofs.Arithmetic.Exactness
import AffineFlow.Proofs.Arithmetic.Rounding
import AffineFlow.Proofs.Conditions.Switching
import AffineFlow.Proofs.Conditions.Pointers
import AffineFlow.Proofs.Conditions.Assumed
import AffineFlow.Proofs.Removal
import AffineFlow.Proofs.DepthFirst.Siblings
import AffineFlow.Proofs.Layout.Parts
import AffineFlow.Proofs.Labels.Suffixes
import AffineFlow.Proofs.Labels.Construction
import AffineFlow.Proofs.Forms.Negation
import AffineFlow.Proofs.Memory.Aliases
import AffineFlow.Proofs.Text.Unambiguous
