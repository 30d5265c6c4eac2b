import AffineFlow.FlowGraph.Basic
import AffineFlow.Note

/-!
# Removing unreachable blocks

Blocks that the entry cannot reach are dropped. The exit always stays, so that
the graph keeps its single exit.
-/
namespace AffineFlow.FlowGraph

variable (g : FlowGraph)

/-- Follows edges from the blocks on the stack until nothing new is seen. Each step takes a block
that was put on the stack once, so `fuel` counts blocks. -/
def exploreFrom : Nat → List Handle → List Handle → Except Dangling (List Handle)
  | _, [], seen => .ok seen
  | 0, _ :: _, seen => .ok seen
  | fuel + 1, h :: stack, seen =>
      match g.node h with
      | .error e => .error e
      | .ok n =>
          let found := (n.succs.filter (· ∉ seen)).eraseDups
          exploreFrom fuel (found.reverse ++ stack) (seen ++ found)

/-- The blocks that the entry reaches. -/
def reachable : Except Dangling (List Handle) :=
  g.exploreFrom (g.nodes.size + 1) [g.entry] [g.entry]

/-- Drops the blocks that are neither reachable nor the exit. -/
def removeUnreachable : Noted Dangling FlowGraph := do
  let reached ← .ofExcept g.reachable
  let keep (h : Handle) : Bool := h ∈ reached || h = g.exit
  let dropped := g.nodes.entries.filter fun p => !keep p.1
  .tellAll (dropped.map fun p => .removingUnreachable p.2.label)
  return { g with nodes := g.nodes.retain keep }

end AffineFlow.FlowGraph
