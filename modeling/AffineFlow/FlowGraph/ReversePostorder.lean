import AffineFlow.FlowGraph.Basic

/-!
# Reverse postorder

Depth-first search from the entry, successors in edge order; a block is
finished after everything found through it, and the order lists the blocks from
the last finished to the first.
-/
namespace AffineFlow.FlowGraph

/-- What is left to do with a block during the search. -/
inductive Visit where
  | enter (h : Handle)
  | finish (h : Handle)

variable (g : FlowGraph)

/-- Works off the visits. `finished` has the last finished block first. -/
def searchFrom : Nat → List Visit → List Handle → List Handle → Except Dangling (List Handle)
  | _, [], _, finished => .ok finished
  | 0, _ :: _, _, finished => .ok finished
  | fuel + 1, .finish h :: rest, visited, finished =>
      searchFrom fuel rest visited (h :: finished)
  | fuel + 1, .enter h :: rest, visited, finished =>
      if h ∈ visited then searchFrom fuel rest visited finished
      else
        match g.node h with
        | .error e => .error e
        | .ok n =>
            let next := (n.succs.filter (· ∉ h :: visited)).map .enter
            searchFrom fuel (next ++ .finish h :: rest) (h :: visited) finished

/-- A search enters the entry and the end of each edge, and finishes each block, at most once. -/
def searchSteps : Nat :=
  g.nodes.entries.foldl (fun steps p => steps + (p.2.succs.length + 1)) 1

def reversePostorder : Except Dangling (List Handle) :=
  g.searchFrom g.searchSteps [.enter g.entry] [] []

/-- The blocks of an order, each with its place, counted from zero. -/
def places (order : List Handle) : List (Handle × Nat) := order.zipIdx

/-- The live blocks that an order does not list, by slot. -/
def unlisted (order : List Handle) : List Handle := g.nodes.handles.filter (· ∉ order)

end AffineFlow.FlowGraph
