import AffineFlow.FlowGraph.Basic
import AffineFlow.Lowering.Code

/-!
# Assembly of the graph

Every laid-out block gets a block of the graph, the first one the entry. A
conditional edge gets a block of its own between its two ends, so that its
statements run on that edge only. If not exactly one block returns, all returning
blocks go on to a new empty block, which is the exit.
-/
namespace AffineFlow

open Ssa

/-- A graph under construction. -/
structure Assembly where
  graph : FlowGraph
  /-- The blocks that stand for blocks of the source; of several for one, the first counts. -/
  placed : List (BlockId × Handle)
  /-- The blocks that return, in layout order. -/
  returning : List Handle := []

namespace Assembly

variable (s : Assembly)

/-- The block that stands for a block of the source. -/
def handle (id : BlockId) : Handle := (s.placed.lookup id).getD s.graph.entry

/-- Adds a block for a further block of the source. -/
def place (id : BlockId) (label : String) : Assembly :=
  { s with
    graph := s.graph.insertNode label
    placed := (id, s.graph.nodes.nextHandle) :: s.placed }

def placeAll : List (BlockId × String) → Assembly → Assembly
  | [], s => s
  | (id, label) :: rest, s => placeAll rest (s.place id label)

/-- A graph with the blocks of the layout and no edges. -/
def ofLayout (entry : BlockId × String) (others : List (BlockId × String)) : Assembly :=
  placeAll others
    { graph := .singleton entry.2
      placed := [(entry.1, (FlowGraph.singleton entry.2).entry)] }

/-- Adds the block of a conditional edge. -/
def addEdge (source : Handle) (edge : EdgeCode) : Assembly :=
  let middle := s.graph.nodes.nextHandle
  let linked := ((s.graph.insertNode edge.label).connect source middle).connect middle
    (s.handle edge.target)
  { s with graph := linked.append middle edge.stmts }

def addEdges (source : Handle) : List EdgeCode → Assembly → Assembly
  | [], s => s
  | edge :: rest, s => addEdges source rest (s.addEdge source edge)

/-- Adds the way control takes at the end of a block. -/
def leave (h : Handle) : Leaving → Assembly
  | .returns => { s with returning := s.returning ++ [h] }
  | .stuck => s
  | .jumps target => { s with graph := s.graph.connect h (s.handle target) }
  | .branches edges => addEdges h edges s

/-- Adds the statements of a block and the edges that leave it. -/
def addBlock (code : BlockCode) : Assembly :=
  let h := s.handle code.source
  { s with graph := s.graph.append h code.stmts }.leave h code.leaving

def addBlocks : List BlockCode → Assembly → Assembly
  | [], s => s
  | code :: rest, s => addBlocks rest (s.addBlock code)

/-- Sends every block of the list on to another one. -/
def connectAll (target : Handle) : List Handle → FlowGraph → FlowGraph
  | [], g => g
  | h :: rest, g => connectAll target rest (g.connect h target)

/-- Sends the returning blocks to a new exit. -/
def joinReturns : FlowGraph :=
  let exit := s.graph.nodes.nextHandle
  { connectAll exit s.returning (s.graph.insertNode "exit") with exit }

/-- The graph with its exit. -/
def finish : FlowGraph :=
  match s.returning with
  | [h] => { s.graph with exit := h }
  | _ => s.joinReturns

end Assembly

end AffineFlow
