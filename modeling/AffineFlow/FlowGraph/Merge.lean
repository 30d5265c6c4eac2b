import AffineFlow.FlowGraph.Predecessors
import AffineFlow.FlowGraph.Reachability

/-!
# Merging blocks

Two reductions shorten straight-line control flow. An empty block with a single
successor is bypassed: its predecessors go to the successor directly. A block
whose single successor has no other predecessor absorbs that successor. The
entry is never bypassed nor absorbed, and the exit is never bypassed, but it may
be absorbed.

Blocks wait in slot order; one that absorbed another waits again. Each step
drops a block from the graph or from the waiting list for good, so the number
of steps is bounded by twice the number of blocks.
-/
namespace AffineFlow

/-- What the merging of a graph has come to. -/
structure Merging where
  graph : FlowGraph
  /-- The predecessors in `graph`. -/
  preds : PredTable
  /-- The blocks still to look at, by slot. -/
  pending : List Handle

namespace Merging

/-- What is to be done with a block. -/
inductive Action where
  | keep
  | bypass (target : Handle)
  | absorb (target : Handle)
  deriving DecidableEq

variable (s : Merging)

/-- The block may be dropped without losing a statement or an end of the graph. -/
def isForwarder (b : Handle) (n : Node) : Bool :=
  n.stmts.isEmpty && b ≠ s.graph.entry && b ≠ s.graph.exit

/-- What is to be done with a block whose only successor is `t`. A forwarder is only bypassed if the
predecessors of both blocks are known. -/
def actionTowards (b : Handle) (n : Node) (t : Handle) : Except Dangling Action :=
  if t = s.graph.entry ∨ t = b then .ok .keep
  else if s.isForwarder b n then
    match s.preds.get? b, s.preds.get? t with
    | some _, some _ => .ok (.bypass t)
    | _, _ => .ok .keep
  else
    match s.preds.get? t with
    | none => .error ⟨t⟩
    | some preds =>
        .ok (if preds.length = 1 ∧ s.graph.nodes.contains t then .absorb t else .keep)

def action (b : Handle) : Except Dangling Action :=
  match s.graph.node b with
  | .error e => .error e
  | .ok n =>
      match n.succs with
      | [t] => s.actionTowards b n t
      | _ => .ok .keep

/-- Replaces a successor by another and drops repetitions. -/
def redirect (source target : Handle) (n : Node) : Node :=
  { n with succs := (n.succs.map fun h => if h = source then target else h).eraseDups }

/-- Redirects the edges from the blocks of the list. -/
def redirectAll (source target : Handle) : List Handle → FlowGraph → Except Dangling FlowGraph
  | [], g => .ok g
  | p :: rest, g =>
      match g.node p with
      | .error e => .error e
      | .ok _ => redirectAll source target rest (g.modifyNode p (redirect source target))

/-- Sends the predecessors of `b` to `t` and removes `b`. -/
def bypass (b t : Handle) : Except Dangling Merging :=
  match s.preds.get? b with
  | none => .error ⟨b⟩
  | some preds =>
      match redirectAll b t preds (s.graph.removeNode b) with
      | .error e => .error e
      | .ok graph =>
          let join (l : List Handle) : List Handle :=
            preds.foldl (fun l p => insertHandle p l) (l.erase b)
          .ok { s with graph, preds := (s.preds.modify t join).erase b }

/-- In the predecessors of the blocks of the list, puts `b` where `t` was. -/
def replacePred (b t : Handle) : List Handle → PredTable → Except Dangling PredTable
  | [], table => .ok table
  | h :: rest, table =>
      match table.get? h with
      | none => .error ⟨h⟩
      | some _ => replacePred b t rest (table.modify h fun l => insertHandle b (l.erase t))

/-- The block followed by another one. -/
def followedBy (m n : Node) : Node := { n with stmts := n.stmts ++ m.stmts, succs := m.succs }

/-- Appends `t` to `b` and removes `t`. -/
def absorb (b t : Handle) : Except Dangling Merging :=
  match s.graph.node t with
  | .error e => .error e
  | .ok m =>
      match replacePred b t m.succs (s.preds.erase t) with
      | .error e => .error e
      | .ok preds =>
          let graph := (s.graph.removeNode t).modifyNode b (followedBy m)
          .ok {
            graph := { graph with exit := if graph.exit = t then b else graph.exit }
            preds
            pending := insertHandle b (s.pending.erase t) }

/-- Looks at one block, which no longer waits. -/
def step (b : Handle) : Noted Dangling Merging := do
  match ← .ofExcept (s.action b) with
  | .keep => return s
  | .bypass t =>
      let n ← .ofExcept (s.graph.node b)
      let m ← .ofExcept (s.graph.node t)
      .tell (.bypassing n.label m.label)
      .ofExcept (s.bypass b t)
  | .absorb t =>
      let n ← .ofExcept (s.graph.node b)
      let m ← .ofExcept (s.graph.node t)
      .tell (.absorbing m.label n.label)
      .ofExcept (s.absorb b t)

def run : Nat → Merging → Noted Dangling Merging
  | 0, s => return s
  | fuel + 1, s =>
      match s.pending with
      | [] => return s
      | b :: rest => do run fuel (← step { s with pending := rest } b)

end Merging

namespace FlowGraph

variable (g : FlowGraph)

/-- Every block waits. -/
def startMerging : Merging := ⟨g, g.predTable, g.nodes.handles⟩

/-- Bypasses empty blocks and joins straight lines until neither is possible. -/
def merge : Noted Dangling FlowGraph :=
  return (← g.startMerging.run (2 * g.nodes.size)).graph

/-- Removes unreachable blocks, then merges. -/
def simplify : Noted Dangling FlowGraph := do
  .tell (.simplifying g.nodes.size)
  let closed ← g.removeUnreachable
  let merged ← closed.merge
  .tell (.simplified merged.nodes.size)
  return merged

end FlowGraph

end AffineFlow
