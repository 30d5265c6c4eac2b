import AffineFlow.Lowering.Assembly
import AffineFlow.Proofs.Renaming.Arenas
import AffineFlow.Proofs.Renaming.Renamable

/-!
# Graphs with other variables

A graph with renamed variables has the blocks, the edges and the ends of the
graph; only its statements and its declaration differ. Putting a graph together
from the code of its blocks commutes with renaming.
-/
namespace AffineFlow

open Ssa

variable (π : Var → Var)

namespace Renamable

instance : Renamable Node := ⟨fun π n => { n with stmts := rename π n.stmts }⟩

/-- Labels, slots, edges, entry and exit stay as they are. -/
instance : Renamable FlowGraph :=
  ⟨fun π g => { g with nodes := g.nodes.map (rename π), decl := rename π g.decl }⟩

instance : Renamable Assembly := ⟨fun π s => { s with graph := rename π s.graph }⟩

end Renamable

namespace FlowGraph

variable (g : FlowGraph)

@[simp] theorem nodes_rename : (rename π g).nodes = g.nodes.map (rename π) := rfl

@[simp] theorem entry_rename : (rename π g).entry = g.entry := rfl

@[simp] theorem exit_rename : (rename π g).exit = g.exit := rfl

theorem node_rename (h : Handle) : (rename π g).node h = (g.node h).map (rename π) := by
  simp only [node, nodes_rename, Arena.get?_map]
  cases g.nodes.get? h <;> rfl

@[simp] theorem succs_rename (h : Handle) : (rename π g).succs h = g.succs h := by
  simp only [succs, nodes_rename, Arena.get?_map]
  cases g.nodes.get? h <;> rfl

theorem rename_modifyNode (h : Handle) {u v : Node → Node}
    (huv : ∀ n, rename π (u n) = v (rename π n)) :
    rename π (g.modifyNode h u) = (rename π g).modifyNode h v :=
  congrArg (fun nodes => { rename π g with nodes }) (Arena.map_modify _ g.nodes h huv)

theorem rename_removeNode (h : Handle) :
    rename π (g.removeNode h) = (rename π g).removeNode h :=
  congrArg (fun nodes => { rename π g with nodes }) (Arena.map_erase _ g.nodes h)

theorem rename_insertNode (base : String) :
    rename π (g.insertNode base) = (rename π g).insertNode base :=
  congrArg (fun nodes => { rename π g with nodes, labels := (g.labels.claim base).2 })
    (Arena.map_insert _ g.nodes _)

theorem rename_connect (source target : Handle) :
    rename π (g.connect source target) = (rename π g).connect source target := by
  refine rename_modifyNode π g source fun n => ?_
  show rename π (n.connect target) = if target ∈ n.succs then _ else _
  unfold Node.connect
  split <;> rfl

theorem rename_append (h : Handle) (stmts : List Stmt) :
    rename π (g.append h stmts) = (rename π g).append h (rename π stmts) := by
  refine rename_modifyNode π g h fun n => ?_
  show Node.mk _ (rename π (n.stmts ++ stmts)) _ = _
  rw [AffineFlow.rename_append]
  rfl

theorem rename_prepend (h : Handle) (stmts : List Stmt) :
    rename π (g.prepend h stmts) = (rename π g).prepend h (rename π stmts) := by
  refine rename_modifyNode π g h fun n => ?_
  show Node.mk _ (rename π (stmts ++ n.stmts)) _ = _
  rw [AffineFlow.rename_append]
  rfl

end FlowGraph

namespace Assembly

variable (s : Assembly)

@[simp] theorem returning_rename : (rename π s).returning = s.returning := rfl

theorem rename_place (id : BlockId) (label : String) :
    rename π (s.place id label) = (rename π s).place id label := by
  show Assembly.mk (rename π (s.graph.insertNode label)) _ _ = _
  rw [FlowGraph.rename_insertNode, place]
  show _ = Assembly.mk _ ((id, (s.graph.nodes.map _).nextHandle) :: _) _
  rw [Arena.nextHandle_map]
  rfl

theorem rename_placeAll (blocks : List (BlockId × String)) :
    rename π (placeAll blocks s) = placeAll blocks (rename π s) := by
  induction blocks generalizing s with
  | nil => rfl
  | cons b rest ih =>
      rw [placeAll, placeAll, ih, rename_place]

/-- Before any code is put into it, a graph has no variables. -/
theorem rename_ofLayout (entry : BlockId × String) (others : List (BlockId × String)) :
    rename π (ofLayout entry others) = ofLayout entry others := by
  rw [ofLayout, rename_placeAll]
  rfl

theorem rename_addEdge (source : Handle) (edge : EdgeCode) :
    rename π (s.addEdge source edge) = (rename π s).addEdge source (rename π edge) := by
  have hnext : (rename π s).graph.nodes.nextHandle = s.graph.nodes.nextHandle :=
    Arena.nextHandle_map _ _
  unfold addEdge
  rw [hnext]
  show Assembly.mk (rename π (FlowGraph.append _ _ _)) _ _ = _
  rw [FlowGraph.rename_append, FlowGraph.rename_connect, FlowGraph.rename_connect,
    FlowGraph.rename_insertNode]
  rfl

theorem rename_addEdges (source : Handle) (edges : List EdgeCode) :
    rename π (addEdges source edges s) = addEdges source (rename π edges) (rename π s) := by
  induction edges generalizing s with
  | nil => rfl
  | cons edge rest ih => rw [addEdges, ih, rename_addEdge]; rfl

theorem rename_leave (h : Handle) (leaving : Leaving) :
    rename π (s.leave h leaving) = (rename π s).leave h (rename π leaving) := by
  cases leaving with
  | returns => rfl
  | stuck => rfl
  | jumps target =>
      show Assembly.mk (rename π (s.graph.connect _ _)) _ _ = _
      rw [FlowGraph.rename_connect]
      rfl
  | branches edges => exact rename_addEdges π s h edges

theorem rename_addBlock (code : BlockCode) :
    rename π (s.addBlock code) = (rename π s).addBlock (rename π code) := by
  unfold addBlock
  rw [rename_leave]
  show leave (Assembly.mk (rename π (s.graph.append _ _)) _ _) _ _ = _
  rw [FlowGraph.rename_append]
  rfl

theorem rename_addBlocks (codes : List BlockCode) :
    rename π (addBlocks codes s) = addBlocks (rename π codes) (rename π s) := by
  induction codes generalizing s with
  | nil => rfl
  | cons code rest ih => rw [addBlocks, ih, rename_addBlock]; rfl

theorem rename_connectAll (target : Handle) (sources : List Handle) (g : FlowGraph) :
    rename π (connectAll target sources g) = connectAll target sources (rename π g) := by
  induction sources generalizing g with
  | nil => rfl
  | cons h rest ih => rw [connectAll, connectAll, ih, FlowGraph.rename_connect]

theorem rename_finish : rename π s.finish = (rename π s).finish := by
  unfold finish
  rw [returning_rename]
  split
  · rfl
  · have hnext : (rename π s).graph.nodes.nextHandle = s.graph.nodes.nextHandle :=
      Arena.nextHandle_map _ _
    unfold joinReturns
    rw [hnext, returning_rename]
    show { rename π (connectAll _ _ _) with exit := s.graph.nodes.nextHandle } = _
    rw [rename_connectAll, FlowGraph.rename_insertNode]
    rfl

end Assembly

end AffineFlow
