import AffineFlow.Lowering.Assembly
import AffineFlow.Proofs.Trace
import Mathlib.Data.List.Forall2

/-!
# How the graph grows during assembly

What each step of assembly does to the blocks of the graph: it adds fresh ones,
completes the one that it is about, and leaves the others alone.
-/
namespace AffineFlow

open Ssa

namespace FlowGraph

variable {g : FlowGraph} {h k : Handle}

theorem get?_insertNode (base : String) : (g.insertNode base).nodes.get? k =
    if k = g.nodes.nextHandle then some { label := (g.labels.claim base).1 }
    else g.nodes.get? k :=
  g.nodes.get?_insert _ k

theorem get?_connect (target : Handle) : (g.connect h target).nodes.get? k =
    if k = h then (g.nodes.get? k).map (·.connect target) else g.nodes.get? k :=
  g.nodes.get?_modify h k _

theorem get?_append (stmts : List Stmt) : (g.append h stmts).nodes.get? k =
    if k = h then (g.nodes.get? k).map (·.append stmts) else g.nodes.get? k :=
  g.nodes.get?_modify h k _

theorem get?_prepend (stmts : List Stmt) : (g.prepend h stmts).nodes.get? k =
    if k = h then (g.nodes.get? k).map (·.prepend stmts) else g.nodes.get? k :=
  g.nodes.get?_modify h k _

theorem ne_nextHandle (hh : g.nodes.contains h = true) : h ≠ g.nodes.nextHandle := by
  intro he
  subst he
  simp [Arena.contains] at hh

end FlowGraph

/-- The block is in the graph, with these statements and successors. -/
def FlowGraph.HasBlock (g : FlowGraph) (h : Handle) (stmts : List Stmt) (succs : List Handle) :
    Prop :=
  ∃ label, g.nodes.get? h = some ⟨label, stmts, succs⟩

namespace FlowGraph.HasBlock

variable {g g' : FlowGraph} {h : Handle} {stmts : List Stmt} {succs : List Handle}

theorem live (hb : g.HasBlock h stmts succs) : g.nodes.contains h = true := by
  obtain ⟨label, hl⟩ := hb
  exact contains_of_get? hl

theorem succs_eq (hb : g.HasBlock h stmts succs) : g.succs h = succs := by
  obtain ⟨label, hl⟩ := hb
  exact succs_of_get? hl

theorem congr (hb : g.HasBlock h stmts succs) (he : g'.nodes.get? h = g.nodes.get? h) :
    g'.HasBlock h stmts succs := by
  obtain ⟨label, hl⟩ := hb
  exact ⟨label, he.trans hl⟩

end FlowGraph.HasBlock

namespace Assembly

variable {s s' : Assembly} {h : Handle} {stmts : List Stmt} {succs : List Handle}

/-- The blocks of conditional edges: each has the statements of its edge and leads to its target. -/
def EdgesLaid (g : FlowGraph) (place : BlockId → Handle) (edges : List EdgeCode)
    (middles : List Handle) : Prop :=
  List.Forall₂ (fun edge m => g.HasBlock m edge.stmts [place edge.target]) edges middles

theorem EdgesLaid.congr {g g' : FlowGraph} {place : BlockId → Handle} {edges : List EdgeCode}
    {middles : List Handle} (hl : EdgesLaid g place edges middles)
    (he : ∀ m ∈ middles, g'.nodes.get? m = g.nodes.get? m) : EdgesLaid g' place edges middles := by
  induction hl with
  | nil => exact .nil
  | cons hb _ ih =>
      obtain ⟨h₁, h₂⟩ := List.forall_mem_cons.1 he
      exact .cons (hb.congr h₁) (ih h₂)

theorem EdgesLaid.live {g : FlowGraph} {place : BlockId → Handle} {edges : List EdgeCode}
    {middles : List Handle} (hl : EdgesLaid g place edges middles) :
    ∀ m ∈ middles, g.nodes.contains m = true := by
  induction hl with
  | nil => simp
  | cons hb _ ih => exact List.forall_mem_cons.2 ⟨hb.live, ih⟩

/-- The graph after a step has the same entry, and source blocks are where they were. -/
structure Keeps (s s' : Assembly) : Prop where
  placed_eq : s'.placed = s.placed
  entry_eq : s'.graph.entry = s.graph.entry

namespace Keeps

theorem handle_eq (hk : Keeps s s') : s'.handle = s.handle := by
  funext id
  rw [handle, handle, hk.placed_eq, hk.entry_eq]

theorem trans {s'' : Assembly} (h : Keeps s s') (k : Keeps s' s'') : Keeps s s'' :=
  ⟨k.placed_eq.trans h.placed_eq, k.entry_eq.trans h.entry_eq⟩

end Keeps

/-- What adding the edges that leave `h` does: `middles` are their blocks. -/
structure EdgesAdded (s s' : Assembly) (h : Handle) (edges : List EdgeCode)
    (middles : List Handle) : Prop extends Keeps s s' where
  returning_eq : s'.returning = s.returning
  laid : EdgesLaid s'.graph s.handle edges middles
  nodup : middles.Nodup
  fresh : ∀ m ∈ middles, s.graph.nodes.contains m = false
  other : ∀ k, k ≠ h → k ∉ middles → s'.graph.nodes.get? k = s.graph.nodes.get? k

theorem get?_addEdge (hh : s.graph.nodes.contains h = true) (edge : EdgeCode) (k : Handle) :
    (s.addEdge h edge).graph.nodes.get? k =
      if k = s.graph.nodes.nextHandle then
        some ⟨(s.graph.labels.claim edge.label).1, edge.stmts, [s.handle edge.target]⟩
      else if k = h then (s.graph.nodes.get? k).map (·.connect s.graph.nodes.nextHandle)
      else s.graph.nodes.get? k := by
  have hne := FlowGraph.ne_nextHandle hh
  simp only [addEdge, FlowGraph.get?_append, FlowGraph.get?_connect, FlowGraph.get?_insertNode]
  by_cases he : k = s.graph.nodes.nextHandle
  · simp [he, hne.symm, Node.connect, Node.append]
  · simp [he]

theorem connect_of_not_mem {n : Node} {target : Handle} (hn : target ∉ n.succs) :
    n.connect target = { n with succs := n.succs ++ [target] } := by
  rw [Node.connect, if_neg hn]

theorem addEdges_spec (edges : List EdgeCode) (hb : s.graph.HasBlock h stmts succs)
    (hlive : ∀ k ∈ succs, s.graph.nodes.contains k = true) :
    ∃ middles, EdgesAdded s (addEdges h edges s) h edges middles ∧
      (addEdges h edges s).graph.HasBlock h stmts (succs ++ middles) := by
  induction edges generalizing s succs with
  | nil =>
      refine ⟨[], ⟨⟨rfl, rfl⟩, rfl, .nil, .nil, by simp, fun _ _ _ => rfl⟩, ?_⟩
      rw [List.append_nil]
      exact hb
  | cons edge rest ih =>
      obtain ⟨label, hl⟩ := hb
      have hh := FlowGraph.contains_of_get? hl
      have hget := get?_addEdge hh edge
      have hne := FlowGraph.ne_nextHandle hh
      have hnew : s.graph.nodes.nextHandle ∉ succs := fun hm =>
        FlowGraph.ne_nextHandle (hlive _ hm) rfl
      have hblock : (s.addEdge h edge).graph.HasBlock h stmts
          (succs ++ [s.graph.nodes.nextHandle]) := by
        refine ⟨label, ?_⟩
        rw [hget, if_neg hne, if_pos rfl, hl, Option.map_some, connect_of_not_mem hnew]
      have hlive' : ∀ k, s.graph.nodes.contains k = true →
          (s.addEdge h edge).graph.nodes.contains k = true := by
        intro k hk
        rw [Arena.contains, hget, if_neg (FlowGraph.ne_nextHandle hk)]
        split
        · rwa [Option.isSome_map]
        · exact hk
      have hmiddle : (s.addEdge h edge).graph.HasBlock s.graph.nodes.nextHandle edge.stmts
          [s.handle edge.target] := ⟨_, by rw [hget, if_pos rfl]⟩
      obtain ⟨middles, hadded, hb'⟩ := ih hblock (by
        simp only [List.mem_append, List.mem_singleton]
        rintro k (hk | rfl)
        · exact hlive' k (hlive k hk)
        · exact hmiddle.live)
      have hkeeps : Keeps s (s.addEdge h edge) := ⟨rfl, rfl⟩
      have hlaid := hadded.laid
      rw [hkeeps.handle_eq] at hlaid
      have hfirst : s.graph.nodes.nextHandle ∉ middles := fun hm => by
        simpa [hmiddle.live] using hadded.fresh _ hm
      refine ⟨s.graph.nodes.nextHandle :: middles, ⟨hkeeps.trans hadded.toKeeps,
        hadded.returning_eq, .cons ?_ hlaid, List.nodup_cons.2 ⟨hfirst, hadded.nodup⟩, ?_, ?_⟩, ?_⟩
      · exact hmiddle.congr (hadded.other _ hne.symm hfirst)
      · refine List.forall_mem_cons.2 ⟨by simp [Arena.contains], fun m hm => ?_⟩
        rw [← Bool.not_eq_true]
        intro hm'
        simpa [hlive' m hm'] using hadded.fresh m hm
      · intro k hkh hk
        obtain ⟨h₁, h₂⟩ := not_or.1 (mt List.mem_cons.2 hk)
        exact (hadded.other k hkh h₂).trans (by rw [hget, if_neg h₁, if_neg hkh])
      · rw [List.append_assoc] at hb'
        exact hb'

end Assembly

end AffineFlow
