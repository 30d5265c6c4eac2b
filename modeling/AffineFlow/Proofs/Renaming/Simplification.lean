import AffineFlow.FlowGraph.Merge
import AffineFlow.Proofs.Renaming.Graphs

/-!
# Simplification commutes with renaming

Simplification looks at the edges and asks whether a block has statements, never
what they say. So it does to a graph with renamed variables what it does to the
graph, fails where it fails on the graph, and both whatever notes were made
before.
-/
namespace AffineFlow

variable (π : Var → Var)

namespace Noted

variable {ε α β γ : Type} [Renamable α] [Renamable β]

/-- The outcomes are the same failure, or results of which the second is the first with renamed
variables. -/
inductive OutcomesMirror (π : Var → Var) :
    EStateM.Result ε (List Note) α → EStateM.Result ε (List Note) α → Prop
  | ok (a : α) (notes notes' : List Note) :
      OutcomesMirror π (.ok a notes) (.ok (rename π a) notes')
  | error (e : ε) (notes notes' : List Note) : OutcomesMirror π (.error e notes) (.error e notes')

theorem OutcomesMirror.eq_rename {π : Var → Var} {a b : α} {notes notes' : List Note}
    (h : OutcomesMirror π (.ok a notes : EStateM.Result ε (List Note) α) (.ok b notes')) :
    b = rename π a := by
  cases h
  rfl

/-- Whatever notes were made before, the second computation ends as the first one does, with its
variables renamed. -/
def Mirrors (π : Var → Var) (c d : Noted ε α) : Prop :=
  ∀ notes notes', OutcomesMirror π (c notes) (d notes')

namespace Mirrors

variable {π : Var → Var} {c d : Noted ε α} {f g : α → Noted ε β}

theorem pure (a : α) : Mirrors π (pure a : Noted ε α) (pure (rename π a)) := .ok a

theorem bind (hc : Mirrors π c d) (hf : ∀ a, Mirrors π (f a) (g (rename π a))) :
    Mirrors π (c >>= f) (d >>= g) := by
  intro notes notes'
  have hcd := hc notes notes'
  show OutcomesMirror π (EStateM.bind c f notes) (EStateM.bind d g notes')
  unfold EStateM.bind
  generalize c notes = x at hcd
  generalize d notes' = y at hcd
  cases hcd with
  | ok a n n' => exact hf a n n'
  | error e n n' => exact .error e n n'

theorem tellAll_bind {ns ms : List Note} (h : Mirrors π c d) :
    Mirrors π (tellAll ns >>= fun _ => c) (tellAll ms >>= fun _ => d) :=
  fun notes notes' => h (notes ++ ns) (notes' ++ ms)

theorem tell_bind {n m : Note} (h : Mirrors π c d) :
    Mirrors π (tell n >>= fun _ => c) (tell m >>= fun _ => d) :=
  fun notes notes' => h (notes ++ [n]) (notes' ++ [m])

theorem ofExcept (x : Except ε α) :
    Mirrors π (ofExcept x) (ofExcept (x.map (rename π))) := by
  cases x with
  | ok a => exact .ok a
  | error e => exact .error e

/-- Both computations ask one question. -/
theorem ofExcept_bind {x : Except ε γ} {f g : γ → Noted ε β} (h : ∀ a, Mirrors π (f a) (g a)) :
    Mirrors π (Noted.ofExcept x >>= f) (Noted.ofExcept x >>= g) := by
  cases x with
  | ok a => exact h a
  | error e => exact .error e

end Mirrors

end Noted

open Noted

namespace FlowGraph

variable (g : FlowGraph)

theorem exploreFrom_rename (fuel : Nat) (stack seen : List Handle) :
    (rename π g).exploreFrom fuel stack seen = g.exploreFrom fuel stack seen := by
  induction fuel generalizing stack seen with
  | zero => cases stack <;> rfl
  | succ fuel ih =>
      cases stack with
      | nil => rfl
      | cons h stack =>
          simp only [exploreFrom, node_rename]
          cases g.node h with
          | error e => rfl
          | ok n => exact ih _ _

theorem reachable_rename : (rename π g).reachable = g.reachable := by
  rw [reachable, exploreFrom_rename, nodes_rename, Arena.size_map]
  rfl

theorem predTable_rename : (rename π g).predTable = g.predTable := by
  simp only [predTable, predecessors, nodes_rename, Arena.handles_map, succs_rename]

/-- The same blocks are dropped. -/
theorem removeUnreachable_mirrors :
    Mirrors π g.removeUnreachable (rename π g).removeUnreachable := by
  unfold removeUnreachable
  rw [reachable_rename]
  refine .ofExcept_bind fun reached => .tellAll_bind ?_
  rw [nodes_rename, ← Arena.map_retain]
  exact .pure _

end FlowGraph

instance : Renamable Merging :=
  ⟨fun π s => { s with graph := rename π s.graph }⟩

namespace Merging

variable (s : Merging)

@[simp] theorem graph_rename : (rename π s).graph = rename π s.graph := rfl

@[simp] theorem preds_rename : (rename π s).preds = s.preds := rfl

@[simp] theorem pending_rename : (rename π s).pending = s.pending := rfl

theorem succs_rename (n : Node) : (rename π n).succs = n.succs := rfl

theorem actionTowards_rename (b : Handle) (n : Node) (t : Handle) :
    (rename π s).actionTowards b (rename π n) t = s.actionTowards b n t := by
  have hempty : (rename π n).stmts.isEmpty = n.stmts.isEmpty := List.isEmpty_map
  have hlive : (rename π s).graph.nodes.contains t = s.graph.nodes.contains t :=
    Arena.contains_map _ _ t
  unfold actionTowards isForwarder
  rw [hempty, hlive]
  rfl

theorem action_rename (b : Handle) : (rename π s).action b = s.action b := by
  simp only [action, graph_rename, FlowGraph.node_rename]
  cases s.graph.node b with
  | error e => rfl
  | ok n => simp only [Except.map, succs_rename, actionTowards_rename]

theorem rename_redirectAll (source target : Handle) (preds : List Handle) (g : FlowGraph) :
    redirectAll source target preds (rename π g) =
      (redirectAll source target preds g).map (rename π) := by
  induction preds generalizing g with
  | nil => rfl
  | cons p rest ih =>
      simp only [redirectAll, FlowGraph.node_rename]
      cases g.node p with
      | error e => rfl
      | ok n =>
          show redirectAll source target rest ((rename π g).modifyNode p _) = _
          rw [← FlowGraph.rename_modifyNode π g p (u := redirect source target) fun _ => rfl, ih]

theorem bypass_rename (b t : Handle) :
    (rename π s).bypass b t = (s.bypass b t).map (rename π) := by
  simp only [bypass, graph_rename, preds_rename, ← FlowGraph.rename_removeNode,
    rename_redirectAll]
  cases s.preds.get? b with
  | none => rfl
  | some preds =>
      dsimp only
      cases redirectAll b t preds (s.graph.removeNode b) <;> rfl

theorem rename_followedBy (m n : Node) :
    rename π (followedBy m n) = followedBy (rename π m) (rename π n) := by
  show Node.mk _ (rename π (n.stmts ++ m.stmts)) _ = _
  rw [rename_append]
  rfl

theorem absorb_rename (b t : Handle) :
    (rename π s).absorb b t = (s.absorb b t).map (rename π) := by
  simp only [absorb, graph_rename, preds_rename, FlowGraph.node_rename]
  cases s.graph.node t with
  | error e => rfl
  | ok m =>
      simp only [Except.map, succs_rename]
      cases replacePred b t m.succs (s.preds.erase t) with
      | error e => rfl
      | ok preds =>
          simp only [← FlowGraph.rename_removeNode,
            ← FlowGraph.rename_modifyNode π _ b (rename_followedBy π m)]
          rfl

theorem step_mirrors (b : Handle) : Mirrors π (s.step b) ((rename π s).step b) := by
  have hnode : ∀ h, (rename π s).graph.node h = (s.graph.node h).map (rename π) :=
    FlowGraph.node_rename π s.graph
  unfold step
  rw [action_rename]
  refine .ofExcept_bind fun action => ?_
  cases action with
  | keep => exact .pure s
  | bypass t =>
      simp only [hnode, bypass_rename]
      exact .bind (.ofExcept _) fun n => .bind (.ofExcept _) fun m => .tell_bind (.ofExcept _)
  | absorb t =>
      simp only [hnode, absorb_rename]
      exact .bind (.ofExcept _) fun n => .bind (.ofExcept _) fun m => .tell_bind (.ofExcept _)

theorem run_mirrors (fuel : Nat) : Mirrors π (run fuel s) (run fuel (rename π s)) := by
  induction fuel generalizing s with
  | zero => exact .pure s
  | succ fuel ih =>
      unfold run
      rw [pending_rename]
      split
      · exact .pure s
      · next b rest _ =>
        exact .bind (step_mirrors π { s with pending := rest } b) fun s' => ih s'

end Merging

namespace FlowGraph

variable (g : FlowGraph)

theorem merge_mirrors : Mirrors π g.merge (rename π g).merge := by
  have hstart : (rename π g).startMerging = rename π g.startMerging := by
    unfold startMerging
    rw [predTable_rename, nodes_rename, Arena.handles_map]
    rfl
  unfold merge
  rw [hstart, nodes_rename, Arena.size_map]
  exact .bind (Merging.run_mirrors π g.startMerging _) fun s => .pure s.graph

theorem simplify_mirrors : Mirrors π g.simplify (rename π g).simplify :=
  .tell_bind (.bind (removeUnreachable_mirrors π g) fun closed =>
    .bind (merge_mirrors π closed) fun merged => .tell_bind (.pure merged))

end FlowGraph

end AffineFlow
