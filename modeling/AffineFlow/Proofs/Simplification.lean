import AffineFlow.Proofs.Merging.Turns
import AffineFlow.Proofs.Reachability

/-!
# Simplification keeps the traces

On a well-formed graph whose exit is final, simplification succeeds, and the
graph it returns shows the same complete and the same partial traces. What a
step of merging keeps is a relation between the graphs before and after it, so
the run is a chain of such steps.
-/
namespace AffineFlow

/-- `g'` can stand for `g`: it is well formed, its exit is final and it has the traces of `g`. -/
structure FlowGraph.Simplifies (g g' : FlowGraph) : Prop where
  wellFormed : g'.WellFormed
  exit_final : g'.succs g'.exit = []
  sameTraces : g.SameTraces g'

namespace FlowGraph.Simplifies

variable {g₁ g₂ g₃ : FlowGraph}

theorem refl (hg : g₁.WellFormed) (hx : g₁.succs g₁.exit = []) : g₁.Simplifies g₁ :=
  ⟨hg, hx, .refl g₁⟩

theorem trans (h : g₁.Simplifies g₂) (k : g₂.Simplifies g₃) : g₁.Simplifies g₃ :=
  ⟨k.wellFormed, k.exit_final, h.sameTraces.trans k.sameTraces⟩

end FlowGraph.Simplifies

namespace FlowGraph

variable {g g' : FlowGraph} {b t : Handle}

theorem Bypassed.simplifies (hb : g.Bypassed g' b t) (hf : g.Forwards b t) (hg : g.WellFormed)
    (hx : g.succs g.exit = []) : g.Simplifies g' := by
  refine ⟨hb.wellFormed hf hg, ?_, hb.sameTraces hf hg.toClosed⟩
  rw [List.eq_nil_iff_forall_not_mem, hb.exit_eq]
  intro k hk
  have hnone : ∀ m, m ∉ g.succs g.exit := fun m => by rw [hx]; exact List.not_mem_nil
  obtain ⟨-, ⟨hk, -⟩ | ⟨-, hk⟩⟩ := (hb.mem_succs_iff hf).1 hk
  · exact hnone _ hk
  · exact hnone _ hk

theorem Absorbed.simplifies (ha : g.Absorbed g' b t) (hp : g.Precedes b t) (hg : g.WellFormed)
    (hx : g.succs g.exit = []) : g.Simplifies g' :=
  ⟨ha.wellFormed hp hg, ha.exit_final hp hg.toClosed hx, ha.sameTraces hp hg.toClosed hx⟩

end FlowGraph

namespace Merging

variable {s : Merging} {b : Handle}

/-- A step on a live block that does not wait succeeds. -/
theorem step_spec (hv : s.Valid) (hx : s.graph.succs s.graph.exit = [])
    (hb : s.graph.nodes.contains b = true) (hwait : b ∉ s.pending) (notes : List Note) :
    ∃ s' notes', Yields (s.step b) notes s' notes' ∧ s'.Valid ∧
      s.graph.Simplifies s'.graph := by
  obtain ⟨a, s', -, hcarried, hv', hruns⟩ := step_carried hv hb hwait
  obtain ⟨notes', hrun⟩ := hruns notes
  refine ⟨s', notes', hrun, hv', ?_⟩
  cases hcarried with
  | keep => exact .refl hv.wellFormed hx
  | bypass hforwards hbypassed _ => exact hbypassed.simplifies hforwards hv.wellFormed hx
  | absorb hprecedes habsorbed _ => exact habsorbed.simplifies hprecedes hv.wellFormed hx

theorem run_spec (fuel : Nat) (hv : s.Valid) (hx : s.graph.succs s.graph.exit = [])
    (notes : List Note) : ∃ s' notes', Yields (s.run fuel) notes s' notes' ∧ s'.Valid ∧
      s.graph.Simplifies s'.graph := by
  induction fuel generalizing s notes with
  | zero =>
      refine ⟨s, notes, ?_, hv, .refl hv.wellFormed hx⟩
      rw [run, yields_pure]
      exact ⟨rfl, rfl⟩
  | succ fuel ih =>
      unfold run
      split
      next =>
        refine ⟨s, notes, ?_, hv, .refl hv.wellFormed hx⟩
        rw [yields_pure]
        exact ⟨rfl, rfl⟩
      next b rest hpending =>
        obtain ⟨hpop, hwait, hb⟩ := hv.pop hpending
        obtain ⟨s₁, notes₁, hstep, hv₁, h₁⟩ := step_spec hpop hx hb hwait notes
        obtain ⟨s₂, notes₂, hrun, hv₂, h₂⟩ := ih hv₁ h₁.exit_final notes₁
        exact ⟨s₂, notes₂, yields_bind.2 ⟨s₁, notes₁, hstep, hrun⟩, hv₂, h₁.trans h₂⟩

end Merging

namespace FlowGraph

variable {g : FlowGraph}

theorem merge_simplifies (hg : g.WellFormed) (hx : g.succs g.exit = []) (notes : List Note) :
    ∃ g' notes', Yields g.merge notes g' notes' ∧ g.Simplifies g' := by
  obtain ⟨s, notes', hrun, -, hs⟩ :=
    Merging.run_spec (2 * g.nodes.size) (Merging.startMerging_valid hg) hx notes
  refine ⟨s.graph, notes', ?_, hs⟩
  simp only [merge, yields_bind, yields_pure]
  exact ⟨s, notes', hrun, rfl, rfl⟩

theorem removeUnreachable_simplifies (hg : g.WellFormed) (hx : g.succs g.exit = [])
    (notes : List Note) :
    ∃ g' notes', Yields g.removeUnreachable notes g' notes' ∧ g.Simplifies g' := by
  obtain ⟨reached, g', notes', hrun, hclosed, hr⟩ := removeUnreachable_restricts hg.toClosed notes
  exact ⟨g', notes', hrun, hr.wellFormed hclosed hg hx, hr.exit_final hx, hr.sameTraces hclosed⟩

/-- Simplification succeeds and changes neither what the walks from the entry to the exit show nor
what any walk from the entry shows up to some statement. -/
theorem simplify_sameTraces (hg : g.WellFormed) (hx : g.succs g.exit = []) (notes : List Note) :
    ∃ g' notes', Yields g.simplify notes g' notes' ∧
      (∀ w, g'.CompleteTrace w ↔ g.CompleteTrace w) ∧
      (∀ w, g'.PartialTrace w ↔ g.PartialTrace w) := by
  obtain ⟨g₁, notes₁, h₁, hs₁⟩ :=
    removeUnreachable_simplifies hg hx (notes ++ [.simplifying g.nodes.size])
  obtain ⟨g₂, notes₂, h₂, hs₂⟩ := merge_simplifies hs₁.wellFormed hs₁.exit_final notes₁
  have hsame := hs₁.sameTraces.trans hs₂.sameTraces
  refine ⟨g₂, notes₂ ++ [.simplified g₂.nodes.size], ?_, hsame.complete, hsame.partials⟩
  simp only [simplify, yields_bind, Noted.yields_tell, yields_pure]
  exact ⟨(), _, rfl, g₁, notes₁, h₁, g₂, notes₂, h₂, (), _, rfl, rfl, rfl⟩

/-- A loop with an empty head that the body goes back to, and an end. -/
def loopWithEnd : FlowGraph :=
  let entry : Handle := ⟨0, 0⟩
  let head : Handle := ⟨1, 1⟩
  let body : Handle := ⟨2, 2⟩
  let stop : Handle := ⟨3, 3⟩
  let blocks := (((singleton "entry").insertNode "head").insertNode "body").insertNode "end"
  let edges := (((blocks.connect entry head).connect head body).connect body head).connect body stop
  { edges.append body [.unreachable] with exit := stop }

theorem simplify_sameTraces_loopWithEnd :
    loopWithEnd.WellFormed ∧ loopWithEnd.succs loopWithEnd.exit = [] ∧
    ∃ g' notes', Yields loopWithEnd.simplify [] g' notes' ∧
      (∀ w, g'.CompleteTrace w ↔ loopWithEnd.CompleteTrace w) ∧
      (∀ w, g'.PartialTrace w ↔ loopWithEnd.PartialTrace w) :=
  ⟨by decide, by decide, simplify_sameTraces (by decide) (by decide) []⟩

end FlowGraph

end AffineFlow
