import AffineFlow.FlowGraph.Reachability
import AffineFlow.Proofs.Outcome
import AffineFlow.Proofs.Trace
import Mathlib.Data.List.Basic
import Mathlib.Data.List.Perm.Subperm
import Mathlib.Logic.Relation

/-!
# Removal of unreachable blocks

In a closed graph the search from the entry takes each block that it reaches off
its stack once, and ends with a set of blocks that no edge leaves. So every walk
from the entry stays among the kept blocks, and the graph with the kept blocks
has the same traces.
-/
namespace AffineFlow

theorem nodup_eraseDups {α : Type} [DecidableEq α] (l : List α) : l.eraseDups.Nodup := by
  cases l with
  | nil => simp
  | cons a rest =>
      rw [List.eraseDups_cons, List.nodup_cons]
      refine ⟨?_, nodup_eraseDups (rest.filter fun b => !b == a)⟩
      simp [List.mem_eraseDups]
termination_by l.length
decreasing_by exact Nat.lt_succ_of_le (List.length_filter_le _ _)

namespace FlowGraph

variable {g : FlowGraph} {h k : Handle} {w : List Stmt}

def Edge (g : FlowGraph) (h k : Handle) : Prop := k ∈ g.succs h

/-- A way along edges leads from the one block to the other. -/
abbrev Reaches (g : FlowGraph) : Handle → Handle → Prop := Relation.ReflTransGen g.Edge

theorem Closed.live_of_reaches (hg : g.Closed) (hr : g.Reaches g.entry h) :
    g.nodes.contains h = true := by
  cases hr with
  | refl => exact hg.entry_live
  | tail _ hedge => exact hg.succs_live _ h hedge

/-- The live blocks that a search has not seen. -/
def unseen (g : FlowGraph) (seen : List Handle) : List Handle :=
  g.nodes.handles.filter (· ∉ seen)

/-- What a search finds is no longer unseen. -/
theorem length_unseen_append {seen found : List Handle} (hn : found.Nodup)
    (hf : ∀ h ∈ found, g.nodes.contains h = true ∧ h ∉ seen) :
    (g.unseen (seen ++ found)).length + found.length ≤ (g.unseen seen).length := by
  have hsplit := List.length_eq_length_filter_add (l := g.unseen seen) (· ∈ found)
  have hsub : found ⊆ (g.unseen seen).filter (· ∈ found) := by
    intro h hh
    simp only [unseen, List.mem_filter, Arena.mem_handles_iff, decide_eq_true_eq]
    exact ⟨⟨(hf h hh).1, (hf h hh).2⟩, hh⟩
  have hle := (hn.subperm hsub).length_le
  have hrest : g.unseen (seen ++ found) = (g.unseen seen).filter fun h => !decide (h ∈ found) := by
    simp only [unseen, List.filter_filter]
    apply List.filter_congr
    intro h _
    by_cases h₁ : h ∈ seen <;> by_cases h₂ : h ∈ found <;> simp [h₁, h₂]
  rw [hrest]
  omega

/-- The state of a search: every seen block that does not wait has its successors seen. -/
structure Search (g : FlowGraph) (stack seen : List Handle) : Prop where
  seen_live : ∀ h ∈ seen, g.nodes.contains h = true
  stack_seen : ∀ h ∈ stack, h ∈ seen
  explored : ∀ h ∈ seen, h ∉ stack → ∀ k ∈ g.succs h, k ∈ seen

theorem Search.step {seen stack : List Handle} {n : Node} (hg : g.Closed)
    (hs : g.Search (h :: stack) seen) (hn : g.nodes.get? h = some n) :
    g.Search ((n.succs.filter (· ∉ seen)).eraseDups.reverse ++ stack)
      (seen ++ (n.succs.filter (· ∉ seen)).eraseDups) := by
  have hsucc : ∀ k ∈ n.succs, g.nodes.contains k = true := fun k hk =>
    hg.succs_live h k (succs_of_get? hn ▸ hk)
  refine ⟨?_, ?_, ?_⟩
  · intro k hk
    rcases List.mem_append.1 hk with hk | hk
    · exact hs.seen_live k hk
    · exact hsucc k (List.mem_of_mem_filter (List.mem_eraseDups.1 hk))
  · intro k hk
    rcases List.mem_append.1 hk with hk | hk
    · exact List.mem_append_right _ (List.mem_reverse.1 hk)
    · exact List.mem_append_left _ (hs.stack_seen k (List.mem_cons_of_mem _ hk))
  · intro k hk hw m hm
    rw [List.mem_append, List.mem_reverse, not_or] at hw
    have hk' : k ∈ seen := (List.mem_append.1 hk).resolve_right hw.1
    rw [List.mem_append, List.mem_eraseDups, List.mem_filter]
    by_cases he : k = h
    · -- the block just taken off the stack: what was not seen before is found now
      subst he
      rw [succs_of_get? hn] at hm
      by_cases hseen : m ∈ seen
      · exact .inl hseen
      · exact .inr ⟨hm, by simpa using hseen⟩
    · refine .inl (hs.explored k hk' ?_ m hm)
      simpa [he] using hw.2

/-- The search without a bound on its turns: how many it takes until no block waits, and what has
been seen then. -/
inductive Explores (g : FlowGraph) : Nat → List Handle → List Handle → List Handle → Prop
  | done {seen : List Handle} : Explores g 0 [] seen seen
  | turn {turns : Nat} {h : Handle} {n : Node} {stack seen reached : List Handle} :
      g.nodes.get? h = some n →
      Explores g turns ((n.succs.filter (· ∉ seen)).eraseDups.reverse ++ stack)
        (seen ++ (n.succs.filter (· ∉ seen)).eraseDups) reached →
      Explores g (turns + 1) (h :: stack) seen reached

/-- Each turn takes one block off the stack, and puts only blocks on it that were not seen. -/
theorem exists_explores (hg : g.Closed) (bound : Nat) {stack seen : List Handle}
    (hs : g.Search stack seen) (hb : (g.unseen seen).length + stack.length ≤ bound) :
    ∃ turns reached, g.Explores turns stack seen reached ∧ turns ≤ bound := by
  induction bound generalizing stack seen with
  | zero =>
      obtain rfl : stack = [] := List.length_eq_zero_iff.1 (by omega)
      exact ⟨0, seen, .done, Nat.le_refl _⟩
  | succ bound ih =>
      cases stack with
      | nil => exact ⟨0, seen, .done, Nat.zero_le _⟩
      | cons h stack =>
          obtain ⟨n, hn⟩ := exists_node (hs.seen_live h (hs.stack_seen h List.mem_cons_self))
          have hnew : ∀ k ∈ (n.succs.filter (· ∉ seen)).eraseDups,
              g.nodes.contains k = true ∧ k ∉ seen := by
            intro k hk
            obtain ⟨hk, hseen⟩ := List.mem_filter.1 (List.mem_eraseDups.1 hk)
            exact ⟨hg.succs_live h k (succs_of_get? hn ▸ hk), by simpa using hseen⟩
          have hfound := length_unseen_append (nodup_eraseDups _) hnew
          have hless : (g.unseen (seen ++ (n.succs.filter (· ∉ seen)).eraseDups)).length +
              ((n.succs.filter (· ∉ seen)).eraseDups.reverse ++ stack).length ≤ bound := by
            simp only [List.length_append, List.length_reverse, List.length_cons] at hb ⊢
            omega
          obtain ⟨turns, reached, hr, hle⟩ := ih (hs.step hg hn) hless
          exact ⟨turns + 1, reached, .turn hn hr, Nat.succ_le_succ hle⟩

namespace Explores

variable {turns fuel : Nat} {stack seen reached : List Handle}

theorem exploreFrom_eq (he : g.Explores turns stack seen reached) (hf : turns ≤ fuel) :
    g.exploreFrom fuel stack seen = .ok reached := by
  induction he generalizing fuel with
  | done => simp [exploreFrom]
  | turn hn _ ih =>
      obtain ⟨fuel, rfl⟩ := Nat.exists_eq_add_of_lt hf
      simp only [exploreFrom, node_eq_ok_iff.2 hn]
      exact ih (by omega)

/-- At the end no seen block has a successor that was not seen. -/
theorem closed (he : g.Explores turns stack seen reached) (hg : g.Closed)
    (hs : g.Search stack seen) : g.Search [] reached ∧ seen ⊆ reached := by
  induction he with
  | done => exact ⟨hs, List.Subset.refl _⟩
  | turn hn _ ih =>
      obtain ⟨hclosed, hsub⟩ := ih (hs.step hg hn)
      exact ⟨hclosed, fun k hk => hsub (List.mem_append_left _ hk)⟩

/-- Only ends of edges from blocks on the stack are seen in addition. -/
theorem reaches (he : g.Explores turns stack seen reached) (hstack : stack ⊆ seen)
    (hseen : ∀ k ∈ seen, g.Reaches h k) : ∀ k ∈ reached, g.Reaches h k := by
  induction he with
  | done => exact hseen
  | @turn _ m n stack seen _ hn _ ih =>
      obtain ⟨hm, hstack⟩ := List.cons_subset.1 hstack
      refine ih (fun k hk => ?_) (fun k hk => ?_)
      · rcases List.mem_append.1 hk with hk | hk
        · exact List.mem_append_right _ (List.mem_reverse.1 hk)
        · exact List.mem_append_left _ (hstack hk)
      · rcases List.mem_append.1 hk with hk | hk
        · exact hseen k hk
        · have hedge : k ∈ g.succs m := by
            rw [succs_of_get? hn]
            exact List.mem_of_mem_filter (List.mem_eraseDups.1 hk)
          exact (hseen m hm).tail hedge

end Explores

/-- Blocks that contain the entry and that no edge leaves. -/
structure ClosedSet (g : FlowGraph) (reached : List Handle) : Prop where
  entry_mem : g.entry ∈ reached
  live : ∀ h ∈ reached, g.nodes.contains h = true
  succs_mem : ∀ h ∈ reached, ∀ k ∈ g.succs h, k ∈ reached

theorem ClosedSet.mem_of_reaches {reached : List Handle} (hc : g.ClosedSet reached)
    (hr : g.Reaches g.entry h) : h ∈ reached := by
  induction hr with
  | refl => exact hc.entry_mem
  | tail _ hedge ih => exact hc.succs_mem _ ih _ hedge

/-- Each block is taken off the stack at most once, and what has been seen in the end is what the
entry reaches. -/
theorem exists_explores_entry (hg : g.Closed) :
    ∃ turns reached, g.Explores turns [g.entry] [g.entry] reached ∧ turns ≤ g.nodes.size ∧
      g.ClosedSet reached ∧ ∀ h, h ∈ reached ↔ g.Reaches g.entry h := by
  have hstart : g.Search [g.entry] [g.entry] :=
    ⟨by simpa using hg.entry_live, by simp, by simp⟩
  have hbound : (g.unseen [g.entry]).length + [g.entry].length ≤ g.nodes.size := by
    have hfirst : (g.unseen ([] ++ [g.entry])).length + [g.entry].length ≤ (g.unseen []).length :=
      length_unseen_append (by simp) (by simpa using hg.entry_live)
    have hall : (g.unseen []).length ≤ g.nodes.handles.length := List.length_filter_le _ _
    rw [List.nil_append] at hfirst
    simpa [Arena.size, Arena.handles] using Nat.le_trans hfirst hall
  obtain ⟨turns, reached, he, hle⟩ := exists_explores hg _ hstart hbound
  obtain ⟨hs, hsub⟩ := he.closed hg hstart
  have hc : g.ClosedSet reached :=
    ⟨hsub List.mem_cons_self, hs.seen_live, fun h hh => hs.explored h hh List.not_mem_nil⟩
  refine ⟨turns, reached, he, hle, hc, fun h => ⟨?_, hc.mem_of_reaches⟩⟩
  refine he.reaches (List.Subset.refl _) (fun k hk => ?_) h
  obtain rfl := List.mem_singleton.1 hk
  exact .refl

/-- The graph keeps the blocks of `reached` and its exit, and loses the others. -/
structure RestrictedTo (g g' : FlowGraph) (reached : List Handle) : Prop where
  entry_eq : g'.entry = g.entry
  exit_eq : g'.exit = g.exit
  get?_eq : ∀ h, g'.nodes.get? h = if h ∈ reached ∨ h = g.exit then g.nodes.get? h else none

/-- What has been found decides what is kept, whatever notes have been made. -/
theorem removeUnreachable_of_reachable {reached : List Handle} (hr : g.reachable = .ok reached) :
    ∃ g', g.RestrictedTo g' reached ∧
      ∀ notes, ∃ notes', Yields g.removeUnreachable notes g' notes' := by
  refine ⟨{ g with nodes := g.nodes.retain fun h => h ∈ reached || h = g.exit },
    ⟨rfl, rfl, fun h => ?_⟩, fun notes => ?_⟩
  · rw [Arena.get?_retain]
    simp only [Bool.or_eq_true, decide_eq_true_eq]
  · simp only [removeUnreachable, yields_bind, Noted.yields_ofExcept, Noted.yields_tellAll,
      yields_pure]
    exact ⟨_, reached, notes, ⟨hr, rfl⟩, (), _, rfl, rfl, rfl⟩

theorem removeUnreachable_restricts (hg : g.Closed) (notes : List Note) :
    ∃ reached g' notes', Yields g.removeUnreachable notes g' notes' ∧ g.ClosedSet reached ∧
      g.RestrictedTo g' reached := by
  obtain ⟨turns, reached, he, hle, hc, -⟩ := exists_explores_entry hg
  have hreachable : g.reachable = .ok reached := he.exploreFrom_eq (Nat.le_succ_of_le hle)
  obtain ⟨g', hr, hruns⟩ := removeUnreachable_of_reachable hreachable
  obtain ⟨notes', hrun⟩ := hruns notes
  exact ⟨reached, g', notes', hrun, hc, hr⟩

namespace RestrictedTo

variable {g' : FlowGraph} {reached : List Handle}

theorem get?_of_mem (hr : g.RestrictedTo g' reached) (hh : h ∈ reached) :
    g'.nodes.get? h = g.nodes.get? h := by
  rw [hr.get?_eq, if_pos (.inl hh)]

theorem get?_of_some {n : Node} (hr : g.RestrictedTo g' reached) (hn : g'.nodes.get? h = some n) :
    g.nodes.get? h = some n := by
  rw [hr.get?_eq] at hn
  split at hn
  · exact hn
  · cases hn

theorem mem_succs (hr : g.RestrictedTo g' reached) (hk : k ∈ g'.succs h) : k ∈ g.succs h := by
  obtain ⟨n, hn, hk⟩ := mem_succs_iff.1 hk
  exact mem_succs_iff.2 ⟨n, hr.get?_of_some hn, hk⟩

theorem walk_of_mem (hr : g.RestrictedTo g' reached) (hc : g.ClosedSet reached)
    (hw : Walk g h k w) (hh : h ∈ reached) : Walk g' h k w := by
  induction hw with
  | here hn => exact .here (by rw [hr.get?_of_mem hh, hn])
  | step hn hs _ ih =>
      have hnext := hc.succs_mem _ hh _ (mem_succs_iff.2 ⟨_, hn, hs⟩)
      exact .step (by rw [hr.get?_of_mem hh, hn]) hs (ih hnext)

theorem walk_back (hr : g.RestrictedTo g' reached) (hw : Walk g' h k w) : Walk g h k w := by
  induction hw with
  | here hn => exact .here (hr.get?_of_some hn)
  | step hn hs _ ih => exact .step (hr.get?_of_some hn) hs ih

theorem sameTraces (hr : g.RestrictedTo g' reached) (hc : g.ClosedSet reached) :
    SameTraces g g' := by
  have hwalk : ∀ k w, Walk g' g'.entry k w ↔ Walk g g.entry k w := by
    intro k w
    rw [hr.entry_eq]
    exact ⟨hr.walk_back, fun hw => hr.walk_of_mem hc hw hc.entry_mem⟩
  refine ⟨fun w => ?_, fun w => ?_⟩
  · unfold CompleteTrace
    rw [hwalk, hr.exit_eq]
  · simp only [PartialTrace, hwalk]

/-- An exit without successors leaves no edge to a removed block behind. -/
theorem wellFormed (hr : g.RestrictedTo g' reached) (hc : g.ClosedSet reached)
    (hg : g.WellFormed) (hx : g.succs g.exit = []) : g'.WellFormed := by
  have live : ∀ {h}, g.nodes.contains h = true → h ∈ reached ∨ h = g.exit →
      g'.nodes.contains h = true := by
    intro h hl hk
    obtain ⟨n, hn⟩ := exists_node hl
    exact contains_of_get? (by rw [hr.get?_eq, if_pos hk, hn])
  refine ⟨⟨?_, ?_, fun h k hk => ?_⟩, fun h => ?_⟩
  · rw [hr.entry_eq]
    exact live hg.entry_live (.inl hc.entry_mem)
  · rw [hr.exit_eq]
    exact live hg.exit_live (.inr rfl)
  · have hk' := hr.mem_succs hk
    have hmem : h ∈ reached := by
      obtain ⟨n, hn, _⟩ := mem_succs_iff.1 hk
      rw [hr.get?_eq] at hn
      split at hn
      next hh =>
        apply hh.resolve_right
        intro e
        rw [e, hx] at hk'
        cases hk'
      next => cases hn
    exact live (hg.succs_live h k hk') (.inl (hc.succs_mem h hmem k hk'))
  · unfold succs
    split
    next n hn => exact succs_of_get? (hr.get?_of_some hn) ▸ hg.succs_nodup h
    next => exact .nil

theorem exit_final (hr : g.RestrictedTo g' reached) (hx : g.succs g.exit = []) :
    g'.succs g'.exit = [] := by
  rw [hr.exit_eq]
  exact List.eq_nil_iff_forall_not_mem.2 fun k hk => by simpa [hx] using hr.mem_succs hk

end RestrictedTo

end FlowGraph

end AffineFlow
