import AffineFlow.FlowGraph.Merge
import AffineFlow.Proofs.Reachability

/-!
# Bypassing an empty block

An empty block with a single successor adds nothing to a trace. Sending its
predecessors to its successor keeps the traces: a walk through the block becomes
the walk without it, and a walk that stops in the block can go on to the
successor.
-/
namespace AffineFlow

theorem eraseDups_eq_self {α : Type} [DecidableEq α] {l : List α} (h : l.Nodup) :
    l.eraseDups = l := by
  induction l with
  | nil => rfl
  | cons a rest ih =>
      obtain ⟨ha, hrest⟩ := List.nodup_cons.1 h
      have hfilter : rest.filter (fun b => !b == a) = rest :=
        List.filter_eq_self.2 fun b hb => by simpa using fun e : b = a => ha (e ▸ hb)
      rw [List.eraseDups_cons, hfilter, ih hrest]

namespace Merging

variable {b t k : Handle} {n : Node}

theorem mem_redirect_succs (htb : t ≠ b) :
    k ∈ (redirect b t n).succs ↔ k ∈ n.succs ∧ k ≠ b ∨ k = t ∧ b ∈ n.succs := by
  simp only [redirect, List.mem_eraseDups, List.mem_map]
  constructor
  · intro h
    obtain ⟨s, hs, rfl⟩ := h
    split
    next he => exact .inr ⟨rfl, he ▸ hs⟩
    next he => exact .inl ⟨hs, he⟩
  · rintro (⟨hk, hne⟩ | ⟨rfl, hb⟩)
    · exact ⟨k, hk, if_neg hne⟩
    · exact ⟨b, hb, if_pos rfl⟩

/-- Redirecting leaves a block alone that has no edge to the bypassed one. -/
theorem redirect_eq_self (hn : n.succs.Nodup) (hb : b ∉ n.succs) : redirect b t n = n := by
  have hmap : n.succs.map (fun h => if h = b then t else h) = n.succs := by
    conv_rhs => rw [← List.map_id n.succs]
    refine List.map_congr_left fun s hs => if_neg ?_
    intro he
    subst he
    exact hb hs
  unfold redirect
  rw [hmap, eraseDups_eq_self hn]

/-- Redirecting from a list of live blocks succeeds and changes just these. -/
theorem redirectAll_spec {l : List Handle} (hl : l.Nodup) {g : FlowGraph}
    (hlive : ∀ p ∈ l, g.nodes.contains p = true) :
    ∃ g', redirectAll b t l g = .ok g' ∧ g'.entry = g.entry ∧ g'.exit = g.exit ∧
      ∀ h, g'.nodes.get? h =
        if h ∈ l then (g.nodes.get? h).map (redirect b t) else g.nodes.get? h := by
  induction l generalizing g with
  | nil => exact ⟨g, rfl, rfl, rfl, fun h => by simp⟩
  | cons p rest ih =>
      obtain ⟨hp, hrest⟩ := List.nodup_cons.1 hl
      obtain ⟨m, hm⟩ := FlowGraph.exists_node (hlive p List.mem_cons_self)
      have hget : ∀ h, (g.modifyNode p (redirect b t)).nodes.get? h =
          if h = p then (g.nodes.get? h).map (redirect b t) else g.nodes.get? h :=
        fun h => g.nodes.get?_modify p h _
      have hlive' : ∀ q ∈ rest, (g.modifyNode p (redirect b t)).nodes.contains q = true := by
        intro q hq
        have hqp : q ≠ p := fun e => hp (e ▸ hq)
        rw [Arena.contains, hget, if_neg hqp]
        exact hlive q (List.mem_cons_of_mem _ hq)
      obtain ⟨g', hg', hentry, hexit, hall⟩ := ih hrest hlive'
      refine ⟨g', ?_, hentry, hexit, fun h => ?_⟩
      · simp only [redirectAll, FlowGraph.node_eq_ok_iff.2 hm]
        exact hg'
      · rw [hall, hget]
        by_cases he : h = p
        · subst he
          simp [hp]
        · simp [he]

end Merging

namespace FlowGraph

open Merging (redirect)

variable {g g' : FlowGraph} {b t h k : Handle} {w : List Stmt}

/-- A block that can be bypassed in favour of `t`. -/
structure Forwards (g : FlowGraph) (b t : Handle) : Prop where
  node : ∃ n, g.nodes.get? b = some n ∧ n.stmts = [] ∧ n.succs = [t]
  target_ne : t ≠ b
  ne_entry : b ≠ g.entry
  ne_exit : b ≠ g.exit

/-- `g'` is `g` without `b`, and the edges to `b` lead to `t`. -/
structure Bypassed (g g' : FlowGraph) (b t : Handle) : Prop where
  entry_eq : g'.entry = g.entry
  exit_eq : g'.exit = g.exit
  get?_eq : ∀ h, g'.nodes.get? h =
    if h = b then none else (g.nodes.get? h).map (redirect b t)

namespace Bypassed

theorem contains_iff (hb : g.Bypassed g' b t) :
    g'.nodes.contains h = true ↔ h ≠ b ∧ g.nodes.contains h = true := by
  rw [Arena.contains, Arena.contains, hb.get?_eq]
  by_cases he : h = b <;> simp [he]

theorem mem_succs_iff (hb : g.Bypassed g' b t) (hf : g.Forwards b t) :
    k ∈ g'.succs h ↔
      h ≠ b ∧ (k ∈ g.succs h ∧ k ≠ b ∨ k = t ∧ b ∈ g.succs h) := by
  rw [FlowGraph.mem_succs_iff]
  by_cases he : h = b
  · simp [hb.get?_eq, he]
  · have hmap : g'.nodes.get? h = (g.nodes.get? h).map (redirect b t) := by
      rw [hb.get?_eq, if_neg he]
    rw [hmap]
    cases hn : g.nodes.get? h with
    | none => simp [succs, hn]
    | some n => simp [succs_of_get? hn, Merging.mem_redirect_succs hf.target_ne, he]

theorem get?_of_ne {n : Node} (hb : g.Bypassed g' b t) (he : h ≠ b)
    (hn : g.nodes.get? h = some n) : g'.nodes.get? h = some (redirect b t n) := by
  rw [hb.get?_eq, if_neg he, hn, Option.map_some]

/-- A walk that starts in the bypassed block starts at its successor instead. -/
theorem walk (hb : g.Bypassed g' b t) (hf : g.Forwards b t) (hw : Walk g h k w) (hk : k ≠ b) :
    Walk g' (if h = b then t else h) k w := by
  induction hw with
  | @here h n hn =>
      rw [if_neg hk]
      show Walk g' h h (redirect b t n).stmts
      exact .here (hb.get?_of_ne hk hn)
  | @step h s k n w hn hs _ ih =>
      have ih := ih hk
      by_cases he : h = b
      · obtain ⟨n', hn', hstmts, hsuccs⟩ := hf.node
        subst he
        obtain rfl : n = n' := by simpa [hn'] using hn.symm
        obtain rfl : s = t := by simpa [hsuccs] using hs
        rw [if_neg hf.target_ne] at ih
        simpa [hstmts] using ih
      · rw [if_neg he]
        show Walk g' h k ((redirect b t n).stmts ++ w)
        refine .step (hb.get?_of_ne he hn) ?_ ih
        rw [Merging.mem_redirect_succs hf.target_ne]
        by_cases hsb : s = b
        · exact .inr ⟨if_pos hsb, hsb ▸ hs⟩
        · rw [if_neg hsb]
          exact .inl ⟨hs, hsb⟩

theorem walk_back (hb : g.Bypassed g' b t) (hf : g.Forwards b t) (hw : Walk g' h k w) :
    Walk g h k w := by
  have node_back : ∀ {h n}, g'.nodes.get? h = some n →
      ∃ m, g.nodes.get? h = some m ∧ n = redirect b t m := by
    intro h n hn
    rw [hb.get?_eq] at hn
    split at hn
    · cases hn
    · obtain ⟨m, hm, rfl⟩ := Option.map_eq_some_iff.1 hn
      exact ⟨m, hm, rfl⟩
  induction hw with
  | @here h n hn =>
      obtain ⟨m, hm, rfl⟩ := node_back hn
      show Walk g h h m.stmts
      exact .here hm
  | @step h s k n w hn hs _ ih =>
      obtain ⟨m, hm, rfl⟩ := node_back hn
      show Walk g h k (m.stmts ++ w)
      rcases (Merging.mem_redirect_succs hf.target_ne).1 hs with ⟨hs, -⟩ | ⟨rfl, hmb⟩
      · exact .step hm hs ih
      · -- the edge to the target stands for the way through the bypassed block
        obtain ⟨n', hn', hstmts, hsuccs⟩ := hf.node
        have hthrough := Walk.step hn' (by simp [hsuccs]) ih
        rw [hstmts, List.nil_append] at hthrough
        exact .step hm hmb hthrough

theorem sameTraces (hb : g.Bypassed g' b t) (hf : g.Forwards b t) (hg : g.Closed) :
    SameTraces g g' := by
  have forth : ∀ {k w}, Walk g g.entry k w → k ≠ b → Walk g' g'.entry k w := by
    intro k w hw hk
    simpa [hb.entry_eq, hf.ne_entry.symm] using hb.walk hf hw hk
  refine ⟨fun w => ?_,
    fun w => ⟨PartialTrace.mono fun k v hv => ?_, PartialTrace.mono fun k v hv => ?_⟩⟩
  · unfold CompleteTrace
    rw [hb.exit_eq]
    refine ⟨fun hw => ?_, fun hw => forth hw hf.ne_exit.symm⟩
    exact hb.entry_eq ▸ hb.walk_back hf hw
  · exact .of_walk (hb.entry_eq ▸ hb.walk_back hf hv)
  · by_cases hk : k = b
    · -- the walk goes on to the target, where it exists in both graphs
      obtain ⟨n', hn', -, hsuccs⟩ := hf.node
      have ht : t ∈ g.succs k := by rw [hk, succs_of_get? hn']; simp [hsuccs]
      obtain ⟨m, hm⟩ := exists_node (hg.succs_live k t ht)
      exact ⟨t, _, forth (hv.snoc ht hm) hf.target_ne, List.prefix_append _ _⟩
    · exact .of_walk (forth hv hk)

theorem wellFormed (hb : g.Bypassed g' b t) (hf : g.Forwards b t) (hg : g.WellFormed) :
    g'.WellFormed := by
  refine ⟨⟨?_, ?_, fun h k hk => ?_⟩, fun h => ?_⟩
  · rw [hb.entry_eq, hb.contains_iff]
    exact ⟨hf.ne_entry.symm, hg.entry_live⟩
  · rw [hb.exit_eq, hb.contains_iff]
    exact ⟨hf.ne_exit.symm, hg.exit_live⟩
  · rw [hb.contains_iff]
    obtain ⟨-, ⟨hk, hne⟩ | ⟨rfl, -⟩⟩ := (hb.mem_succs_iff hf).1 hk
    · exact ⟨hne, hg.succs_live h k hk⟩
    · obtain ⟨n', hn', -, hsuccs⟩ := hf.node
      have ht : k ∈ g.succs b := by rw [succs_of_get? hn']; simp [hsuccs]
      exact ⟨hf.target_ne, hg.succs_live b k ht⟩
  · unfold succs
    split
    next n hn =>
      rw [hb.get?_eq] at hn
      split at hn
      · cases hn
      · obtain ⟨m, -, rfl⟩ := Option.map_eq_some_iff.1 hn
        exact nodup_eraseDups _
    next => exact .nil

end Bypassed

end FlowGraph

end AffineFlow
