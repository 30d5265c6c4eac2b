import AffineFlow.Proofs.Merging.Absorption
import AffineFlow.Proofs.Merging.Bypass
import Mathlib.Data.List.Sort

/-!
# The invariant of merging

While blocks are merged the graph stays well formed, the table holds exactly the
predecessors in the graph, and only live blocks wait, each once and by slot. A
step on a live block that does not wait succeeds and keeps all of this.
-/
namespace AffineFlow

/-- Handles listed by slot. -/
abbrev HandlesOrdered (l : List Handle) : Prop := l.Pairwise fun a b => a.before b = true

instance : Std.Irrefl fun a b : Handle => a.before b = true :=
  ⟨fun a h => by rw [Handle.before_iff] at h; omega⟩

instance : Std.Antisymm fun a b : Handle => a.before b = true :=
  ⟨fun a b h k => by rw [Handle.before_iff] at h k; omega⟩

theorem HandlesOrdered.erase {l : List Handle} (hl : HandlesOrdered l) (h : Handle) :
    HandlesOrdered (l.erase h) :=
  hl.sublist List.erase_sublist

theorem HandlesOrdered.mem_erase {l : List Handle} (hl : HandlesOrdered l) {h k : Handle} :
    k ∈ l.erase h ↔ k ≠ h ∧ k ∈ l :=
  hl.nodup.mem_erase_iff

theorem mem_foldl_insertHandle {ps l : List Handle} {k : Handle} :
    k ∈ ps.foldl (fun l p => insertHandle p l) l ↔ k ∈ ps ∨ k ∈ l := by
  induction ps generalizing l with
  | nil => simp
  | cons p rest ih => simp only [List.foldl_cons, ih, mem_insertHandle, List.mem_cons]; tauto

theorem foldl_insertHandle_ordered {ps l : List Handle} (hl : HandlesOrdered l) :
    HandlesOrdered (ps.foldl (fun l p => insertHandle p l) l) := by
  induction ps generalizing l with
  | nil => exact hl
  | cons p rest ih => exact ih (insertHandle_pairwise hl)

theorem FlowGraph.predecessors_ordered (g : FlowGraph) (h : Handle) :
    HandlesOrdered (g.predecessors h) := by
  refine (g.nodes.handles_pairwise.sublist List.filter_sublist).imp fun {a b} hlt => ?_
  exact Handle.before_iff.2 (.inl hlt)

theorem FlowGraph.eq_predecessors {g : FlowGraph} {h : Handle} {l : List Handle}
    (hl : HandlesOrdered l) (hmem : ∀ p, p ∈ l ↔ h ∈ g.succs p) : l = g.predecessors h :=
  hl.eq_of_mem_iff (g.predecessors_ordered h) fun p => by rw [hmem, mem_predecessors_iff]

/-- The table has the predecessors of every live block, and nothing else. -/
def PredTable.Exact (t : PredTable) (g : FlowGraph) : Prop :=
  ∀ h, t.get? h = if g.nodes.contains h then some (g.predecessors h) else none

theorem PredTable.Exact.get?_of_live {t : PredTable} {g : FlowGraph} {h : Handle} (ht : t.Exact g)
    (hh : g.nodes.contains h = true) : t.get? h = some (g.predecessors h) := by
  rw [ht, if_pos hh]

namespace Merging

variable {s : Merging} {b t : Handle}

/-- The state of a merging in which every block that waits can be looked at. -/
structure Valid (s : Merging) : Prop where
  wellFormed : s.graph.WellFormed
  preds_exact : s.preds.Exact s.graph
  pending_ordered : HandlesOrdered s.pending
  pending_live : ∀ b ∈ s.pending, s.graph.nodes.contains b = true

theorem startMerging_valid {g : FlowGraph} (hg : g.WellFormed) : g.startMerging.Valid where
  wellFormed := hg
  preds_exact := g.get?_predTable
  pending_ordered := g.nodes.handles_pairwise.imp fun {_ _} hlt => Handle.before_iff.2 (.inl hlt)
  pending_live := fun _ hb => g.nodes.mem_handles_iff.1 hb

/-- Taking the first block off the list leaves a valid state in which it does not wait. -/
theorem Valid.pop {rest : List Handle} (hv : s.Valid) (hp : s.pending = b :: rest) :
    Valid { s with pending := rest } ∧ b ∉ rest ∧ s.graph.nodes.contains b = true := by
  have hord := hv.pending_ordered
  rw [hp] at hord
  have hlive := hv.pending_live
  simp only [hp, List.forall_mem_cons] at hlive
  refine ⟨⟨hv.wellFormed, hv.preds_exact, (List.pairwise_cons.1 hord).2, hlive.2⟩, ?_, hlive.1⟩
  exact (List.nodup_cons.1 hord.nodup).1

/-- When an action fits a block. -/
def Fits (s : Merging) (b : Handle) : Action → Prop
  | .keep => True
  | .bypass t => s.graph.Forwards b t
  | .absorb t => s.graph.Precedes b t

theorem action_fits (hv : s.Valid) (hb : s.graph.nodes.contains b = true) :
    ∃ a, s.action b = .ok a ∧ s.Fits b a := by
  obtain ⟨n, hn⟩ := FlowGraph.exists_node hb
  simp only [action, FlowGraph.node_eq_ok_iff.2 hn]
  split
  next t hsuccs =>
    have hedge : t ∈ s.graph.succs b := by rw [FlowGraph.succs_of_get? hn, hsuccs]; simp
    have hpreds := hv.preds_exact.get?_of_live (hv.wellFormed.succs_live b t hedge)
    have hpreds' := hv.preds_exact.get?_of_live hb
    unfold actionTowards
    split
    next => exact ⟨_, rfl, trivial⟩
    next hne =>
      obtain ⟨hentry, htb⟩ := not_or.1 hne
      split
      next hfw =>
        simp only [isForwarder, Bool.and_eq_true, List.isEmpty_iff, decide_eq_true_eq] at hfw
        rw [hpreds', hpreds]
        exact ⟨.bypass t, rfl, ⟨n, hn, hfw.1.1, hsuccs⟩, htb, hfw.1.2, hfw.2⟩
      next =>
        rw [hpreds]
        dsimp only
        split
        next hone =>
          -- the list of predecessors is the block alone
          refine ⟨_, rfl, ⟨n, hn, hsuccs⟩, htb, hentry, fun h hh => ?_⟩
          obtain ⟨p, hp⟩ := List.length_eq_one_iff.1 hone.1
          have mem : ∀ {q}, t ∈ s.graph.succs q → q = p := fun hq => by
            simpa [hp] using FlowGraph.mem_predecessors_iff.2 hq
          rw [mem hh, mem hedge]
        next => exact ⟨_, rfl, trivial⟩
  next => exact ⟨_, rfl, trivial⟩

/-- Bypassing a block removes its list, and its predecessors become those of its successor. -/
theorem exact_bypassed {g g' : FlowGraph} {table : PredTable} (ht : table.Exact g)
    (hb : g.Bypassed g' b t) (hf : g.Forwards b t) :
    ((table.modify t fun l =>
      (g.predecessors b).foldl (fun l p => insertHandle p l) (l.erase b)).erase b).Exact g' := by
  have hmem := fun k h => hb.mem_succs_iff (k := k) (h := h) hf
  obtain ⟨n, hn, -, hsuccs⟩ := hf.node
  have hsuccs_b : g.succs b = [t] := by rw [FlowGraph.succs_of_get? hn, hsuccs]
  intro h
  rw [PredTable.get?_erase, PredTable.get?_modify]
  by_cases hlive : g'.nodes.contains h = true
  · obtain ⟨hhb, hlive'⟩ := hb.contains_iff.1 hlive
    have hord := g.predecessors_ordered h
    rw [if_pos hlive, if_neg hhb, ht.get?_of_live hlive']
    split
    next he =>
      subst he
      refine congrArg some
        (FlowGraph.eq_predecessors (foldl_insertHandle_ordered (hord.erase b)) ?_)
      intro p
      rw [mem_foldl_insertHandle, hord.mem_erase, hmem]
      simp only [FlowGraph.mem_predecessors_iff]
      constructor
      · rintro (hp | ⟨hpb, hp⟩)
        · refine ⟨?_, .inr ⟨trivial, hp⟩⟩
          intro he
          subst he
          exact hhb (by simpa [hsuccs_b, eq_comm] using hp)
        · exact ⟨hpb, .inl ⟨hp, hhb⟩⟩
      · rintro ⟨hpb, ⟨hp, -⟩ | ⟨-, hp⟩⟩
        · exact .inr ⟨hpb, hp⟩
        · exact .inl hp
    next he =>
      refine congrArg some (FlowGraph.eq_predecessors hord fun p => ?_)
      rw [FlowGraph.mem_predecessors_iff, hmem]
      refine ⟨fun hp => ⟨?_, .inl ⟨hp, hhb⟩⟩, fun hp => ?_⟩
      · intro he
        subst he
        exact he (by simpa [hsuccs_b] using hp)
      · obtain ⟨-, ⟨hp, -⟩ | ⟨rfl, -⟩⟩ := hp
        · exact hp
        · exact absurd rfl he
  · rw [if_neg hlive]
    split
    next => rfl
    next hhb =>
      have hnone : table.get? h = none := by
        rw [ht, if_neg fun hl => hlive (hb.contains_iff.2 ⟨hhb, hl⟩)]
      rw [hnone]
      split <;> rfl

/-- Removing the empty block after redirecting its predecessors bypasses it. -/
theorem bypassed_of_redirected {g g' : FlowGraph} (hg : g.WellFormed) (hentry : g'.entry = g.entry)
    (hexit : g'.exit = g.exit) (hget : ∀ h, g'.nodes.get? h =
      if h ∈ g.predecessors b then ((g.removeNode b).nodes.get? h).map (redirect b t)
      else (g.removeNode b).nodes.get? h) : g.Bypassed g' b t := by
  refine ⟨hentry, hexit, fun h => ?_⟩
  have hremoved : (g.removeNode b).nodes.get? h = if h = b then none else g.nodes.get? h :=
    g.nodes.get?_erase b h
  rw [hget, hremoved]
  by_cases he : h = b
  · simp [he]
  · simp only [if_neg he]
    split
    next => rfl
    next hh =>
      -- no edge leads from here to the block
      rw [FlowGraph.mem_predecessors_iff] at hh
      cases hm : g.nodes.get? h with
      | none => rfl
      | some m =>
          rw [FlowGraph.succs_of_get? hm] at hh
          have hnodup := FlowGraph.succs_of_get? hm ▸ hg.succs_nodup h
          rw [Option.map_some, redirect_eq_self hnodup hh]

theorem bypass_spec (hv : s.Valid) (hf : s.graph.Forwards b t) (hb : b ∉ s.pending) :
    ∃ s', s.bypass b t = .ok s' ∧ s.graph.Bypassed s'.graph b t ∧ s'.Valid := by
  obtain ⟨n, hn, -, hsuccs⟩ := hf.node
  have hpreds := hv.preds_exact.get?_of_live (FlowGraph.contains_of_get? hn)
  obtain ⟨g', hg', hentry, hexit, hget⟩ :=
    redirectAll_spec (b := b) (t := t) (s.graph.predecessors_ordered b).nodup
      (g := s.graph.removeNode b) (by
        intro p hp
        have hp' := FlowGraph.mem_predecessors_iff.1 hp
        have hpb : p ≠ b := by
          intro he
          subst he
          rw [FlowGraph.succs_of_get? hn, hsuccs] at hp'
          exact hf.target_ne (by simpa [eq_comm] using hp')
        have hremoved := s.graph.nodes.get?_erase b p
        rw [if_neg hpb] at hremoved
        rw [Arena.contains, FlowGraph.removeNode, hremoved]
        exact FlowGraph.contains_of_mem_succs hp')
  have hbyp := bypassed_of_redirected hv.wellFormed hentry hexit hget
  simp only [bypass, hpreds, hg']
  refine ⟨_, rfl, hbyp, hbyp.wellFormed hf hv.wellFormed, exact_bypassed hv.preds_exact hbyp hf,
    hv.pending_ordered, fun k hk => ?_⟩
  rw [hbyp.contains_iff]
  exact ⟨fun e => hb (e ▸ hk), hv.pending_live k hk⟩

theorem replacePred_spec {l : List Handle} (hl : l.Nodup) {table : PredTable}
    (hsome : ∀ h ∈ l, ∃ ps, table.get? h = some ps) :
    ∃ table', replacePred b t l table = .ok table' ∧ ∀ h, table'.get? h =
      if h ∈ l then (table.get? h).map (fun ps => insertHandle b (ps.erase t))
      else table.get? h := by
  induction l generalizing table with
  | nil => exact ⟨table, rfl, fun h => by simp⟩
  | cons k rest ih =>
      obtain ⟨hk, hrest⟩ := List.nodup_cons.1 hl
      obtain ⟨ps, hps⟩ := hsome k List.mem_cons_self
      have hget : ∀ h, (table.modify k fun ps => insertHandle b (ps.erase t)).get? h =
          if h = k then (table.get? h).map (fun ps => insertHandle b (ps.erase t))
          else table.get? h := fun h => table.get?_modify k h _
      have hsome' : ∀ h ∈ rest,
          ∃ ps, (table.modify k fun ps => insertHandle b (ps.erase t)).get? h = some ps := by
        intro h hh
        have hhk : h ≠ k := fun e => hk (e ▸ hh)
        rw [hget, if_neg hhk]
        exact hsome h (List.mem_cons_of_mem _ hh)
      obtain ⟨table', htable', hall⟩ := ih hrest hsome'
      refine ⟨table', ?_, fun h => ?_⟩
      · simp only [replacePred, hps]
        exact htable'
      · rw [hall, hget]
        by_cases he : h = k
        · subst he
          simp [hk]
        · simp [he]

/-- Absorbing a block removes its list, and the absorbing block takes its place in the others. -/
theorem exact_absorbed {g g' : FlowGraph} {table table' : PredTable} (ht : table.Exact g)
    (ha : g.Absorbed g' b t) (hp : g.Precedes b t) (hg : g.Closed)
    (hget : ∀ h, table'.get? h =
      if h ∈ g.succs t then ((table.erase t).get? h).map (fun ps => insertHandle b (ps.erase t))
      else (table.erase t).get? h) : table'.Exact g' := by
  have hblock := ha.succs_block hp hg
  obtain ⟨n, hn, hsuccs⟩ := hp.node
  have hsuccs_b : g.succs b = [t] := by rw [FlowGraph.succs_of_get? hn, hsuccs]
  intro h
  rw [hget, PredTable.get?_erase]
  by_cases hlive : g'.nodes.contains h = true
  · obtain ⟨hht, hlive'⟩ := (ha.contains_iff hp hg).1 hlive
    have hord := g.predecessors_ordered h
    rw [if_pos hlive, if_neg hht, ht.get?_of_live hlive']
    split
    next hh =>
      refine congrArg some (FlowGraph.eq_predecessors (insertHandle_pairwise (hord.erase t)) ?_)
      intro p
      rw [mem_insertHandle, hord.mem_erase, FlowGraph.mem_predecessors_iff]
      by_cases h₁ : p = t
      · simp [h₁, hp.target_ne, ha.succs_target]
      · by_cases h₂ : p = b
        · simp [h₂, hblock, hh]
        · simp [h₁, h₂, ha.succs_other h₁ h₂]
    next hh =>
      refine congrArg some (FlowGraph.eq_predecessors hord fun p => ?_)
      rw [FlowGraph.mem_predecessors_iff]
      by_cases h₁ : p = t
      · simp [h₁, ha.succs_target, hh]
      · by_cases h₂ : p = b
        · simp [h₂, hblock, hsuccs_b, hh, hht]
        · simp [ha.succs_other h₁ h₂]
  · rw [if_neg hlive]
    by_cases hht : h = t
    · simp [hht]
    · have hnone : table.get? h = none := by
        rw [ht, if_neg fun hl => hlive ((ha.contains_iff hp hg).2 ⟨hht, hl⟩)]
      simp [hht, hnone]

theorem absorb_spec (hv : s.Valid) (hp : s.graph.Precedes b t) :
    ∃ s', s.absorb b t = .ok s' ∧ s.graph.Absorbed s'.graph b t ∧ s'.Valid := by
  have hg := hv.wellFormed.toClosed
  obtain ⟨n, hn, hsuccs⟩ := hp.node
  have hedge : t ∈ s.graph.succs b := by rw [FlowGraph.succs_of_get? hn]; simp [hsuccs]
  obtain ⟨m, hm⟩ := FlowGraph.exists_node (hg.succs_live b t hedge)
  have hsuccs_t : s.graph.succs t = m.succs := FlowGraph.succs_of_get? hm
  have hsome : ∀ h ∈ s.graph.succs t, ∃ ps, (s.preds.erase t).get? h = some ps := by
    intro h hh
    have hht : h ≠ t := by
      intro he
      subst he
      exact hp.target_ne (hp.only h hh)
    rw [PredTable.get?_erase, if_neg hht]
    exact ⟨_, hv.preds_exact.get?_of_live (hg.succs_live t h hh)⟩
  obtain ⟨table, htable, hget⟩ := replacePred_spec (b := b) (t := t)
    (hv.wellFormed.succs_nodup t) hsome
  have habs := FlowGraph.Precedes.absorbed hp hm
  rw [hsuccs_t] at htable
  simp only [absorb, FlowGraph.node_eq_ok_iff.2 hm, htable]
  refine ⟨_, rfl, habs, habs.wellFormed hp hv.wellFormed,
    exact_absorbed hv.preds_exact habs hp hg hget,
    insertHandle_pairwise (hv.pending_ordered.erase t), fun k hk => ?_⟩
  rw [habs.contains_iff hp hg]
  rcases mem_insertHandle.1 hk with rfl | hk
  · exact ⟨hp.target_ne.symm, FlowGraph.contains_of_get? hn⟩
  · obtain ⟨hkt, hk⟩ := hv.pending_ordered.mem_erase.1 hk
    exact ⟨hkt, hv.pending_live k hk⟩

end Merging

end AffineFlow
