import AffineFlow.Proofs.Merging.Invariant
import AffineFlow.Proofs.Outcome

/-!
# Turns of merging

Merging looks at one waiting block after the other, and a block that took in
another one waits again. Every turn of this loop succeeds, since each state that
it comes to is valid: in particular the table has the predecessors in the graph
as it is then. Together, the blocks of the graph and the blocks that wait become
fewer with every turn, so the loop ends.
-/
namespace AffineFlow

namespace Arena

variable {α : Type} {a b : Arena α} {h : Handle}

/-- An arena that has only handles of another one, and not all of them, is smaller. -/
theorem size_lt_of_contains (hsub : ∀ k, b.contains k = true → a.contains k = true)
    (hh : a.contains h = true) (hgone : ¬b.contains h = true) : b.size < a.size := by
  have hnodup : (h :: b.handles).Nodup :=
    List.nodup_cons.2 ⟨fun hm => hgone (b.mem_handles_iff.1 hm), b.handles_nodup⟩
  have hsubset : h :: b.handles ⊆ a.handles := by
    refine List.cons_subset.2 ⟨a.mem_handles_iff.2 hh, fun k hk => ?_⟩
    exact a.mem_handles_iff.2 (hsub k (b.mem_handles_iff.1 hk))
  have hle := (hnodup.subperm hsubset).length_le
  rwa [List.length_cons, handles, handles, List.length_map, List.length_map] at hle

end Arena

theorem length_insertHandle_le (h : Handle) (l : List Handle) :
    (insertHandle h l).length ≤ l.length + 1 := by
  induction l with
  | nil => exact Nat.le_refl _
  | cons k rest ih =>
      unfold insertHandle
      split
      · exact Nat.le_succ _
      split
      · exact Nat.le_refl _
      · exact Nat.succ_le_succ ih

namespace Merging

variable {s s' : Merging} {b t h : Handle} {a : Action} {history : List (Handle × Action)}

/-- The block that is gone when the action on `b` has been carried out. -/
def Action.dropped (b : Handle) : Action → Option Handle
  | .keep => none
  | .bypass _ => some b
  | .absorb t => some t

/-- `s'` is what carrying out an action on `b` makes of `s`. -/
inductive Carried (s : Merging) (b : Handle) : Action → Merging → Prop
  | keep : Carried s b .keep s
  | bypass {t : Handle} {s' : Merging} : s.graph.Forwards b t → s.graph.Bypassed s'.graph b t →
      s'.pending = s.pending → Carried s b (.bypass t) s'
  | absorb {t : Handle} {s' : Merging} : s.graph.Precedes b t → s.graph.Absorbed s'.graph b t →
      s'.pending = insertHandle b (s.pending.erase t) → Carried s b (.absorb t) s'

theorem pending_of_bypass (h : s.bypass b t = .ok s') : s'.pending = s.pending := by
  unfold bypass at h
  split at h
  next => cases h
  next =>
  split at h
  next => cases h
  next =>
    obtain rfl := Except.ok.inj h
    rfl

theorem pending_of_absorb (h : s.absorb b t = .ok s') :
    s'.pending = insertHandle b (s.pending.erase t) := by
  unfold absorb at h
  split at h
  next => cases h
  next =>
    split at h
    next => cases h
    next =>
      obtain rfl := Except.ok.inj h
      rfl

/-- A live block that does not wait can be looked at, and what is to be done with it can be done,
whatever notes have been made. -/
theorem step_carried (hv : s.Valid) (hb : s.graph.nodes.contains b = true)
    (hwait : b ∉ s.pending) : ∃ a s', s.action b = .ok a ∧ s.Carried b a s' ∧ s'.Valid ∧
      ∀ notes, ∃ notes', Yields (s.step b) notes s' notes' := by
  obtain ⟨n, hn⟩ := FlowGraph.exists_node hb
  have hblock := FlowGraph.node_eq_ok_iff.2 hn
  obtain ⟨action, haction, hfits⟩ := action_fits hv hb
  have target_node : ∀ {t}, t ∈ s.graph.succs b → ∃ m, s.graph.node t = .ok m := by
    intro t ht
    obtain ⟨m, hm⟩ := FlowGraph.exists_node (hv.wellFormed.succs_live b t ht)
    exact ⟨m, FlowGraph.node_eq_ok_iff.2 hm⟩
  simp only [step, yields_bind, Noted.yields_ofExcept]
  cases action with
  | keep =>
      refine ⟨.keep, s, haction, .keep, hv, fun notes => ?_⟩
      exact ⟨notes, .keep, notes, ⟨haction, rfl⟩, yields_pure.2 ⟨rfl, rfl⟩⟩
  | bypass t =>
      obtain ⟨n', hn', -, hsuccs⟩ := hfits.node
      obtain ⟨m, hm⟩ := target_node (t := t) (by rw [FlowGraph.succs_of_get? hn', hsuccs]; simp)
      obtain ⟨s', hs', hbypassed, hv'⟩ := bypass_spec hv hfits hwait
      refine ⟨.bypass t, s', haction, .bypass hfits hbypassed (pending_of_bypass hs'), hv',
        fun notes => ⟨notes ++ [.bypassing n.label m.label], .bypass t, notes, ⟨haction, rfl⟩, ?_⟩⟩
      simp only [yields_bind, Noted.yields_ofExcept, Noted.yields_tell]
      exact ⟨n, notes, ⟨hblock, rfl⟩, m, notes, ⟨hm, rfl⟩, (), _, rfl, hs', rfl⟩
  | absorb t =>
      obtain ⟨n', hn', hsuccs⟩ := hfits.node
      obtain ⟨m, hm⟩ := target_node (t := t) (by rw [FlowGraph.succs_of_get? hn', hsuccs]; simp)
      obtain ⟨s', hs', habsorbed, hv'⟩ := absorb_spec hv hfits
      refine ⟨.absorb t, s', haction, .absorb hfits habsorbed (pending_of_absorb hs'), hv',
        fun notes => ⟨notes ++ [.absorbing m.label n.label], .absorb t, notes, ⟨haction, rfl⟩, ?_⟩⟩
      simp only [yields_bind, Noted.yields_ofExcept, Noted.yields_tell]
      exact ⟨n, notes, ⟨hblock, rfl⟩, m, notes, ⟨hm, rfl⟩, (), _, rfl, hs', rfl⟩

namespace Carried

theorem entry_eq (hc : s.Carried b a s') : s'.graph.entry = s.graph.entry := by
  cases hc with
  | keep => rfl
  | bypass _ hbypassed _ => exact hbypassed.entry_eq
  | absorb _ habsorbed _ => exact habsorbed.entry_eq

/-- One block is gone, unless nothing was to be done. -/
theorem contains_iff (hc : s.Carried b a s') (hg : s.graph.Closed) :
    s'.graph.nodes.contains h = true ↔
      s.graph.nodes.contains h = true ∧ a.dropped b ≠ some h := by
  have hother : ∀ d : Handle, h ≠ d ↔ some d ≠ some h := by
    intro d
    rw [Ne, Ne, Option.some.injEq, eq_comm]
  cases hc with
  | keep => simp [Action.dropped]
  | bypass _ hbypassed _ =>
      rw [hbypassed.contains_iff, and_comm, Action.dropped, hother]
  | absorb hprecedes habsorbed _ =>
      rw [habsorbed.contains_iff hprecedes hg, and_comm, Action.dropped, hother]

/-- The blocks that are left keep their labels. -/
theorem label_eq {n : Node} (hc : s.Carried b a s') (hg : s.graph.Closed)
    (hn : s.graph.nodes.get? h = some n) (hkept : a.dropped b ≠ some h) :
    ∃ n', s'.graph.nodes.get? h = some n' ∧ n'.label = n.label := by
  cases hc with
  | keep => exact ⟨n, hn, rfl⟩
  | bypass _ hbypassed _ =>
      have hne : h ≠ b := fun he => hkept (congrArg some he.symm)
      exact ⟨_, hbypassed.get?_of_ne hne hn, rfl⟩
  | @absorb t _ hprecedes habsorbed _ =>
      have hne : h ≠ t := fun he => hkept (congrArg some he.symm)
      by_cases he : h = b
      · subst he
        obtain ⟨n', hn', hsuccs⟩ := hprecedes.node
        have hedge : t ∈ s.graph.succs h := by rw [FlowGraph.succs_of_get? hn', hsuccs]; simp
        obtain ⟨m, hm⟩ := FlowGraph.exists_node (hg.succs_live h t hedge)
        exact ⟨_, habsorbed.get?_block n m hn hm, rfl⟩
      · exact ⟨n, (habsorbed.get?_other h hne he).trans hn, rfl⟩

end Carried

/-- What is left to do: blocks to look at, and blocks that may disappear. -/
def outstanding (s : Merging) : Nat := s.pending.length + s.graph.nodes.size

/-- The block that was looked at does not wait any more, or another block has disappeared. -/
theorem Carried.outstanding_le (hc : s.Carried b a s') (hg : s.graph.Closed)
    (hb : s.graph.nodes.contains b = true) : s'.outstanding ≤ s.outstanding := by
  have hsmaller : ∀ {d : Handle}, a.dropped b = some d → s.graph.nodes.contains d = true →
      s'.graph.nodes.size < s.graph.nodes.size := by
    intro d hd hlive
    exact Arena.size_lt_of_contains (fun k hk => ((hc.contains_iff hg).1 hk).1) hlive
      fun hk => ((hc.contains_iff hg).1 hk).2 hd
  unfold outstanding
  cases hc with
  | keep => exact Nat.le_refl _
  | bypass _ _ hpending =>
      have hsize := hsmaller rfl hb
      rw [hpending]
      omega
  | @absorb t _ hprecedes _ hpending =>
      obtain ⟨n, hn, hsuccs⟩ := hprecedes.node
      have hedge : t ∈ s.graph.succs b := by rw [FlowGraph.succs_of_get? hn, hsuccs]; simp
      have hsize := hsmaller rfl (hg.succs_live b t hedge)
      have hinserted := length_insertHandle_le b (s.pending.erase t)
      have herased := List.length_erase_le (a := t) (l := s.pending)
      rw [hpending]
      omega

/-- One turn of the loop: the first block that waits is taken off the list, and what is to be done
with it is found out and done. -/
structure Turn (s : Merging) (b : Handle) (a : Action) (s' : Merging) : Prop where
  first : s.pending.head? = some b
  action_eq : action { s with pending := s.pending.tail } b = .ok a
  runs : ∀ notes, ∃ notes', Yields (step { s with pending := s.pending.tail } b) notes s' notes'

/-- Turns one after the other, with the block that each one looks at and what it does with it. -/
inductive Turns : Merging → List (Handle × Action) → Merging → Prop
  | nil {s : Merging} : Turns s [] s
  | cons {s s' s'' : Merging} {b : Handle} {a : Action} {history : List (Handle × Action)} :
      s.Turn b a s' → Turns s' history s'' → Turns s ((b, a) :: history) s''

/-- As long as a block waits there is a next turn. -/
theorem Valid.exists_turn {rest : List Handle} (hv : s.Valid) (hp : s.pending = b :: rest) :
    ∃ a s', s.Turn b a s' := by
  obtain ⟨hpop, hwait, hb⟩ := hv.pop hp
  obtain ⟨a, s', haction, -, -, hruns⟩ := step_carried hpop hb hwait
  have htail : s.pending.tail = rest := by rw [hp, List.tail_cons]
  refine ⟨a, s', by rw [hp, List.head?_cons], ?_, ?_⟩
  · rw [htail]
    exact haction
  · rw [htail]
    exact hruns

namespace Turn

/-- What a turn does is carried out on the state without the block that it looks at. -/
theorem carried (h : s.Turn b a s') (hv : s.Valid) :
    s'.Valid ∧ Carried { s with pending := s.pending.tail } b a s' ∧
      s'.outstanding < s.outstanding := by
  obtain ⟨rest, hp⟩ : ∃ rest, s.pending = b :: rest :=
    ⟨_, (List.cons_head?_tail h.first).symm⟩
  have htail : s.pending.tail = rest := by rw [hp, List.tail_cons]
  obtain ⟨hpop, hwait, hb⟩ := hv.pop hp
  obtain ⟨a', t, haction, hcarried, hvalid, hruns⟩ := step_carried hpop hb hwait
  obtain ⟨notes, hstep⟩ := h.runs []
  obtain ⟨notes', hstep'⟩ := hruns []
  have haction' := h.action_eq
  rw [htail] at hstep haction' ⊢
  -- both the action and its outcome are determined by the state
  obtain rfl := Except.ok.inj (haction.symm.trans haction')
  cases hstep.symm.trans hstep'
  refine ⟨hvalid, hcarried, ?_⟩
  have hle := hcarried.outstanding_le hpop.wellFormed.toClosed hb
  have hlt : outstanding { s with pending := rest } < s.outstanding := by
    rw [outstanding, outstanding, hp, List.length_cons]
    exact Nat.add_lt_add_right (Nat.lt_succ_self _) _
  exact Nat.lt_of_le_of_lt hle hlt

end Turn

namespace Turns

theorem valid (h : s.Turns history s') (hv : s.Valid) : s'.Valid := by
  induction h with
  | nil => exact hv
  | cons hturn _ ih => exact ih (hturn.carried hv).1

theorem entry_eq (h : s.Turns history s') (hv : s.Valid) : s'.graph.entry = s.graph.entry := by
  induction h with
  | nil => rfl
  | cons hturn _ ih =>
      obtain ⟨hvalid, hcarried, -⟩ := hturn.carried hv
      exact (ih hvalid).trans hcarried.entry_eq

/-- Each turn leaves less to do. -/
theorem length_le (h : s.Turns history s') (hv : s.Valid) :
    history.length + s'.outstanding ≤ s.outstanding := by
  induction h with
  | nil => simp
  | cons hturn _ ih =>
      obtain ⟨hvalid, -, hlt⟩ := hturn.carried hv
      have hle := ih hvalid
      rw [List.length_cons]
      omega

/-- The blocks that are gone are those that were bypassed or absorbed. -/
theorem contains_iff (hturns : s.Turns history s') (hv : s.Valid) :
    s'.graph.nodes.contains h = true ↔
      s.graph.nodes.contains h = true ∧ ∀ p ∈ history, p.2.dropped p.1 ≠ some h := by
  induction hturns with
  | nil => simp
  | cons hturn _ ih =>
      obtain ⟨hvalid, hcarried, -⟩ := hturn.carried hv
      rw [ih hvalid, hcarried.contains_iff hv.wellFormed.toClosed, List.forall_mem_cons, and_assoc]

theorem label_eq {n : Node} (hturns : s.Turns history s') (hv : s.Valid)
    (hn : s.graph.nodes.get? h = some n) (hkept : ∀ p ∈ history, p.2.dropped p.1 ≠ some h) :
    ∃ n', s'.graph.nodes.get? h = some n' ∧ n'.label = n.label := by
  induction hturns generalizing n with
  | nil => exact ⟨n, hn, rfl⟩
  | cons hturn _ ih =>
      obtain ⟨hvalid, hcarried, -⟩ := hturn.carried hv
      obtain ⟨hfirst, hrest⟩ := List.forall_mem_cons.1 hkept
      obtain ⟨m, hm, hlabel⟩ := hcarried.label_eq hv.wellFormed.toClosed hn hfirst
      obtain ⟨n', hn', hlabel'⟩ := ih hvalid hm hrest
      exact ⟨n', hn', hlabel'.trans hlabel⟩

end Turns

/-- With enough fuel the loop goes on until no block waits. -/
theorem run_turns {fuel : Nat} (hv : s.Valid) (hfuel : s.outstanding ≤ fuel) :
    ∃ history s', s.Turns history s' ∧ s'.pending = [] ∧
      ∀ notes, ∃ notes', Yields (s.run fuel) notes s' notes' := by
  induction fuel generalizing s with
  | zero =>
      have hempty : s.pending = [] := by
        unfold outstanding at hfuel
        exact List.length_eq_zero_iff.1 (by omega)
      exact ⟨[], s, .nil, hempty, fun notes => ⟨notes, yields_pure.2 ⟨rfl, rfl⟩⟩⟩
  | succ fuel ih =>
      unfold run
      split
      next hempty => exact ⟨[], s, .nil, hempty, fun notes => ⟨notes, yields_pure.2 ⟨rfl, rfl⟩⟩⟩
      next b rest hp =>
        obtain ⟨a, s₁, hturn⟩ := hv.exists_turn hp
        obtain ⟨hvalid, -, hlt⟩ := hturn.carried hv
        obtain ⟨history, s', hturns, hempty, hruns⟩ := ih hvalid (by omega)
        refine ⟨(b, a) :: history, s', .cons hturn hturns, hempty, fun notes => ?_⟩
        obtain ⟨notes₁, hstep⟩ := hturn.runs notes
        obtain ⟨notes', hrun⟩ := hruns notes₁
        rw [hp, List.tail_cons] at hstep
        exact ⟨notes', yields_bind.2 ⟨s₁, notes₁, hstep, hrun⟩⟩

end Merging

namespace FlowGraph

variable {g : FlowGraph}

theorem startMerging_outstanding (g : FlowGraph) :
    g.startMerging.outstanding = 2 * g.nodes.size := by
  have hwaiting : g.startMerging.pending.length = g.nodes.size := List.length_map _
  rw [Merging.outstanding, hwaiting, Nat.two_mul]
  rfl

/-- In every state that merging comes to, the table has for each live block the ordered list of the
live blocks that it is a successor of, and there is a next turn unless no block waits; there are at
most two turns for each block. Merging ends where no block waits. The entry is still the entry,
every handle refers to a block, no edge is there twice, and the blocks are those that were not
bypassed or absorbed, under their labels. -/
theorem merge_exact_throughout (hg : g.WellFormed) :
    (∀ history s, g.startMerging.Turns history s → history.length ≤ 2 * g.nodes.size ∧
      (∀ h, s.graph.nodes.contains h = true → ∃ l, s.preds.get? h = some l ∧
        l.Pairwise (fun p q => p.before q = true) ∧
        ∀ p, p ∈ l ↔ s.graph.nodes.contains p = true ∧ h ∈ s.graph.succs p) ∧
      (s.pending = [] ∨ ∃ b a s', s.Turn b a s')) ∧
    ∃ history s, g.startMerging.Turns history s ∧ s.pending = [] ∧
      (∀ notes, ∃ notes', Yields g.merge notes s.graph notes') ∧
      s.graph.entry = g.entry ∧ s.graph.nodes.contains s.graph.entry = true ∧
      s.graph.nodes.contains s.graph.exit = true ∧
      (∀ h, ∀ k ∈ s.graph.succs h, s.graph.nodes.contains k = true) ∧
      (∀ h, (s.graph.succs h).Nodup) ∧
      ∀ h n, g.nodes.get? h = some n →
        ((∀ p ∈ history, p.2.dropped p.1 ≠ some h) ↔
          ∃ n', s.graph.nodes.get? h = some n' ∧ n'.label = n.label) := by
  have hstart := Merging.startMerging_valid hg
  refine ⟨fun history s hturns => ?_, ?_⟩
  · have hv := hturns.valid hstart
    have hlength := hturns.length_le hstart
    rw [g.startMerging_outstanding] at hlength
    refine ⟨by omega, fun h hh => ?_, ?_⟩
    · refine ⟨_, hv.preds_exact.get?_of_live hh, s.graph.predecessors_ordered h, fun p => ?_⟩
      rw [mem_predecessors_iff]
      exact ⟨fun hp => ⟨contains_of_mem_succs hp, hp⟩, fun hp => hp.2⟩
    · cases hp : s.pending with
      | nil => exact .inl rfl
      | cons b rest =>
          obtain ⟨a, s', hturn⟩ := hv.exists_turn hp
          exact .inr ⟨b, a, s', hturn⟩
  · obtain ⟨history, s, hturns, hempty, hruns⟩ :=
      Merging.run_turns hstart (Nat.le_of_eq g.startMerging_outstanding)
    have hv := hturns.valid hstart
    refine ⟨history, s, hturns, hempty, fun notes => ?_, hturns.entry_eq hstart,
      hv.wellFormed.entry_live, hv.wellFormed.exit_live, hv.wellFormed.succs_live,
      hv.wellFormed.succs_nodup, fun h n hn => ⟨fun hkept => hturns.label_eq hstart hn hkept, ?_⟩⟩
    · obtain ⟨notes', hrun⟩ := hruns notes
      exact ⟨notes', yields_bind.2 ⟨s, notes', hrun, yields_pure.2 ⟨rfl, rfl⟩⟩⟩
    · intro hleft
      obtain ⟨n', hn', -⟩ := hleft
      exact ((hturns.contains_iff hstart).1 (contains_of_get? hn')).2

/-- Two empty blocks that go to each other, an exit that goes back to the entry, and a block that
nothing leads to. -/
def emptyCycle : FlowGraph :=
  let entry : Handle := ⟨0, 0⟩
  let ping : Handle := ⟨1, 1⟩
  let pong : Handle := ⟨2, 2⟩
  let stop : Handle := ⟨3, 3⟩
  let apart : Handle := ⟨4, 4⟩
  let blocks := ((((singleton "entry").insertNode "ping").insertNode "pong").insertNode
    "stop").insertNode "apart"
  let edges := ((((((blocks.connect entry ping).connect entry stop).connect ping pong).connect pong
    ping).connect stop entry).connect apart stop)
  { edges.append stop [.unreachable] with exit := stop }

/-- One of the two empty blocks is left, and goes to itself. -/
theorem merge_exact_throughout_emptyCycle :
    emptyCycle.WellFormed ∧ ∃ g' notes', Yields emptyCycle.merge [] g' notes' ∧
      g'.entry = emptyCycle.entry ∧ g'.nodes.contains g'.exit = true ∧ (∀ h, (g'.succs h).Nodup) ∧
      g'.nodes.handles = [⟨0, 0⟩, ⟨2, 2⟩, ⟨3, 3⟩] ∧ g'.succs ⟨2, 2⟩ = [⟨2, 2⟩] := by
  have hg : emptyCycle.WellFormed := by decide
  obtain ⟨-, history, s, -, -, hmerge, hentry, -, hexit, -, hnodup, -⟩ := merge_exact_throughout hg
  obtain ⟨notes', hyields⟩ := hmerge []
  have hleft : (match emptyCycle.merge [] with
      | .ok g' _ => decide (g'.nodes.handles = [⟨0, 0⟩, ⟨2, 2⟩, ⟨3, 3⟩] ∧
          g'.succs ⟨2, 2⟩ = [⟨2, 2⟩])
      | .error _ _ => false) = true := by decide
  rw [show emptyCycle.merge [] = .ok s.graph notes' from hyields] at hleft
  exact ⟨hg, s.graph, notes', hyields, hentry, hexit, hnodup, of_decide_eq_true hleft⟩

end FlowGraph

end AffineFlow
