import AffineFlow.FlowGraph.Merge
import AffineFlow.Proofs.Trace

/-!
# Absorbing the only successor

A block whose only successor has no other predecessor is always followed by it,
so the two can be one block. A walk that enters the pair goes through both halves
or stops after the first, and then it shows a prefix of what the whole block
shows.
-/
namespace AffineFlow.FlowGraph

open Merging (followedBy)

variable {g g' : FlowGraph} {b t h k : Handle} {w : List Stmt}

/-- A block `b` that can take in `t`. -/
structure Precedes (g : FlowGraph) (b t : Handle) : Prop where
  node : ∃ n, g.nodes.get? b = some n ∧ n.succs = [t]
  target_ne : t ≠ b
  ne_entry : t ≠ g.entry
  only : ∀ h, t ∈ g.succs h → h = b

/-- `g'` is `g` without `t`, and `b` goes on as `t` did. -/
structure Absorbed (g g' : FlowGraph) (b t : Handle) : Prop where
  entry_eq : g'.entry = g.entry
  exit_eq : g'.exit = if g.exit = t then b else g.exit
  get?_target : g'.nodes.get? t = none
  get?_block : ∀ n m, g.nodes.get? b = some n → g.nodes.get? t = some m →
    g'.nodes.get? b = some (followedBy m n)
  get?_other : ∀ h, h ≠ t → h ≠ b → g'.nodes.get? h = g.nodes.get? h

/-- Removing the second half and continuing the first as the second did absorbs it. -/
theorem Precedes.absorbed {m : Node} (hp : g.Precedes b t) (hm : g.nodes.get? t = some m) :
    g.Absorbed { (g.removeNode t).modifyNode b (followedBy m) with
      exit := if g.exit = t then b else g.exit } b t := by
  have hnodes : ∀ h, ((g.removeNode t).modifyNode b (followedBy m)).nodes.get? h =
      if h = b then (if h = t then none else g.nodes.get? h).map (followedBy m)
      else if h = t then none else g.nodes.get? h := by
    intro h
    simp only [modifyNode, removeNode, Arena.get?_modify, Arena.get?_erase]
  refine ⟨rfl, rfl, ?_, ?_, ?_⟩
  · show ((g.removeNode t).modifyNode b (followedBy m)).nodes.get? t = none
    rw [hnodes, if_neg hp.target_ne, if_pos rfl]
  · intro n m' hn hm'
    show ((g.removeNode t).modifyNode b (followedBy m)).nodes.get? b = _
    obtain rfl : m' = m := by simpa [hm] using hm'.symm
    rw [hnodes, if_pos rfl, if_neg hp.target_ne.symm, hn, Option.map_some]
  · intro h h₁ h₂
    show ((g.removeNode t).modifyNode b (followedBy m)).nodes.get? h = _
    rw [hnodes, if_neg h₂, if_neg h₁]

namespace Absorbed

theorem contains_iff (ha : g.Absorbed g' b t) (hp : g.Precedes b t) (hg : g.Closed) :
    g'.nodes.contains h = true ↔ h ≠ t ∧ g.nodes.contains h = true := by
  obtain ⟨n, hn, hsuccs⟩ := hp.node
  have ht : t ∈ g.succs b := by rw [succs_of_get? hn]; simp [hsuccs]
  obtain ⟨m, hm⟩ := exists_node (hg.succs_live b t ht)
  by_cases h₁ : h = t
  · simp [h₁, Arena.contains, ha.get?_target]
  · by_cases h₂ : h = b
    · simp [h₂, Arena.contains, ha.get?_block n m hn hm, hn, hp.target_ne.symm]
    · simp [h₁, Arena.contains, ha.get?_other h h₁ h₂]

theorem succs_block (ha : g.Absorbed g' b t) (hp : g.Precedes b t) (hg : g.Closed) :
    g'.succs b = g.succs t := by
  obtain ⟨n, hn, hsuccs⟩ := hp.node
  have ht : t ∈ g.succs b := by rw [succs_of_get? hn]; simp [hsuccs]
  obtain ⟨m, hm⟩ := exists_node (hg.succs_live b t ht)
  rw [succs_of_get? (ha.get?_block n m hn hm), succs_of_get? hm]
  rfl

theorem succs_target (ha : g.Absorbed g' b t) : g'.succs t = [] := by
  simp [succs, ha.get?_target]

theorem succs_other (ha : g.Absorbed g' b t) (h₁ : h ≠ t) (h₂ : h ≠ b) :
    g'.succs h = g.succs h := by
  simp only [succs, ha.get?_other h h₁ h₂]

/-- A walk keeps its statements if it does not start in the second half of the pair and does not
stop after the first half. One that starts in the second half is the rest of a walk through the
first half. -/
theorem walk_aux (ha : g.Absorbed g' b t) (hp : g.Precedes b t) {n m : Node}
    (hn : g.nodes.get? b = some n) (hm : g.nodes.get? t = some m) (hsuccs : n.succs = [t])
    (hw : Walk g h k w) (hk : k ≠ b) :
    (h ≠ t → Walk g' h (if k = t then b else k) w) ∧
      (h = t → Walk g' b (if k = t then b else k) (n.stmts ++ w)) := by
  have hblock := ha.get?_block n m hn hm
  induction hw with
  | @here h o ho =>
      constructor
      · intro hht
        rw [if_neg hht]
        exact .here (by rw [ha.get?_other h hht hk, ho])
      · intro he
        subst he
        obtain rfl : o = m := by simpa [hm] using ho.symm
        rw [if_pos rfl]
        exact .here hblock
  | @step h s k o w ho hs _ ih =>
      obtain ⟨ih₁, ih₂⟩ := ih hk
      have htarget : s = t → h = b := fun e =>
        hp.only h (e ▸ FlowGraph.mem_succs_iff.2 ⟨o, ho, hs⟩)
      constructor
      · intro hht
        by_cases hhb : h = b
        · subst hhb
          obtain rfl : o = n := by simpa [hn] using ho.symm
          exact ih₂ (by simpa [hsuccs] using hs)
        · have hst : s ≠ t := fun e => hhb (htarget e)
          exact .step (by rw [ha.get?_other h hht hhb, ho]) hs (ih₁ hst)
      · intro he
        subst he
        obtain rfl : o = m := by simpa [hm] using ho.symm
        have hst : s ≠ h := fun e => hp.target_ne (htarget e)
        have hjoined : Walk g' b (if k = h then b else k) ((followedBy o n).stmts ++ w) :=
          .step hblock hs (ih₁ hst)
        rw [← List.append_assoc]
        exact hjoined

/-- A walk of the smaller graph to the pair is a walk of the larger one to the second half. -/
theorem walk_back (ha : g.Absorbed g' b t) (hp : g.Precedes b t) {n m : Node}
    (hn : g.nodes.get? b = some n) (hm : g.nodes.get? t = some m) (hsuccs : n.succs = [t])
    (hw : Walk g' h k w) : Walk g h (if k = b then t else k) w := by
  have hblock := ha.get?_block n m hn hm
  have hto : t ∈ n.succs := by simp [hsuccs]
  induction hw with
  | @here h o ho =>
      by_cases hhb : h = b
      · subst hhb
        obtain rfl : o = followedBy m n := by simpa [hblock] using ho.symm
        rw [if_pos rfl]
        exact .step hn hto (.here hm)
      · have hht : h ≠ t := by rintro rfl; simp [ha.get?_target] at ho
        rw [if_neg hhb]
        exact .here (by rw [← ha.get?_other h hht hhb, ho])
  | @step h s k o w ho hs _ ih =>
      by_cases hhb : h = b
      · subst hhb
        obtain rfl : o = followedBy m n := by simpa [hblock] using ho.symm
        show Walk g h _ ((n.stmts ++ m.stmts) ++ w)
        rw [List.append_assoc]
        exact .step hn hto (.step hm hs ih)
      · have hht : h ≠ t := by rintro rfl; simp [ha.get?_target] at ho
        exact .step (by rw [← ha.get?_other h hht hhb, ho]) hs ih

/-- The exit must not be the first half of the pair, or a complete trace would stop inside. -/
theorem sameTraces (ha : g.Absorbed g' b t) (hp : g.Precedes b t) (hg : g.Closed)
    (hx : g.succs g.exit = []) : SameTraces g g' := by
  obtain ⟨n, hn, hsuccs⟩ := hp.node
  have ht : t ∈ g.succs b := by rw [succs_of_get? hn]; simp [hsuccs]
  obtain ⟨m, hm⟩ := exists_node (hg.succs_live b t ht)
  have hexit : g.exit ≠ b := by
    intro e
    rw [← e, hx] at ht
    cases ht
  have forth : ∀ {k w}, Walk g g.entry k w → k ≠ b →
      Walk g' g'.entry (if k = t then b else k) w := fun {k w} hw hk =>
    ha.entry_eq ▸ (ha.walk_aux hp hn hm hsuccs hw hk).1 hp.ne_entry.symm
  have back : ∀ {k w}, Walk g' g'.entry k w → Walk g g.entry (if k = b then t else k) w :=
    fun {k w} hw => ha.walk_back hp hn hm hsuccs (ha.entry_eq ▸ hw)
  refine ⟨fun w => ?_, fun w =>
    ⟨PartialTrace.mono fun k v hv => ?_, PartialTrace.mono fun k v hv => ?_⟩⟩
  · unfold CompleteTrace
    rw [ha.exit_eq]
    refine ⟨fun hw => ?_, fun hw => forth hw hexit⟩
    have hw := back hw
    by_cases he : g.exit = t
    · simpa [he] using hw
    · simpa [he, hexit] using hw
  · exact .of_walk (back hv)
  · by_cases hk : k = b
    · -- a walk that stops after the first half goes on to the second
      subst hk
      exact ⟨_, _, forth (hv.snoc ht hm) hp.target_ne, List.prefix_append _ _⟩
    · exact .of_walk (forth hv hk)

theorem wellFormed (ha : g.Absorbed g' b t) (hp : g.Precedes b t) (hg : g.WellFormed) :
    g'.WellFormed := by
  have hlive := fun h => ha.contains_iff (h := h) hp hg.toClosed
  have hblock := ha.succs_block hp hg.toClosed
  obtain ⟨n, hn, hsuccs⟩ := hp.node
  refine ⟨⟨?_, ?_, fun h k hk => ?_⟩, fun h => ?_⟩
  · rw [ha.entry_eq, hlive]
    exact ⟨hp.ne_entry.symm, hg.entry_live⟩
  · rw [ha.exit_eq, hlive]
    split
    next => exact ⟨hp.target_ne.symm, contains_of_get? hn⟩
    next he => exact ⟨he, hg.exit_live⟩
  · rw [hlive]
    -- an edge to the absorbed block would come from the absorbing one
    by_cases h₁ : h = t
    · simp [h₁, ha.succs_target] at hk
    · by_cases h₂ : h = b
      · rw [h₂, hblock] at hk
        refine ⟨?_, hg.succs_live t k hk⟩
        intro he
        subst he
        exact hp.target_ne (hp.only k hk)
      · rw [ha.succs_other h₁ h₂] at hk
        refine ⟨?_, hg.succs_live h k hk⟩
        intro he
        subst he
        exact h₂ (hp.only h hk)
  · by_cases h₁ : h = t
    · simp [h₁, ha.succs_target]
    · by_cases h₂ : h = b
      · rw [h₂, hblock]
        exact hg.succs_nodup t
      · rw [ha.succs_other h₁ h₂]
        exact hg.succs_nodup h

theorem exit_final (ha : g.Absorbed g' b t) (hp : g.Precedes b t) (hg : g.Closed)
    (hx : g.succs g.exit = []) : g'.succs g'.exit = [] := by
  rw [ha.exit_eq]
  split
  next he => rw [ha.succs_block hp hg, ← he, hx]
  next he =>
    have hb : g.exit ≠ b := by
      obtain ⟨n, hn, hsuccs⟩ := hp.node
      intro e
      rw [e, succs_of_get? hn, hsuccs] at hx
      cases hx
    rw [ha.succs_other he hb, hx]

end Absorbed

end AffineFlow.FlowGraph
