import AffineFlow.FlowGraph.Predecessors

/-!
# Walks and traces

A walk follows edges through blocks that exist and collects the statements of
every block that it visits, both ends included. The traces of a graph are what
an observer of the statements sees of the walks from the entry: the complete
ones end at the exit, the partial ones are cut off anywhere, even inside a block.
-/
namespace AffineFlow.FlowGraph

variable {g : FlowGraph} {h k m : Handle} {n : Node} {v w : List Stmt}

theorem node_eq_ok_iff : g.node h = .ok n ↔ g.nodes.get? h = some n := by
  unfold node
  split <;> simp_all

theorem succs_of_get? (hn : g.nodes.get? h = some n) : g.succs h = n.succs := by
  simp [succs, hn]

theorem mem_succs_iff : k ∈ g.succs h ↔ ∃ n, g.nodes.get? h = some n ∧ k ∈ n.succs := by
  unfold succs
  split <;> simp_all

theorem exists_node (hc : g.nodes.contains h = true) : ∃ n, g.nodes.get? h = some n :=
  (g.nodes.contains_iff).1 hc

theorem contains_of_get? (hn : g.nodes.get? h = some n) : g.nodes.contains h = true :=
  (g.nodes.contains_iff).2 ⟨n, hn⟩

/-- Every handle of the graph refers to a block. -/
structure Closed (g : FlowGraph) : Prop where
  entry_live : g.nodes.contains g.entry = true
  exit_live : g.nodes.contains g.exit = true
  succs_live : ∀ h, ∀ k ∈ g.succs h, g.nodes.contains k = true

/-- A closed graph that has each edge once. -/
structure WellFormed (g : FlowGraph) : Prop extends g.Closed where
  succs_nodup : ∀ h, (g.succs h).Nodup

/-- Only live blocks have edges, so finitely many of them decide the matter. -/
theorem wellFormed_iff : g.WellFormed ↔ g.nodes.contains g.entry = true ∧
    g.nodes.contains g.exit = true ∧ ∀ h ∈ g.nodes.handles,
      (∀ k ∈ g.succs h, g.nodes.contains k = true) ∧ (g.succs h).Nodup := by
  refine ⟨fun hg => ⟨hg.entry_live, hg.exit_live, fun h _ => ⟨hg.succs_live h, hg.succs_nodup h⟩⟩,
    fun ⟨hentry, hexit, hall⟩ => ⟨⟨hentry, hexit, fun h k hk => ?_⟩, fun h => ?_⟩⟩
  · exact (hall h (g.nodes.mem_handles_iff.2 (contains_of_mem_succs hk))).1 k hk
  · by_cases hh : g.nodes.contains h = true
    · exact (hall h (g.nodes.mem_handles_iff.2 hh)).2
    · have hdead : g.nodes.get? h = none := by simpa [Arena.contains] using hh
      simp [succs, hdead]

instance : Decidable g.WellFormed := decidable_of_iff _ wellFormed_iff.symm

/-- A way along edges, with the statements of the blocks on it. -/
inductive Walk (g : FlowGraph) : Handle → Handle → List Stmt → Prop
  | here {h : Handle} {n : Node} : g.nodes.get? h = some n → Walk g h h n.stmts
  | step {h k m : Handle} {n : Node} {w : List Stmt} :
      g.nodes.get? h = some n → k ∈ n.succs → Walk g k m w → Walk g h m (n.stmts ++ w)

namespace Walk

/-- A walk goes on along an edge of its last block. -/
theorem snoc (hw : Walk g h k w) (hm : m ∈ g.succs k) (hn : g.nodes.get? m = some n) :
    Walk g h m (w ++ n.stmts) := by
  induction hw with
  | here hk => exact .step hk (succs_of_get? hk ▸ hm) (.here hn)
  | step hk hs _ ih =>
      rw [List.append_assoc]
      exact .step hk hs (ih hm)

end Walk

/-- The statements along a walk from the entry to the exit. -/
def CompleteTrace (g : FlowGraph) (w : List Stmt) : Prop := Walk g g.entry g.exit w

/-- The first statements along a walk from the entry to anywhere. -/
def PartialTrace (g : FlowGraph) (w : List Stmt) : Prop :=
  ∃ k v, Walk g g.entry k v ∧ w <+: v

/-- Two graphs that show the same statements to an observer. -/
structure SameTraces (g g' : FlowGraph) : Prop where
  complete : ∀ w, g'.CompleteTrace w ↔ g.CompleteTrace w
  partials : ∀ w, g'.PartialTrace w ↔ g.PartialTrace w

namespace SameTraces

theorem refl (g : FlowGraph) : SameTraces g g := ⟨fun _ => .rfl, fun _ => .rfl⟩

theorem trans {g₁ g₂ g₃ : FlowGraph} (h : SameTraces g₁ g₂) (k : SameTraces g₂ g₃) :
    SameTraces g₁ g₃ :=
  ⟨fun w => (k.complete w).trans (h.complete w), fun w => (k.partials w).trans (h.partials w)⟩

end SameTraces

theorem PartialTrace.of_walk {k : Handle} (hw : Walk g g.entry k v) : g.PartialTrace v :=
  ⟨k, v, hw, List.prefix_rfl⟩

/-- Partial traces are closed under taking prefixes, so it is enough to extend every walk of the
one graph to a walk of the other. -/
theorem PartialTrace.mono {g' : FlowGraph} (h : ∀ k v, Walk g g.entry k v → g'.PartialTrace v)
    (hw : g.PartialTrace w) : g'.PartialTrace w := by
  obtain ⟨k, v, hv, hp⟩ := hw
  obtain ⟨k', v', hv', hp'⟩ := h k v hv
  exact ⟨k', v', hv', hp.trans hp'⟩

end AffineFlow.FlowGraph
