import AffineFlow.FlowGraph.Text
import AffineFlow.Proofs.Reachability

/-!
# What removal leaves

In a closed graph the removal of unreachable blocks ends. It keeps what the
entry reaches as it is, and the exit, and drops every other block. The exit is
kept without being explored: a successor that nothing but the exit leads to is
dropped, and the edge to it stays behind. No other edge of the result leads to a
dropped block.
-/
namespace AffineFlow.FlowGraph

variable {g g' : FlowGraph} {reached : List Handle} {h k : Handle}

namespace RestrictedTo

theorem contains_iff (hr : g.RestrictedTo g' reached) :
    g'.nodes.contains h = true ↔
      (h ∈ reached ∨ h = g.exit) ∧ g.nodes.contains h = true := by
  rw [Arena.contains, Arena.contains, hr.get?_eq]
  split
  next hkept => simp only [hkept, true_and]
  next hkept => simp [hkept]

/-- Kept blocks keep their edges. -/
theorem mem_succs_iff_kept (hr : g.RestrictedTo g' reached) :
    k ∈ g'.succs h ↔ (h ∈ reached ∨ h = g.exit) ∧ k ∈ g.succs h := by
  rw [mem_succs_iff, mem_succs_iff, hr.get?_eq]
  split
  next hkept => simp only [hkept, true_and]
  next hkept => simp [hkept]

/-- No edge leaves the explored blocks, so only the exit can be left with an edge to nothing. -/
theorem dangles_iff (hr : g.RestrictedTo g' reached) (hc : g.ClosedSet reached) (hg : g.Closed)
    (hk : k ∈ g'.succs h) :
    ¬g'.nodes.contains k = true ↔ h = g.exit ∧ k ∉ reached ∧ k ≠ g.exit := by
  obtain ⟨hkept, hedge⟩ := hr.mem_succs_iff_kept.1 hk
  have hlive := hg.succs_live h k hedge
  rw [hr.contains_iff, and_iff_left hlive, not_or]
  constructor
  · intro hdropped
    have hunexplored : h ∉ reached := fun hh => hdropped.1 (hc.succs_mem h hh k hedge)
    exact ⟨hkept.resolve_left hunexplored, hdropped⟩
  · exact And.right

/-- The result is closed unless the exit leads to a dropped block. -/
theorem closed_iff (hr : g.RestrictedTo g' reached) (hc : g.ClosedSet reached) (hg : g.Closed) :
    g'.Closed ↔ ∀ k ∈ g.succs g.exit, k ∈ reached ∨ k = g.exit := by
  constructor
  · intro hclosed k hk
    have hedge := hr.mem_succs_iff_kept.2 ⟨.inr rfl, hk⟩
    exact (hr.contains_iff.1 (hclosed.succs_live _ _ hedge)).1
  · intro hexit
    refine ⟨?_, ?_, fun h k hk => ?_⟩
    · rw [hr.entry_eq, hr.contains_iff]
      exact ⟨.inl hc.entry_mem, hg.entry_live⟩
    · rw [hr.exit_eq, hr.contains_iff]
      exact ⟨.inr rfl, hg.exit_live⟩
    · by_contra hdead
      obtain ⟨rfl, hunexplored, hother⟩ := (hr.dangles_iff hc hg hk).1 hdead
      have hkept := hexit k (hr.mem_succs_iff_kept.1 hk).2
      exact hkept.elim hunexplored hother

end RestrictedTo

/-- The removal takes at most one turn for each block, whatever notes have been made. The entry and
the exit are live blocks of the result, what the entry reaches is there unchanged, and no other
block is there but the exit, which is unchanged as well. An edge of the result leads to no block
just if it leaves the exit and leads neither to a block that the entry reaches nor to the exit
itself; if there is no such edge the result is closed. -/
theorem removeUnreachable_closed_iff (hg : g.Closed) :
    ∃ turns reached g', g.Explores turns [g.entry] [g.entry] reached ∧ turns ≤ g.nodes.size ∧
      g.reachable = .ok reached ∧ (∀ notes, ∃ notes', Yields g.removeUnreachable notes g' notes') ∧
      g'.entry = g.entry ∧ g'.exit = g.exit ∧
      (∀ h, g.Reaches g.entry h ∨ h = g.exit →
        ∃ n, g.nodes.get? h = some n ∧ g'.nodes.get? h = some n) ∧
      (∀ h, g'.nodes.contains h = true → g.Reaches g.entry h ∨ h = g.exit) ∧
      (∀ h, ∀ k ∈ g'.succs h, ¬g'.nodes.contains k = true ↔
        h = g.exit ∧ ¬g.Reaches g.entry k ∧ k ≠ g.exit) ∧
      (g'.Closed ↔ ∀ k ∈ g.succs g.exit, g.Reaches g.entry k ∨ k = g.exit) := by
  obtain ⟨turns, reached, he, hle, hc, hexact⟩ := exists_explores_entry hg
  have hreachable : g.reachable = .ok reached := he.exploreFrom_eq (Nat.le_succ_of_le hle)
  obtain ⟨g', hr, hruns⟩ := removeUnreachable_of_reachable hreachable
  simp only [← hexact]
  refine ⟨turns, reached, g', he, hle, hreachable, hruns, hr.entry_eq, hr.exit_eq,
    fun h hkept => ?_, fun h hh => (hr.contains_iff.1 hh).1,
    fun h k hk => hr.dangles_iff hc hg hk, hr.closed_iff hc hg⟩
  have hlive : g.nodes.contains h = true := by
    rcases hkept with hh | rfl
    · exact hc.live h hh
    · exact hg.exit_live
  obtain ⟨n, hn⟩ := exists_node hlive
  exact ⟨n, hn, by rw [hr.get?_eq, if_pos hkept, hn]⟩

/-- A loop that never ends, a block that nothing leads to, and an exit behind it that goes back into
the loop. -/
def endlessLoop : FlowGraph :=
  let entry : Handle := ⟨0, 0⟩
  let body : Handle := ⟨1, 1⟩
  let apart : Handle := ⟨2, 2⟩
  let stop : Handle := ⟨3, 3⟩
  let blocks := (((singleton "entry").insertNode "body").insertNode "apart").insertNode "stop"
  let edges := ((blocks.connect entry body).connect body entry).connect apart stop
  { edges.connect stop body with exit := stop }

/-- The exit goes nowhere but into the loop, so the result is closed. -/
theorem removeUnreachable_closed_iff_endlessLoop :
    endlessLoop.Closed ∧ ∃ g' notes', Yields endlessLoop.removeUnreachable [] g' notes' ∧
      g'.Closed ∧ g'.nodes.handles = [⟨0, 0⟩, ⟨1, 1⟩, ⟨3, 3⟩] := by
  have hg : endlessLoop.WellFormed := by decide
  obtain ⟨_, _, g', -, -, -, hruns, -, -, -, -, -, hiff⟩ := removeUnreachable_closed_iff hg.toClosed
  obtain ⟨notes', hrun⟩ := hruns []
  have hbody : endlessLoop.Reaches endlessLoop.entry ⟨1, 1⟩ := .single (.head _)
  have hclosed : g'.Closed := hiff.2 fun k hk => by
    obtain rfl := List.mem_singleton.1 hk
    exact .inl hbody
  have hleft : (match endlessLoop.removeUnreachable [] with
      | .ok g' _ => decide (g'.nodes.handles = [⟨0, 0⟩, ⟨1, 1⟩, ⟨3, 3⟩])
      | .error _ _ => false) = true := by decide
  rw [show endlessLoop.removeUnreachable [] = .ok g' notes' from hrun] at hleft
  exact ⟨hg.toClosed, g', notes', hrun, hclosed, of_decide_eq_true hleft⟩

/-- The entry reaches neither the exit nor the block that the exit leads to. -/
def strandedExit : FlowGraph :=
  let stop : Handle := ⟨1, 1⟩
  let apart : Handle := ⟨2, 2⟩
  let blocks := ((singleton "entry").insertNode "exit").insertNode "apart"
  { blocks.connect stop apart with exit := stop }

/-- The exit survives with its edge, and the block at the end of the edge does not. So the result
cannot be written down. -/
theorem danglingEdge_strandedExit :
    strandedExit.Closed ∧ ∃ g' notes', Yields strandedExit.removeUnreachable [] g' notes' ∧
      ∃ k ∈ g'.succs g'.exit, g'.nodes.contains k = false ∧
        ∀ names : Naming, g'.text names = .error ⟨k⟩ := by
  have hg : strandedExit.WellFormed := by decide
  exact ⟨hg.toClosed, _, _, rfl, ⟨2, 2⟩, by decide, by decide, fun _ => rfl⟩

end AffineFlow.FlowGraph
