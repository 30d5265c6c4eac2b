import AffineFlow.Proofs.Acceptance.Edges
import AffineFlow.Proofs.ControlFlow.Correspondence
import AffineFlow.Proofs.Simplification

/-!
# The outcome of a lowering

The graph of a well-formed function is well-formed too, so simplification never
meets a missing block. What is left is the code of the blocks: the lowering of
the function ends with its first defect, and well if there is none.
-/
namespace AffineFlow

open Ssa Lowering

namespace Skeleton

variable {body : Body} {g : FlowGraph} {place : BlockId → Handle}
  {middles : BlockId → List Handle}

theorem succs_nodup (hs : Skeleton body g place middles) (h : Handle) : (g.succs h).Nodup := by
  by_cases hlive : g.nodes.contains h = true
  · have hmiddles := (List.nodup_flatMap.1 (List.nodup_append.1 hs.distinct).2.1).1
    rcases (hs.live h).1 hlive with hh | rfl
    · rcases List.mem_append.1 hh with hh | hh
      · obtain ⟨b, hb, rfl⟩ := List.mem_map.1 hh
        obtain ⟨block, -, hd⟩ := hs.drawn b hb
        cases hd with
        | ret _ _ hsuccs =>
            rw [hsuccs, FlowGraph.out]
            split
            · exact List.nodup_nil
            · exact List.nodup_singleton _
        | stuck _ _ hsuccs => exact hsuccs ▸ List.nodup_nil
        | jump _ _ _ hsuccs => exact hsuccs ▸ List.nodup_singleton _
        | branch _ hsuccs => exact hsuccs ▸ hmiddles b hb
      · obtain ⟨b, hb, hm⟩ := List.mem_flatMap.1 hh
        obtain ⟨i, hi⟩ := List.mem_iff_getElem?.1 hm
        obtain ⟨t, -, -, hsuccs, -⟩ := hs.middle_spec hb hi
        exact hsuccs ▸ List.nodup_singleton _
    · exact hs.exit_final ▸ List.nodup_nil
  · have hdead : g.nodes.get? h = none := by simpa [Arena.contains] using hlive
    simp [FlowGraph.succs, hdead]

theorem wellFormed (hs : Skeleton body g place middles) : g.WellFormed where
  entry_live := by
    obtain ⟨b, hb, hentry⟩ := Option.map_eq_some_iff.1 hs.entry_eq
    exact hentry ▸ hs.place_live (List.mem_of_mem_head? hb)
  exit_live := (hs.live _).2 (.inr rfl)
  succs_live := by
    intro h k hk
    rcases hs.edge_cases hk with ⟨b, hb, block, t, ht, -, -, -, rfl⟩ | ⟨b, hb, -, hm⟩ |
      ⟨b, hb, i, t, ht, -, -, rfl⟩ | ⟨b, hb, block, v, -, -, -, rfl, -⟩
    · exact hs.place_live ht
    · exact (hs.live k).2 (.inl (List.mem_append_right _ (List.mem_flatMap.2 ⟨b, hb, hm⟩)))
    · exact hs.place_live ht
    · exact (hs.live _).2 (.inr rfl)
  succs_nodup := hs.succs_nodup

end Skeleton

/-- Simplification of a well-formed graph ends well. -/
theorem FlowGraph.simplify_exists {g : FlowGraph} (hg : g.WellFormed) (hx : g.succs g.exit = [])
    (notes : List Note) : ∃ g' notes', Yields g.simplify notes g' notes' := by
  obtain ⟨g₁, notes₁, h₁, hs₁⟩ :=
    removeUnreachable_simplifies hg hx (notes ++ [.simplifying g.nodes.size])
  obtain ⟨g₂, notes₂, h₂, -⟩ := merge_simplifies hs₁.wellFormed hs₁.exit_final notes₁
  refine ⟨g₂, notes₂ ++ [.simplified g₂.nodes.size], ?_⟩
  simp only [simplify, yields_bind, Noted.yields_tell, yields_pure]
  exact ⟨(), _, rfl, g₁, notes₁, h₁, g₂, notes₂, h₂, (), _, rfl, rfl, rfl⟩

theorem Lowering.ofNoted_safe {α : Type} {c : Noted Dangling α}
    (hc : ∀ notes, ∃ a notes', Yields c notes a notes') : Safe (ofNoted c) := by
  intro s
  obtain ⟨a, notes', h⟩ := hc s.notes
  have hrun : ofNoted c s = .ok a { s with notes := notes' } := yields_ofNoted.2 ⟨notes', h, rfl⟩
  rw [hrun]
  exact ⟨rfl, trivial⟩

namespace Scope.WellFormed

variable {sc : Scope} (hw : sc.WellFormed)
include hw

theorem namedBlocks_answered {ids : List BlockId} (hids : ids ⊆ sc.body.order) :
    Answered (sc.namedBlocks ids) := by
  induction ids with
  | nil => exact .ok _
  | cons id rest ih =>
      obtain ⟨hid, hrest⟩ := List.cons_subset.1 hids
      obtain ⟨block, hblock⟩ := hw.block_live hid
      have hinsts : block.insts.find? (fun i => (sc.body.inst? i).isNone) = none := by
        refine List.find?_eq_none.2 fun i hi => ?_
        obtain ⟨inst, hinst, -⟩ := hw.inst_live ⟨id, hid, block, hblock, hi⟩
        simp [hinst]
      unfold namedBlocks
      simp only [hblock, hinsts]
      exact (ih hrest).map _

theorem assemble_settles (entry : BlockId × String) (others : List (BlockId × String)) :
    Settles (fun _ => True) sc.defect? (sc.assemble entry others) := by
  refine (hw.blocksCode_settles (List.Subset.refl _)).finish fun codes _ => ?_
  dsimp only
  split
  · exact .pure trivial
  · exact (Safe.tell _).bind fun _ => .pure _

theorem plainGraph_settles : Settles (fun _ => True) sc.defect? sc.plainGraph := by
  obtain ⟨entries, hentries⟩ := hw.namedBlocks_answered (List.Subset.refl _)
  refine .ask hentries ?_
  have horder := namedBlocks_spec hentries
  cases entries with
  | nil => exact absurd horder.symm hw.order_ne_nil
  | cons entry others =>
      exact (hw.assemble_settles entry others).finish fun graph _ =>
        hw.prologue_safe.bind fun _ => .pure _

/-- The lowering of a well-formed function ends with its first defect. -/
theorem graph_settles : Settles (fun _ => True) sc.defect? sc.graph := by
  have hplain := hw.plainGraph_settles.ensures (R := fun g => g.WellFormed ∧ g.succs g.exit = [])
    fun s g s' h => by
      obtain ⟨place, middles, hs⟩ := plainGraph_skeleton hw.order_nodup h
      exact ⟨hs.wellFormed, hs.exit_final⟩
  have hlast : ∀ graph : FlowGraph, Safe (do
      let minted := (← get).supply.size
      Lowering.tell (.built sc.func.name graph.nodes.size minted)
      return graph) := fun graph =>
    Safe.bind (fun _ => ⟨rfl, trivial⟩) fun _ => (Safe.tell _).bind fun _ => .pure _
  refine hplain.finish fun plain hg => ?_
  obtain ⟨-, hwf, hx⟩ := hg
  split
  · exact (ofNoted_safe fun notes => FlowGraph.simplify_exists hwf hx notes).bind hlast
  · exact (Safe.pure _).bind hlast

end Scope.WellFormed

end AffineFlow
