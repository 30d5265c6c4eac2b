import AffineFlow.Proofs.Acceptance.Defects
import AffineFlow.Proofs.Phis.Simultaneous

/-!
# Edges and blocks that cannot be lowered

The phis at the end of an edge only fail for a missing incoming value, and an
edge only fails before that if its target is not laid out. So the code of the
laid-out blocks fails with the first defect of the function.
-/
namespace AffineFlow

open Ssa Lowering

namespace Scope

variable {sc : Scope} {block targetBlock : Block} {source target : BlockId} {id : BlockId}
  {predName : String}

/-- The phi and its value are there. -/
def PhiLive (sc : Scope) (p : IncomingPhi) : Prop :=
  sc.isLive (.inst p.id) = true ∧ sc.isLive p.value = true

/-- The values of the phis are found just if every phi mentions the block. -/
theorem incomingPhis_missing (sc : Scope) (source : BlockId) (predName : String)
    (phis : List (InstId × Inst)) :
    match sc.incomingPhis source predName phis with
    | .ok _ => phis.find? (fun p => (incomingValue? p.2.kind source).isNone) = none
    | .error reason => ∃ p, phis.find? (fun p => (incomingValue? p.2.kind source).isNone) = some p ∧
        reason = .missingIncoming sc.func.name (sc.messageName p.1) predName := by
  induction phis with
  | nil => rfl
  | cons phi rest ih =>
      obtain ⟨id, inst⟩ := phi
      unfold incomingPhis
      cases hvalue : incomingValue? inst.kind source with
      | none => exact ⟨(id, inst), by rw [List.find?_cons_of_pos (by simp [hvalue])], rfl⟩
      | some value =>
          rw [List.find?_cons_of_neg (by simp [hvalue])]
          dsimp only
          cases hrest : sc.incomingPhis source predName rest with
          | ok ps => rwa [hrest] at ih
          | error reason => rwa [hrest] at ih

/-- The values that the phis of a block take from another block are there. -/
def IncomingLive (sc : Scope) (source : BlockId) (block : Block) : Prop :=
  ∀ p ∈ sc.body.phis block, ∀ v ∈ incomingValue? p.2.kind source, sc.isLive v = true

theorem IncomingLive.phiLive {ps : List IncomingPhi} (hlive : sc.IncomingLive source block)
    (h : sc.incomingPhis source predName (sc.body.phis block) = .ok ps) :
    ∀ p ∈ ps, sc.PhiLive p := by
  intro p hp
  obtain ⟨inst, hphi, -, hincoming⟩ := (incomingPhis_spec h).2 p hp
  obtain ⟨-, hinst, -⟩ := phis_spec hphi
  refine ⟨?_, hlive _ hphi _ hincoming⟩
  rw [isLive, hinst]
  rfl

section Phis

variable (hbody : sc.func.body = some sc.body)
include hbody

theorem savePhis_safe {ps : List IncomingPhi} (saved : SavedPhis)
    (hps : ∀ p ∈ ps, sc.PhiLive p) : Safe (sc.savePhis target saved ps) := by
  induction ps generalizing saved with
  | nil => exact .pure _
  | cons p rest ih =>
      obtain ⟨⟨-, hvalue⟩, hrest⟩ := List.forall_mem_cons.1 hps
      obtain ⟨needed, hneeded⟩ : Answered (sc.needsSaving target saved p) :=
        (tracks_answered hbody hvalue).map _
      refine .ask hneeded ?_
      split
      · refine (express_settles hbody hvalue).safe.bind fun e => ?_
        split
        · exact ih saved hrest
        · exact Safe.temporary.bind fun _ => (ih _ hrest).bind fun _ => .pure _
      · exact ih saved hrest

theorem assignPhis_safe {ps : List IncomingPhi} (saved : SavedPhis)
    (hps : ∀ p ∈ ps, sc.PhiLive p) : Safe (sc.assignPhis saved ps) := by
  induction ps with
  | nil => exact .pure _
  | cons p rest ih =>
      obtain ⟨⟨hid, hvalue⟩, hrest⟩ := List.forall_mem_cons.1 hps
      obtain ⟨tracked, htracked⟩ := tracks_answered hbody hid
      have hbefore : Safe (sc.expressBefore saved p.value) := by
        unfold expressBefore
        split
        · exact .pure _
        · exact (express_settles hbody hvalue).safe
      refine .ask htracked ?_
      split
      next h =>
        obtain ⟨rfl, -⟩ := Bool.and_eq_true_iff.1 h
        refine (variableOf_safe htracked rfl).bind fun lhs => hbefore.bind fun e => ?_
        split
        · exact (ih hrest).bind fun _ => .pure _
        · exact (ih hrest).bind fun _ => .pure _
      next => exact ih hrest

theorem phiCode_settles (hlive : sc.IncomingLive source targetBlock) : Settles (fun _ => True)
    ((sc.phiDefect? source predName targetBlock).map .rejected)
    (sc.phiCode target targetBlock source predName) := by
  unfold phiCode phiDefect?
  have hmissing := sc.incomingPhis_missing source predName (sc.body.phis targetBlock)
  cases hps : sc.incomingPhis source predName (sc.body.phis targetBlock) with
  | error reason =>
      rw [hps] at hmissing
      obtain ⟨p, hp, rfl⟩ := hmissing
      rw [hp]
      exact .reject _
  | ok ps =>
      rw [hps] at hmissing
      rw [hmissing]
      have hphis := hlive.phiLive hps
      cases ps with
      | nil => exact .pure trivial
      | cons p rest =>
          exact (Safe.tell _).bind fun _ => (savePhis_safe hbody [] hphis).bind fun _ =>
            (assignPhis_safe hbody _ hphis).bind fun _ => .pure _

end Phis

namespace WellFormed

variable (hw : sc.WellFormed)
include hw

theorem incomingLive : sc.IncomingLive source block := by
  intro p hp v hincoming
  obtain ⟨-, hinst, -⟩ := phis_spec hp
  unfold incomingValue? at hincoming
  split at hincoming
  next incoming hkind =>
    obtain ⟨l₁, l₂, he, -⟩ := List.lookup_eq_some_iff.1 hincoming
    refine hw.live_of_operand hinst ?_
    rw [hkind, InstKind.operands, he]
    exact List.mem_map_of_mem (List.mem_append_right _ List.mem_cons_self)
  next => cases hincoming

theorem edgeCondition_safe {index : Nat} (hsource : source ∈ sc.body.order)
    (hblock : sc.body.block? source = some block) : Safe (sc.edgeCondition block.term index) := by
  obtain ⟨-, hlive, hinteger⟩ := hw.block_wellFormed hsource hblock
  unfold edgeCondition
  split
  next cond onTrue onFalse hterm =>
    rw [hterm] at hlive hinteger
    exact hw.assumptions_safe (hlive cond rfl) (hinteger cond rfl)
  next value cases targets hterm =>
    rw [hterm] at hlive
    refine (hw.express_safe (hlive value rfl)).bind fun e => ?_
    split
    · exact .pure _
    · split
      · exact .pure _
      · exact .pure _
  next => exact .pure _

/-- What a block that control may go to is. -/
theorem target_settles (target : BlockId) : Settles (fun b => sc.body.block? target = some b)
    (if target ∈ sc.body.order then none else some (.rejected (.unknownBlock sc.func.name)))
    (sc.target target) := by
  unfold Scope.target
  split
  next htarget =>
    obtain ⟨b, hb⟩ := hw.block_live htarget
    simp only [hb]
    exact .pure rfl
  next => exact .reject _

/-- The target and then the phis of an edge. -/
theorem edge_settles {α : Type} {f : Block → Lowering α}
    (hf : ∀ b, sc.body.block? target = some b →
      Settles (fun _ => True) ((sc.phiDefect? source block.name b).map .rejected) (f b)) :
    Settles (fun _ => True) (sc.edgeDefect? source block target) (sc.target target >>= f) := by
  have hdefect : sc.edgeDefect? source block target =
      (if target ∈ sc.body.order then none else some (.rejected (.unknownBlock sc.func.name))).or
        (((sc.body.block? target).bind (sc.phiDefect? source block.name)).map .rejected) := by
    unfold edgeDefect?
    split <;> rfl
  rw [hdefect]
  refine (hw.target_settles target).bind fun b hb => ?_
  rw [hb]
  exact hf b hb

theorem edgeCode_settles {index : Nat} (hsource : source ∈ sc.body.order)
    (hblock : sc.body.block? source = some block) :
    Settles (fun _ => True) (sc.edgeDefect? source block target)
      (sc.edgeCode source block index target) :=
  hw.edge_settles fun _ _ => (Safe.tell _).andThen fun _ =>
    (hw.edgeCondition_safe hsource hblock).andThen fun _ =>
      (phiCode_settles hw.body_eq hw.incomingLive).finish fun _ _ => .pure trivial

theorem edgesCode_settles {index : Nat} {succs : List BlockId} (hsource : source ∈ sc.body.order)
    (hblock : sc.body.block? source = some block) :
    Settles (fun _ => True) (succs.findSome? (sc.edgeDefect? source block))
      (sc.edgesCode source block index succs) := by
  induction succs generalizing index with
  | nil => exact .pure trivial
  | cons succ rest ih =>
      rw [findSome?_cons_or]
      exact (hw.edgeCode_settles hsource hblock).bind fun _ _ => ih.finish fun _ _ => .pure trivial

theorem leavingCode_settles (hsource : source ∈ sc.body.order)
    (hblock : sc.body.block? source = some block) :
    Settles (fun _ => True) (block.term.successors.findSome? (sc.edgeDefect? source block))
      (sc.leavingCode source block) := by
  have hlive := (hw.block_wellFormed hsource hblock).operand_live
  unfold leavingCode
  split
  next hterm =>
    rw [hterm]
    exact .pure trivial
  next value hterm =>
    rw [hterm] at hlive ⊢
    exact (hw.returnCode_safe (hlive value rfl)).andThen fun _ => .pure trivial
  next hterm =>
    rw [hterm]
    exact .pure trivial
  next succ hterm =>
    rw [hterm]
    show Settles _ ([succ].findSome? _) _
    rw [findSome?_cons_or, List.findSome?_nil, Option.or_none]
    exact hw.edge_settles fun _ _ =>
      (phiCode_settles hw.body_eq hw.incomingLive).finish fun _ _ => .pure trivial
  next => exact (hw.edgesCode_settles hsource hblock).finish fun _ _ => .pure trivial
  next => exact (hw.edgesCode_settles hsource hblock).finish fun _ _ => .pure trivial

theorem blockCode_settles (hid : id ∈ sc.body.order) :
    Settles (fun _ => True) (sc.blockDefect? id) (sc.blockCode id) := by
  obtain ⟨block, hblock⟩ := hw.block_live hid
  have htarget := hw.target_settles id
  rw [if_pos hid] at htarget
  unfold blockDefect?
  simp only [hblock]
  refine htarget.after fun block' hblock' => ?_
  obtain rfl : block = block' := Option.some.inj (hblock.symm.trans hblock')
  refine (Safe.tell _).andThen fun _ => ?_
  refine (hw.instsCode_settles fun i hi => ⟨id, hid, block, hblock, hi⟩).bind fun stmts _ => ?_
  exact (hw.leavingCode_settles hid hblock).finish fun _ _ => .pure trivial

/-- The code of the blocks fails with the first defect. -/
theorem blocksCode_settles {ids : List BlockId} (hids : ids ⊆ sc.body.order) :
    Settles (fun _ => True) (ids.findSome? sc.blockDefect?) (sc.blocksCode ids) := by
  induction ids with
  | nil => exact .pure trivial
  | cons id rest ih =>
      obtain ⟨hid, hrest⟩ := List.cons_subset.1 hids
      rw [findSome?_cons_or]
      exact (hw.blockCode_settles hid).bind fun _ _ => (ih hrest).finish fun _ _ => .pure trivial

end WellFormed

end Scope

end AffineFlow
