import AffineFlow.Proofs.Acceptance.Calls

/-!
# Defects of a function

What keeps a well-formed function from being lowered, in the order in which it
is met: for each laid-out block the defects of its instructions, then those of
the edges that leave it. An instruction has a defect if it is a translated
address computation whose indices do not fit, or a load whose result is hidden.
An edge has one if it goes to a block that is not laid out, or if a phi at its
end does not mention the block that it comes from.
-/
namespace AffineFlow

open Ssa Lowering

/-- Where indices stop fitting a type: at a struct of which they select no field, or at a type that
has no parts. -/
inductive Misfit where
  | field
  | type (ty : Ty)

def Misfit.rejection (func inst : String) : Misfit → Rejection
  | field => .nonConstantField func inst
  | type ty => .nonAggregateIndex func inst ty.text

/-- Where the indices stop fitting. They descend through arrays, and through structs by constants
that select a field. -/
def Ssa.Ty.misfit? : Ty → List Value → Option Misfit
  | _, [] => none
  | .struct fields, index :: rest =>
      match fieldIndex? index fields.length with
      | some field => misfit? (fields.getD field .blackbox) rest
      | none => some .field
  | .array elem _, _ :: rest => misfit? elem rest
  | ty, _ :: _ => some (.type ty)

namespace Scope

variable {sc : Scope} {v : Value} {id : InstId}

/-- The load is lowered to a read of a cell, although its result is hidden. -/
def hidesLoad (sc : Scope) (id : InstId) (ty : Ty) (ptr : Value) : Bool :=
  ty.isInt && sc.modelsMemory && (sc.cellAt? ptr).isSome && sc.isExpressible ptr &&
    sc.isShadow (.inst id)

/-- The address computation is translated: its result is tracked and wanted, and its base can be
expressed. -/
def isTranslatedAddress (sc : Scope) (id : InstId) (base : Value) : Bool :=
  isYes (sc.tracks (.inst id)) && isYes (sc.isAddressWanted id) && sc.isExpressible base

/-- What is wrong with the indices of an address computation. The first one steps over whole objects
and fits any type; of an extension, the operand counts. -/
def indexDefect? (sc : Scope) (id : InstId) (sourceTy : Ty) (indices : List Value) :
    Option Rejection :=
  (sourceTy.misfit? (indices.tail.map sc.beneathExtension)).map
    (·.rejection sc.func.name (sc.messageName id))

def instDefect? (sc : Scope) (id : InstId) : Option Failure :=
  match sc.body.inst? id with
  | none => none
  | some inst =>
      match inst.kind with
      | .address base sourceTy indices =>
          if sc.isTranslatedAddress id base then
            (sc.indexDefect? id sourceTy indices).map .rejected
          else none
      | .load ptr =>
          if sc.hidesLoad id inst.ty ptr then some (.faulted (.untracked (.inst id))) else none
      | _ => none

/-- What is wrong with the phis of a block that control enters from `pred`: the first one that does
not mention `pred`. -/
def phiDefect? (sc : Scope) (pred : BlockId) (predName : String) (block : Block) :
    Option Rejection :=
  ((sc.body.phis block).find? fun p => (incomingValue? p.2.kind pred).isNone).map fun p =>
    .missingIncoming sc.func.name (sc.messageName p.1) predName

def edgeDefect? (sc : Scope) (source : BlockId) (block : Block) (succ : BlockId) :
    Option Failure :=
  if succ ∈ sc.body.order then
    ((sc.body.block? succ).bind (sc.phiDefect? source block.name)).map .rejected
  else some (.rejected (.unknownBlock sc.func.name))

def blockDefect? (sc : Scope) (id : BlockId) : Option Failure :=
  match sc.body.block? id with
  | none => none
  | some block =>
      (block.insts.findSome? sc.instDefect?).or
        (block.term.successors.findSome? (sc.edgeDefect? id block))

/-- The first defect of the function. -/
def defect? (sc : Scope) : Option Failure := sc.body.order.findSome? sc.blockDefect?

/-- Every index that is multiplied refers to something that is there. -/
def StepsLive (sc : Scope) (steps : List IndexStep) : Prop :=
  ∀ index size, .scaled index size ∈ steps → sc.isLive index = true

/-- Descending fails just where the indices stop fitting. -/
theorem descend_misfit (id : InstId) (sourceTy : Ty) (indices : List Value) :
    match sc.descend id sourceTy indices with
    | .ok _ => sourceTy.misfit? (indices.map sc.beneathExtension) = none
    | .error reason => ∃ m, sourceTy.misfit? (indices.map sc.beneathExtension) = some m ∧
        reason = m.rejection sc.func.name (sc.messageName id) := by
  induction indices generalizing sourceTy with
  | nil =>
      unfold descend
      simp [Ty.misfit?]
  | cons index rest ih =>
      have mapped : ∀ (ty : Ty) (step : IndexStep),
          match (sc.descend id ty rest).map (step :: ·) with
          | .ok _ => ty.misfit? (rest.map sc.beneathExtension) = none
          | .error reason => ∃ m, ty.misfit? (rest.map sc.beneathExtension) = some m ∧
              reason = m.rejection sc.func.name (sc.messageName id) := by
        intro ty step
        have h := ih ty
        cases hd : sc.descend id ty rest with
        | ok steps => rwa [hd] at h
        | error reason => rwa [hd] at h
      rw [List.map_cons]
      cases sourceTy with
      | struct fields =>
          simp only [descend, Ty.misfit?]
          cases fieldIndex? (sc.beneathExtension index) fields.length with
          | none => exact ⟨.field, rfl, rfl⟩
          | some field => exact mapped _ _
      | array elem len =>
          simp only [descend, Ty.misfit?]
          exact mapped _ _
      | void => exact ⟨.type .void, rfl, rfl⟩
      | int bits => exact ⟨.type (.int bits), rfl, rfl⟩
      | float bits => exact ⟨.type (.float bits), rfl, rfl⟩
      | ptr => exact ⟨.type .ptr, rfl, rfl⟩
      | blackbox => exact ⟨.type .blackbox, rfl, rfl⟩

theorem stepsLive_cons_ofIndex {index : Value} {size : Nat} {steps : List IndexStep}
    (hindex : sc.isLive index = true) (hsteps : sc.StepsLive steps) :
    sc.StepsLive (.ofIndex index size :: steps) := by
  intro index' size' hmem
  rcases List.mem_cons.1 hmem with he | hmem
  · unfold IndexStep.ofIndex at he
    split at he
    next => cases he
    next =>
      cases he
      exact hindex
  · exact hsteps index' size' hmem

/-- Of the indices that are multiplied, only whether they are tracked has to be known. -/
theorem scaledCode_safe_of_answered {dst : Var} {steps : List IndexStep}
    (hsteps : ∀ index size, .scaled index size ∈ steps → Answered (sc.tracks index)) :
    Safe (sc.scaledCode dst steps) := by
  induction steps with
  | nil => exact .pure _
  | cons step rest ih =>
      have hrest := ih fun index size hmem => hsteps index size (.tail _ hmem)
      cases step with
      | offset bytes => exact hrest
      | scaled index size =>
          refine (express_settles_of_answered (hsteps index size (.head _))).safe.bind fun e => ?_
          split
          · exact .pure _
          · exact Safe.temporary.bind fun _ => hrest.bind fun _ => .pure _

theorem stepsCode_safe_of_answered {dst : Var} {base : AffineForm} {steps : List IndexStep}
    (hsteps : ∀ index size, .scaled index size ∈ steps → Answered (sc.tracks index)) :
    Safe (sc.stepsCode dst base steps) := by
  unfold stepsCode
  split
  · exact .pure _
  · split
    · exact .pure _
    · exact (scaledCode_safe_of_answered hsteps).bind fun _ => .pure _

namespace WellFormed

variable (hw : sc.WellFormed)
include hw

theorem loadCode_settles {inst : Inst} {ptr : Value} (hinst : sc.body.inst? id = some inst)
    (hptr : sc.isLive ptr = true) :
    Settles (fun _ => True)
      (if sc.hidesLoad id inst.ty ptr then some (.faulted (.untracked (.inst id))) else none)
      (sc.loadCode id inst.ty ptr) := by
  have hlive : sc.isLive (.inst id) = true := by rw [isLive, hinst]; rfl
  unfold loadCode hidesLoad
  cases hint : inst.ty.isInt && sc.modelsMemory with
  | false => exact hw.forgetResult_safe hlive
  | true =>
      simp only [if_true, Bool.true_and]
      refine (hw.express_settles hptr).after fun index hindex => ?_
      rw [← hindex]
      cases hcell : sc.cellAt? ptr with
      | none => exact hw.forgetResult_safe hlive
      | some c =>
          cases index with
          | none => exact hw.forgetResult_safe hlive
          | some index =>
              simp only [Option.isSome_some, Bool.true_and]
              have hty := typeOf_inst hw.body_eq hinst
              have htracks : sc.tracks (.inst id) = .ok !sc.isShadow (.inst id) := by
                unfold tracks
                cases hshadow : sc.isShadow (.inst id) with
                | true => rfl
                | false =>
                    obtain ⟨hint, -⟩ := Bool.and_eq_true_iff.1 hint
                    rw [hty]
                    cases hcase : inst.ty with
                    | int bits => rfl
                    | _ => simp [hcase, Ty.isInt] at hint
              cases hshadow : sc.isShadow (.inst id) with
              | false =>
                  rw [hshadow] at htracks
                  exact (variableOf_safe htracks rfl).andThen fun dst => hw.readCode_safe
              | true =>
                  rw [hshadow] at htracks
                  have hfault : Settles (fun _ : Var => True)
                      (some (.faulted (.untracked (.inst id)))) (sc.variableOf (.inst id)) :=
                    .ask htracks (.fault _)
                  exact hfault.finish fun dst _ => hw.readCode_safe

theorem descend_live {sourceTy : Ty} {indices : List Value} {steps : List IndexStep}
    (hindices : ∀ index ∈ indices, sc.isLive index = true)
    (h : sc.descend id sourceTy indices = .ok steps) : sc.StepsLive steps := by
  induction indices generalizing sourceTy steps with
  | nil =>
      unfold descend at h
      cases h
      exact fun _ _ hmem => nomatch hmem
  | cons index rest ih =>
      obtain ⟨hindex, hrest⟩ := List.forall_mem_cons.1 hindices
      have mapped : ∀ {ty step}, (∀ others, sc.StepsLive others → sc.StepsLive (step :: others)) →
          (sc.descend id ty rest).map (step :: ·) = .ok steps → sc.StepsLive steps := by
        intro ty step hstep hmap
        cases hothers : sc.descend id ty rest with
        | error reason =>
            rw [hothers] at hmap
            cases hmap
        | ok others =>
            rw [hothers] at hmap
            cases hmap
            exact hstep others (ih hrest hothers)
      cases sourceTy with
      | struct fields =>
          simp only [descend] at h
          split at h
          next => cases h
          next =>
            refine mapped (fun others hothers index' size hmem => ?_) h
            exact hothers index' size (by simpa using hmem)
      | array elem len =>
          simp only [descend] at h
          exact mapped (fun _ => stepsLive_cons_ofIndex (hw.beneathExtension_live hindex)) h
      | _ => cases h

theorem indexSteps_settles {sourceTy : Ty} {indices : List Value}
    (hindices : ∀ index ∈ indices, sc.isLive index = true) :
    Settles sc.StepsLive ((sc.indexDefect? id sourceTy indices).map .rejected)
      (sc.indexSteps id sourceTy indices) := by
  unfold indexSteps indexDefect?
  cases indices with
  | nil => exact .pure fun _ _ hmem => nomatch hmem
  | cons first rest =>
      obtain ⟨hfirst, hrest⟩ := List.forall_mem_cons.1 hindices
      simp only [DataLayout.measurable_of_pos hw.pointers_wide, if_true, List.tail_cons]
      have hmisfit := sc.descend_misfit id sourceTy rest
      cases hsteps : sc.descend id sourceTy rest with
      | error reason =>
          rw [hsteps] at hmisfit
          obtain ⟨m, hm, rfl⟩ := hmisfit
          rw [hm]
          exact .reject _
      | ok steps =>
          rw [hsteps] at hmisfit
          rw [hmisfit]
          exact .pure (stepsLive_cons_ofIndex (hw.beneathExtension_live hfirst)
            (hw.descend_live hrest hsteps))

theorem stepsCode_safe {dst : Var} {base : AffineForm} {steps : List IndexStep}
    (hsteps : sc.StepsLive steps) : Safe (sc.stepsCode dst base steps) :=
  stepsCode_safe_of_answered fun index size hmem => hw.tracks_answered (hsteps index size hmem)

theorem addressCode_settles {base : Value} {sourceTy : Ty} {indices : List Value}
    (hid : sc.isLive (.inst id) = true) (hbase : sc.isLive base = true)
    (hindices : ∀ index ∈ indices, sc.isLive index = true) :
    Settles (fun _ => True)
      (if sc.isTranslatedAddress id base then (sc.indexDefect? id sourceTy indices).map .rejected
        else none)
      (sc.addressCode id base sourceTy indices) := by
  obtain ⟨tracked, htracked⟩ := hw.tracks_answered hid
  obtain ⟨wanted, hwanted⟩ := hw.isAddressWanted_answered id
  unfold isTranslatedAddress
  rw [isYes_of_eq htracked, isYes_of_eq hwanted]
  refine .ask htracked ?_
  cases tracked with
  | false => exact .pure trivial
  | true =>
      refine (variableOf_safe htracked rfl).andThen fun dst => .ask hwanted ?_
      cases wanted with
      | false => exact .pure trivial
      | true =>
          refine (hw.express_settles hbase).after fun ptr hptr => ?_
          rw [← hptr]
          cases ptr with
          | none => exact .pure trivial
          | some ptr =>
              exact (hw.indexSteps_settles hindices).finish fun steps hsteps =>
                hw.stepsCode_safe hsteps

/-- An instruction is lowered just if it has no defect. -/
theorem instCode_settles (hid : sc.LaidOut id) :
    Settles (fun _ => True) (sc.instDefect? id) (sc.instCode id) := by
  obtain ⟨inst, hinst, hconditions⟩ := hw.inst_live hid
  have hlive : sc.isLive (.inst id) = true := by rw [isLive, hinst]; rfl
  have hoperands : ∀ v ∈ inst.kind.operands, sc.isLive v = true :=
    fun v => hw.live_of_operand hinst
  unfold instDefect? instCode
  rw [hinst]
  dsimp only
  cases hkind : inst.kind with
  | phi incoming => exact .pure trivial
  | compare pred a b => exact .pure trivial
  | binary op a b =>
      rw [hkind] at hoperands
      obtain ⟨ha, hb⟩ : sc.isLive a = true ∧ sc.isLive b = true := by
        simpa [InstKind.operands] using hoperands
      exact hw.binaryCode_safe hlive ha hb
  | cast op value =>
      rw [hkind] at hoperands
      exact hw.castCode_safe hlive (hoperands value (.head _))
  | address base sourceTy indices =>
      rw [hkind] at hoperands
      obtain ⟨hbase, hindices⟩ := List.forall_mem_cons.1 hoperands
      exact hw.addressCode_settles hlive hbase hindices
  | load ptr =>
      rw [hkind] at hoperands
      exact hw.loadCode_settles hinst (hoperands ptr (.head _))
  | store value ptr =>
      rw [hkind] at hoperands
      exact hw.storeCode_safe (hoperands value (.head _)) (hoperands ptr (.tail _ (.head _)))
  | alloca ty => exact allocaCode_safe id
  | select cond onTrue onFalse =>
      rw [hkind] at hoperands hconditions
      obtain ⟨-, ha, hb⟩ : sc.isLive cond = true ∧ sc.isLive onTrue = true ∧
          sc.isLive onFalse = true := by
        simpa [InstKind.operands] using hoperands
      exact hw.selectCode_safe hlive ha hb (hconditions cond (.head _))
  | call callee args => exact hw.callCode_safe hinst hconditions hkind
  | other operands => exact hw.forgetResult_safe hlive

theorem instsCode_settles {ids : List InstId} (hids : ∀ id ∈ ids, sc.LaidOut id) :
    Settles (fun _ => True) (ids.findSome? sc.instDefect?) (sc.instsCode ids) := by
  induction ids with
  | nil => exact .pure trivial
  | cons id rest ih =>
      obtain ⟨hid, hrest⟩ := List.forall_mem_cons.1 hids
      rw [findSome?_cons_or]
      exact (hw.instCode_settles hid).bind fun _ _ => (ih hrest).finish fun _ _ => .pure trivial

end WellFormed

end Scope

end AffineFlow
