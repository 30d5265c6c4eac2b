import AffineFlow.Proofs.Acceptance.Instructions

/-!
# Calls and returns always pass

Every value that is passed is either put into a temporary or tracked, so calls,
returns and the prologue are lowered from every session.
-/
namespace AffineFlow

open Ssa Lowering

namespace Scope

variable {sc : Scope} {v : Value} {id : InstId}

theorem cellVariables_safe (cells : List Cell) : Safe (cellVariables cells) := by
  induction cells with
  | nil => exact .pure _
  | cons c rest ih => exact (cellVariable_safe c).bind fun _ => ih.bind fun _ => .pure _

theorem functionVariable_safe (id : FuncId) : Safe (sc.functionVariable id) := .request _ _

theorem forgetCells_safe (cells : List Cell) : Safe (forgetCells cells) := by
  induction cells with
  | nil => exact .pure _
  | cons c rest ih => exact (cellVariable_safe c).bind fun _ => ih.bind fun _ => .pure _

theorem passCopies_safe (cells : List Cell) : Safe (passCopies cells) := by
  induction cells with
  | nil => exact .pure _
  | cons c rest ih =>
      exact (cellVariable_safe c).bind fun _ => Safe.temporary.bind fun _ =>
        ih.bind fun _ => .pure _

theorem passCells_safe (effects : Effects) : Safe (passCells effects) :=
  (passCopies_safe _).bind fun _ => (cellVariables_safe _).bind fun _ => .pure _

theorem memoryCopyCode_safe (args : List Value) : Safe (sc.memoryCopyCode args) := by
  unfold memoryCopyCode
  split
  · split
    · exact (cellVariable_safe _).bind fun _ => (cellVariable_safe _).bind fun _ => .pure _
    · exact .pure _
  · exact .pure _

theorem tracks_of_isPassed (h : sc.isPassed v = .ok true) : sc.tracks v = .ok true :=
  (yes_of_both h).1

namespace WellFormed

variable (hw : sc.WellFormed)
include hw

theorem passed_safe (hv : sc.isLive v = true) (hpassed : sc.isPassed v = .ok true) :
    Safe (sc.passed v) := by
  unfold passed
  split
  next =>
    refine Safe.temporary.bind fun tmp => ?_
    split
    · refine (hw.express_safe hv).bind fun e => ?_
      split
      · exact .pure _
      · exact .pure _
    · exact .pure _
  next hliteral =>
    obtain ⟨ty, hty⟩ := hw.typeOf_answered hv
    have htracked := tracks_of_isPassed hpassed
    exact .ask hty ((variableOf_safe htracked (Bool.eq_false_iff.2 hliteral)).bind fun _ => .pure _)

theorem passScalars_safe {args : List Value} (hargs : ∀ arg ∈ args, sc.isLive arg = true) :
    Safe (sc.passScalars args) := by
  induction args with
  | nil => exact .pure _
  | cons arg rest ih =>
      obtain ⟨harg, hrest⟩ := List.forall_mem_cons.1 hargs
      obtain ⟨passed, hpassed⟩ := hw.isPassed_answered harg
      refine .ask hpassed ?_
      cases passed with
      | true =>
          exact (hw.passed_safe harg hpassed).bind fun _ => (ih hrest).bind fun _ => .pure _
      | false => exact ih hrest

theorem receiver?_safe {ty : Ty} (hid : sc.isLive (.inst id) = true) :
    Safe (sc.receiver? id ty) := by
  obtain ⟨received, hreceived⟩ := hw.isReceived_answered ty hid
  refine .ask hreceived ?_
  cases received with
  | true =>
      have htracked : sc.tracks (.inst id) = .ok true := by
        unfold isReceived at hreceived
        split at hreceived
        · cases hreceived
        · exact (yes_of_both hreceived).1
      exact (variableOf_safe htracked rfl).bind fun _ => .pure _
  | false => exact .pure _

theorem callSiteCode_safe {ty : Ty} {calleeId : FuncId} {args : List Value}
    (hid : sc.isLive (.inst id) = true) (hargs : ∀ arg ∈ args, sc.isLive arg = true) :
    Safe (sc.callSiteCode id ty calleeId args) := by
  refine (hw.passScalars_safe hargs).bind fun scalars => ?_
  refine .ite_bind (passCells_safe _) (.pure _) fun cells => ?_
  exact (hw.receiver?_safe hid).bind fun _ => (functionVariable_safe _).bind fun _ => .pure _

theorem unmodelledCallCode_safe (hid : sc.isLive (.inst id) = true) :
    Safe (sc.unmodelledCallCode id) := by
  refine (hw.forgetResult_safe hid).bind fun result => ?_
  exact .ite_bind (forgetCells_safe _) (.pure _) fun _ => .pure _

theorem memorySetCode_safe {args : List Value} (hargs : ∀ arg ∈ args, sc.isLive arg = true) :
    Safe (sc.memorySetCode args) := by
  unfold memorySetCode
  split
  next ptr value rest =>
    split
    · exact .pure _
    · refine (hw.express_safe (hargs value (.tail _ (.head _)))).bind fun e => ?_
      split
      · exact .pure _
      · exact (cellVariable_safe _).bind fun _ => .pure _
  next => exact .pure _

theorem assumptionCode_safe {args : List Value} {negated : Bool}
    (hargs : ∀ arg ∈ args, sc.isLive arg = true)
    (hinteger : ∀ cond rest, args = cond :: rest →
      sc.isInteger (sc.beneathZeroExtension cond) = true) :
    Safe (sc.assumptionCode negated args) := by
  cases args with
  | nil => exact .pure _
  | cons cond rest =>
      have hlive := hw.beneathZeroExtension_live (hargs cond (.head _))
      exact hw.assumptions_safe hlive (hinteger cond rest rfl)

theorem callCode_safe {inst : Inst} {callee : Callee} {args : List Value}
    (hinst : sc.body.inst? id = some inst)
    (hconditions : ∀ cond ∈ sc.conditions inst.kind, sc.isInteger cond = true)
    (hkind : inst.kind = .call callee args) : Safe (sc.callCode id inst.ty callee args) := by
  have hlive : sc.isLive (.inst id) = true := by rw [isLive, hinst]; rfl
  have hoperands : ∀ v ∈ inst.kind.operands, sc.isLive v = true :=
    fun v => hw.live_of_operand hinst
  rw [hkind] at hoperands hconditions
  unfold callCode
  split
  next => exact hw.forgetResult_safe hlive
  next calleeId =>
    split
    next => exact hw.forgetResult_safe hlive
    next callee hcallee =>
      have hargs : ∀ arg ∈ args, sc.isLive arg = true := hoperands
      unfold directCallCode
      cases hmeaning : sc.meaning callee with
      | bookkeeping => exact .pure _
      | allocation => exact zeroedCode_safe _
      | memorySet => exact hw.memorySetCode_safe hargs
      | memoryCopy => exact memoryCopyCode_safe args
      | unmodelledIntrinsic => exact .pure _
      | assumption negated =>
          refine hw.assumptionCode_safe hargs fun cond rest he => ?_
          subst he
          refine hconditions _ ?_
          simp only [conditions, hcallee, Option.map_some, hmeaning]
          exact .head _
      | «variadic» =>
          dsimp only
          split
          · exact (Safe.tell _).bind fun _ => hw.unmodelledCallCode_safe hlive
          · exact hw.unmodelledCallCode_safe hlive
      | ordinary =>
          dsimp only
          split
          · exact hw.callSiteCode_safe hlive hargs
          · exact hw.unmodelledCallCode_safe hlive

theorem returnCode_safe (hv : sc.isLive v = true) : Safe (sc.returnCode v) := by
  obtain ⟨returned, hreturned⟩ := hw.isReturned_answered hv
  refine .onlyIf hreturned fun h => ?_
  subst h
  have hpassed : sc.isPassed v = .ok true := by
    unfold isReturned at hreturned
    split at hreturned
    · exact hreturned
    · cases hreturned
  exact (hw.passed_safe hv hpassed).bind fun _ => .pure _

end WellFormed

section Prologue

theorem receiveCopies_safe (cells : List Cell) : Safe (receiveCopies cells) := by
  induction cells with
  | nil => exact .pure _
  | cons c rest ih =>
      exact (cellVariable_safe c).bind fun _ => Safe.temporary.bind fun _ =>
        ih.bind fun _ => .pure _

theorem receiveCells_safe (effects : Effects) : Safe (receiveCells effects) :=
  (receiveCopies_safe _).bind fun _ => (cellVariables_safe _).bind fun _ => .pure _

theorem newCellsCode_safe (cells : List Cell) : Safe (newCellsCode cells) := by
  induction cells with
  | nil => exact .pure _
  | cons c rest ih => exact (cellVariable_safe c).bind fun _ => ih.bind fun _ => .pure _

theorem contentsCode_safe (program : Module) (c : Cell) (init : Initializer) :
    Safe (contentsCode program c init) := by
  unfold contentsCode
  split
  · exact (cellVariable_safe c).bind fun _ => .pure _
  · split
    · exact (cellVariable_safe c).bind fun _ => .pure _
    · exact .pure _
  · exact .pure _

theorem globalsCode_safe (ids : List GlobalId) : Safe (sc.globalsCode ids) := by
  induction ids with
  | nil => exact .pure _
  | cons id rest ih =>
      unfold globalsCode
      split
      · exact (contentsCode_safe _ _ _).bind fun _ => ih.bind fun _ => .pure _
      · exact ih

theorem memoryCode_safe : Safe sc.memoryCode := by
  refine (newCellsCode_safe _).bind fun zeroed => ?_
  exact .ite_bind (globalsCode_safe _) (.pure _) fun _ => .pure _

variable (hw : sc.WellFormed)
include hw

theorem WellFormed.scalarParams_safe (index : Nat) (params : List Param) :
    Safe (sc.scalarParams index params) := by
  induction params generalizing index with
  | nil => exact .pure _
  | cons param rest ih =>
      obtain ⟨tracked, htracked⟩ := hw.tracks_answered (v := .arg index) rfl
      have hreceived : sc.isParamReceived index param.ty =
          .ok (tracked && (!sc.settings.integersOnly || param.ty.isInt)) := by
        rw [isParamReceived, htracked]
        rfl
      refine .ask hreceived ?_
      split
      next h =>
        obtain ⟨rfl, -⟩ := Bool.and_eq_true_iff.1 h
        exact (variableOf_safe htracked rfl).bind fun _ => (ih _).bind fun _ => .pure _
      next => exact ih _

theorem WellFormed.signature_safe : Safe sc.signature := by
  refine (hw.scalarParams_safe 0 _).bind fun scalars => ?_
  refine .ite_bind (receiveCells_safe _) (.pure _) fun received => ?_
  exact (functionVariable_safe _).bind fun _ => .pure _

theorem WellFormed.prologue_safe : Safe sc.prologue := by
  unfold prologue
  dsimp only
  split
  · exact hw.signature_safe.bind fun _ => (Safe.pure _).bind fun received =>
      .ite_bind memoryCode_safe (.pure _) fun _ => .pure _
  · exact (Safe.pure _).bind fun received =>
      .ite_bind memoryCode_safe (.pure _) fun _ => .pure _

end Prologue

end Scope

end AffineFlow
