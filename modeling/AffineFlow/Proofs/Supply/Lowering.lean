import AffineFlow.Lowering.Code
import AffineFlow.Lowering.Prologue
import AffineFlow.Proofs.Supply.Extension

/-!
# Lowering only mints

Every part of lowering is built from steps that make the supply grow, so the
supply grows over any stretch of it. There is one fact for each function, in the
order in which they call each other.
-/
namespace AffineFlow

open Ssa Lowering

namespace Scope

variable (sc : Scope)

theorem variableOf_grows (v : Value) : Grows (sc.variableOf v) := by
  unfold variableOf
  apply (Grows.ofExcept _).bind
  intro tracked
  split
  · split
    · exact .request _ _
    · exact .fault _
  · exact .fault _

theorem functionVariable_grows (id : FuncId) : Grows (sc.functionVariable id) := .request _ _

theorem express_grows (v : Value) : Grows (sc.express v) := by
  unfold express
  split
  · split
    · exact .pure _
    · exact .pure _
  · exact .pure _
  · exact .pure _
  · apply (Grows.ofExcept _).bind
    intro tracked
    split
    · exact (sc.variableOf_grows v).bind fun x => .pure _
    · exact .pure _

theorem forgetResult_grows (id : InstId) : Grows (sc.forgetResult id) :=
  .onlyIf ((sc.variableOf_grows _).bind fun _ => .pure _)

theorem objectVariable?_grows (c : Cell) : Grows (sc.objectVariable? c) := by
  unfold objectVariable?
  split
  · exact .pure _
  · split
    · exact .pure _
    · apply (Grows.ofExcept _).bind
      intro tracked
      split
      · exact (sc.variableOf_grows _).bind fun x => .pure _
      · exact .pure _

theorem cellVariables_grows (cells : List Cell) : Grows (cellVariables cells) := by
  induction cells with
  | nil => exact .pure _
  | cons c rest ih => exact (cellVariable_grows c).bind fun x => ih.bind fun l => .pure _

section Instructions

theorem arithCode_grows (source : BinaryOp) (op : ArithOp) (dst : Var) (a b : AffineForm) :
    Grows (sc.arithCode source op dst a b) := by
  unfold arithCode
  split
  · exact (Grows.tell _).bind fun u => .pure _
  · split
    · exact .pure _
    · exact .pure _

theorem shiftCode_grows (source : BinaryOp) (op : ArithOp) (dst : Var) (a b : AffineForm) :
    Grows (sc.shiftCode source op dst a b) := by
  unfold shiftCode
  split
  · exact .pure _
  · split
    · exact .pure _
    · exact (Grows.tell _).bind fun u => .pure _

theorem ruleCode_grows (source : BinaryOp) (dst : Var) (a b : AffineForm) :
    Grows (sc.ruleCode source dst a b) := by
  unfold ruleCode
  split
  · exact sc.arithCode_grows _ _ _ _ _
  · exact sc.shiftCode_grows _ _ _ _ _
  · exact .pure _
  · exact .pure _

theorem binaryCode_grows (id : InstId) (op : BinaryOp) (a b : Value) :
    Grows (sc.binaryCode id op a b) := by
  refine .onlyIf ((sc.variableOf_grows _).bind fun dst => ?_)
  split
  · exact .pure _
  · refine (sc.express_grows a).bind fun x => (sc.express_grows b).bind fun y => ?_
    split
    · exact sc.ruleCode_grows _ _ _ _
    · exact .pure _

theorem comparisonConstraints_grows (pred : Predicate) (a b : Value) (negated : Bool) :
    Grows (sc.comparisonConstraints pred a b negated) := by
  unfold comparisonConstraints
  refine (sc.express_grows _).bind fun x => (sc.express_grows _).bind fun y => ?_
  split
  · exact .pure _
  · exact .pure _

theorem pinTracked_grows (cond : Value) (negated : Bool) : Grows (sc.pinTracked cond negated) :=
  .onlyIf ((sc.variableOf_grows _).bind fun _ => .pure _)

theorem comparisonAssumptions_grows (cond : Value) (pred : Predicate) (a b : Value)
    (negated : Bool) : Grows (sc.comparisonAssumptions cond pred a b negated) := by
  refine .onlyIf ((sc.comparisonConstraints_grows _ _ _ _).bind fun constraints => ?_)
  split
  · exact (sc.pinTracked_grows _ _).bind fun pinned => .pure _
  · exact (Grows.pure _).bind fun pinned => .pure _

theorem bothAssumptions_grows (a b : Value) (negated : Bool) :
    Grows (sc.bothAssumptions a b negated) := by
  refine (Grows.ofExcept _).bind fun first => (Grows.ofExcept _).bind fun second => ?_
  split
  · exact (sc.comparisonConstraints_grows _ _ _ _).bind fun left =>
      (sc.comparisonConstraints_grows _ _ _ _).bind fun right => .pure _
  · exact .pure _

theorem connectiveAssumptions_grows (cond : Value) (op : BinaryOp) (a b : Value)
    (negated : Bool) : Grows (sc.connectiveAssumptions cond op a b negated) := by
  unfold connectiveAssumptions
  split
  · exact sc.bothAssumptions_grows _ _ _
  · exact sc.bothAssumptions_grows _ _ _
  · exact .pure _
  · exact .pure _
  · split
    · exact .onlyIf ((sc.variableOf_grows _).bind fun x => .pure _)
    · exact .pure _

theorem assumptions_grows (cond : Value) (negated : Bool) :
    Grows (sc.assumptions cond negated) := by
  unfold assumptions
  split
  · exact .pure _
  · split
    · exact sc.comparisonAssumptions_grows _ _ _ _ _
    · exact sc.connectiveAssumptions_grows _ _ _ _ _
    · exact sc.pinTracked_grows _ _

theorem convertCode_grows (dst : Var) (value : Value) : Grows (sc.convertCode dst value) := by
  apply (sc.express_grows value).bind
  intro src
  split
  · exact .pure _
  · apply (Grows.ofExcept _).bind
    intro ty
    split
    · exact .pure _
    · exact .pure _

theorem castCode_grows (id : InstId) (ty : Ty) (op : CastOp) (value : Value) :
    Grows (sc.castCode id ty op value) := by
  unfold castCode
  split
  · exact .pure _
  · exact .onlyIf ((sc.variableOf_grows _).bind fun dst => sc.convertCode_grows _ _)

theorem guardConstraint?_grows (cond : Value) : Grows (sc.guardConstraint? cond) := by
  unfold guardConstraint?
  split
  · apply (sc.comparisonConstraints_grows _ _ _ _).bind
    intro constraints
    split
    · exact .pure _
    · exact .pure _
  · exact .pure _

theorem chooseCode_grows (dst : Var) (cond : Value) (onTrue onFalse : AffineForm) :
    Grows (sc.chooseCode dst cond onTrue onFalse) := by
  unfold chooseCode
  split
  · exact .pure _
  · refine (sc.guardConstraint?_grows cond).bind fun guard => ?_
    split
    · exact .pure _
    · apply (Grows.ofExcept _).bind
      intro tracked
      split
      · exact (sc.variableOf_grows _).bind fun x => .pure _
      · exact .pure _

theorem selectCode_grows (id : InstId) (cond onTrue onFalse : Value) :
    Grows (sc.selectCode id cond onTrue onFalse) := by
  refine .onlyIf ((sc.variableOf_grows _).bind fun dst => (sc.express_grows _).bind fun x =>
    (sc.express_grows _).bind fun y => ?_)
  split
  · exact sc.chooseCode_grows _ _ _ _
  · exact .pure _

end Instructions

section Phis

theorem savePhis_grows (block : BlockId) (saved : SavedPhis) (phis : List IncomingPhi) :
    Grows (sc.savePhis block saved phis) := by
  induction phis generalizing saved with
  | nil => exact .pure _
  | cons p rest ih =>
      apply (Grows.ofExcept _).bind
      intro needed
      split
      · apply (sc.express_grows _).bind
        intro e
        split
        · exact ih saved
        · exact Grows.temporary.bind fun old => (ih _).bind fun r => .pure _
      · exact ih saved

theorem expressBefore_grows (saved : SavedPhis) (v : Value) : Grows (sc.expressBefore saved v) := by
  unfold expressBefore
  split
  · exact .pure _
  · exact sc.express_grows v

theorem assignPhis_grows (saved : SavedPhis) (phis : List IncomingPhi) :
    Grows (sc.assignPhis saved phis) := by
  induction phis with
  | nil => exact .pure _
  | cons p rest ih =>
      apply (Grows.ofExcept _).bind
      intro tracked
      split
      · refine (sc.variableOf_grows _).bind fun lhs => (sc.expressBefore_grows _ _).bind fun e => ?_
        split
        · exact ih.bind fun l => .pure _
        · exact ih.bind fun l => .pure _
      · exact ih

theorem phiCode_grows (target : BlockId) (targetBlock : Block) (pred : BlockId)
    (predName : String) : Grows (sc.phiCode target targetBlock pred predName) := by
  unfold phiCode
  split
  · exact .reject _
  · exact .pure _
  · exact (Grows.tell _).bind fun u => (sc.savePhis_grows _ _ _).bind fun r =>
      (sc.assignPhis_grows _ _).bind fun l => .pure _

end Phis

section Memory

theorem readCode_grows (dst : Var) (cell : Cell) (index : AffineForm) (elemSize : Nat) :
    Grows (sc.readCode dst cell index elemSize) := by
  refine (sc.objectVariable?_grows cell).bind fun object => ?_
  split
  · exact .pure _
  · exact (cellVariable_grows cell).bind fun array => .pure _

theorem writeCode_grows (cell : Cell) (index value : AffineForm) (elemSize : Nat) :
    Grows (sc.writeCode cell index value elemSize) := by
  refine (sc.objectVariable?_grows cell).bind fun object => ?_
  split
  · exact .pure _
  · exact (cellVariable_grows cell).bind fun array => .pure _

theorem loadCode_grows (id : InstId) (ty : Ty) (ptr : Value) : Grows (sc.loadCode id ty ptr) := by
  unfold loadCode
  split
  · apply (sc.express_grows ptr).bind
    intro index
    split
    · exact (sc.variableOf_grows _).bind fun dst => sc.readCode_grows _ _ _ _
    · exact sc.forgetResult_grows id
  · exact sc.forgetResult_grows id

theorem storeCode_grows (value ptr : Value) : Grows (sc.storeCode value ptr) := by
  apply (Grows.ofExcept _).bind
  intro ty
  split
  · split
    · exact .pure _
    · refine (sc.express_grows ptr).bind fun index => (sc.express_grows value).bind fun stored => ?_
      split
      · exact sc.writeCode_grows _ _ _ _
      · exact .pure _
  · exact .pure _

theorem zeroedCode_grows (cell? : Option Cell) : Grows (zeroedCode cell?) := by
  unfold zeroedCode
  split
  · exact (cellVariable_grows _).bind fun array => .pure _
  · exact .pure _

theorem allocaCode_grows (id : InstId) : Grows (sc.allocaCode id) := by
  unfold allocaCode
  split
  · exact zeroedCode_grows _
  · exact .pure _

theorem scaledCode_grows (dst : Var) (steps : List IndexStep) :
    Grows (sc.scaledCode dst steps) := by
  induction steps with
  | nil => exact .pure _
  | cons step rest ih =>
      cases step with
      | offset _ => exact ih
      | scaled index size =>
          apply (sc.express_grows index).bind
          intro e
          split
          · exact .pure _
          · exact Grows.temporary.bind fun scaled => ih.bind fun r => .pure _

theorem stepsCode_grows (dst : Var) (base : AffineForm) (steps : List IndexStep) :
    Grows (sc.stepsCode dst base steps) := by
  unfold stepsCode
  split
  · exact .pure _
  · split
    · exact .pure _
    · exact (sc.scaledCode_grows dst steps).bind fun r => .pure _

theorem indexSteps_grows (id : InstId) (sourceTy : Ty) (indices : List Value) :
    Grows (sc.indexSteps id sourceTy indices) := by
  unfold indexSteps
  split
  · exact .pure _
  · split
    · split
      · exact .reject _
      · exact .pure _
    · exact .fault _

theorem addressCode_grows (id : InstId) (base : Value) (sourceTy : Ty) (indices : List Value) :
    Grows (sc.addressCode id base sourceTy indices) := by
  refine .onlyIf ((sc.variableOf_grows _).bind fun dst => (Grows.ofExcept _).bind fun wanted => ?_)
  split
  · apply (sc.express_grows base).bind
    intro ptr
    split
    · exact .pure _
    · exact (sc.indexSteps_grows _ _ _).bind fun steps => sc.stepsCode_grows _ _ _
  · exact .pure _

end Memory

section Calls

theorem literalTemporary_grows (v : Value) : Grows (sc.literalTemporary v) := by
  apply Grows.temporary.bind
  intro tmp
  split
  · apply (sc.express_grows v).bind
    intro e
    split
    · exact .pure _
    · exact .pure _
  · exact .pure _

theorem passed_grows (v : Value) : Grows (sc.passed v) := by
  unfold passed
  split
  · exact sc.literalTemporary_grows v
  · exact (Grows.ofExcept _).bind fun ty => (sc.variableOf_grows v).bind fun x => .pure _

theorem passScalars_grows (args : List Value) : Grows (sc.passScalars args) := by
  induction args with
  | nil => exact .pure _
  | cons arg rest ih =>
      apply (Grows.ofExcept _).bind
      intro isPassed
      split
      · exact (sc.passed_grows arg).bind fun p => ih.bind fun r => .pure _
      · exact ih

theorem passCopies_grows (cells : List Cell) : Grows (passCopies cells) := by
  induction cells with
  | nil => exact .pure _
  | cons c rest ih =>
      exact (cellVariable_grows c).bind fun array => Grows.temporary.bind fun copy =>
        ih.bind fun r => .pure _

theorem passCells_grows (effects : Effects) : Grows (passCells effects) :=
  (passCopies_grows _).bind fun _ => (cellVariables_grows _).bind fun _ => .pure _

theorem receiver?_grows (id : InstId) (ty : Ty) : Grows (sc.receiver? id ty) := by
  apply (Grows.ofExcept _).bind
  intro received
  split
  · exact (sc.variableOf_grows _).bind fun x => .pure _
  · exact .pure _

theorem callSiteCode_grows (id : InstId) (ty : Ty) (callee : FuncId) (args : List Value) :
    Grows (sc.callSiteCode id ty callee args) := by
  apply (sc.passScalars_grows args).bind
  intro scalars
  dsimp only
  split
  · exact (passCells_grows _).bind fun cells => (sc.receiver?_grows id ty).bind fun ret =>
      (sc.functionVariable_grows callee).bind fun func => .pure _
  · exact (Grows.pure _).bind fun cells => (sc.receiver?_grows id ty).bind fun ret =>
      (sc.functionVariable_grows callee).bind fun func => .pure _

theorem forgetCells_grows (cells : List Cell) : Grows (forgetCells cells) := by
  induction cells with
  | nil => exact .pure _
  | cons c rest ih => exact (cellVariable_grows c).bind fun array => ih.bind fun l => .pure _

theorem unmodelledCallCode_grows (id : InstId) : Grows (sc.unmodelledCallCode id) := by
  apply (sc.forgetResult_grows id).bind
  intro result
  split
  · exact (forgetCells_grows _).bind fun modified => .pure _
  · exact (Grows.pure _).bind fun modified => .pure _

theorem memorySetCode_grows (args : List Value) : Grows (sc.memorySetCode args) := by
  unfold memorySetCode
  split
  · split
    · exact .pure _
    · apply (sc.express_grows _).bind
      intro e
      split
      · exact .pure _
      · exact (cellVariable_grows _).bind fun array => .pure _
  · exact .pure _

theorem memoryCopyCode_grows (args : List Value) : Grows (sc.memoryCopyCode args) := by
  unfold memoryCopyCode
  split
  · split
    · exact (cellVariable_grows _).bind fun dst => (cellVariable_grows _).bind fun src => .pure _
    · exact .pure _
  · exact .pure _

theorem assumptionCode_grows (negated : Bool) (args : List Value) :
    Grows (sc.assumptionCode negated args) := by
  unfold assumptionCode
  split
  · exact sc.assumptions_grows _ _
  · exact .pure _

theorem directCallCode_grows (id : InstId) (ty : Ty) (calleeId : FuncId) (callee : Function)
    (args : List Value) : Grows (sc.directCallCode id ty calleeId callee args) := by
  unfold directCallCode
  cases sc.meaning callee with
  | bookkeeping => exact .pure _
  | allocation => exact zeroedCode_grows _
  | memorySet => exact sc.memorySetCode_grows args
  | memoryCopy => exact sc.memoryCopyCode_grows args
  | unmodelledIntrinsic => exact .pure _
  | assumption negated => exact sc.assumptionCode_grows negated args
  | «variadic» =>
      dsimp only
      split
      · exact (Grows.tell _).bind fun u => sc.unmodelledCallCode_grows id
      · exact sc.unmodelledCallCode_grows id
  | ordinary =>
      dsimp only
      split
      · exact sc.callSiteCode_grows id ty calleeId args
      · exact sc.unmodelledCallCode_grows id

theorem callCode_grows (id : InstId) (ty : Ty) (callee : Callee) (args : List Value) :
    Grows (sc.callCode id ty callee args) := by
  unfold callCode
  split
  · exact sc.forgetResult_grows id
  · split
    · exact sc.forgetResult_grows id
    · exact sc.directCallCode_grows _ _ _ _ _

end Calls

section Blocks

theorem instCode_grows (id : InstId) : Grows (sc.instCode id) := by
  unfold instCode
  split
  · exact .fault _
  · split
    · exact .pure _
    · exact .pure _
    · exact sc.binaryCode_grows _ _ _ _
    · exact sc.castCode_grows _ _ _ _
    · exact sc.addressCode_grows _ _ _ _
    · exact sc.loadCode_grows _ _ _
    · exact sc.storeCode_grows _ _
    · exact sc.allocaCode_grows _
    · exact sc.selectCode_grows _ _ _ _
    · exact sc.callCode_grows _ _ _ _
    · exact sc.forgetResult_grows _

theorem instsCode_grows (ids : List InstId) : Grows (sc.instsCode ids) := by
  induction ids with
  | nil => exact .pure _
  | cons id rest ih => exact (sc.instCode_grows id).bind fun stmts => ih.bind fun l => .pure _

theorem returnCode_grows (value : Value) : Grows (sc.returnCode value) :=
  .onlyIf ((sc.passed_grows value).bind fun _ => .pure _)

theorem edgeCondition_grows (term : Terminator) (index : Nat) :
    Grows (sc.edgeCondition term index) := by
  unfold edgeCondition
  split
  · exact sc.assumptions_grows _ _
  · apply (sc.express_grows _).bind
    intro e
    split
    · exact .pure _
    · split
      · exact .pure _
      · exact .pure _
  · exact .pure _

theorem target_grows (id : BlockId) : Grows (sc.target id) := by
  unfold target
  split
  · split
    · exact .pure _
    · exact .fault _
  · exact .reject _

theorem edgeCode_grows (source : BlockId) (block : Block) (index : Nat) (succ : BlockId) :
    Grows (sc.edgeCode source block index succ) :=
  (sc.target_grows succ).bind fun _ => (Grows.tell _).bind fun _ =>
    (sc.edgeCondition_grows _ _).bind fun _ => (sc.phiCode_grows _ _ _ _).bind fun _ => .pure _

theorem edgesCode_grows (source : BlockId) (block : Block) (index : Nat) (succs : List BlockId) :
    Grows (sc.edgesCode source block index succs) := by
  induction succs generalizing index with
  | nil => exact .pure _
  | cons succ rest ih =>
      exact (sc.edgeCode_grows _ _ _ _).bind fun edge => (ih _).bind fun edges => .pure _

theorem leavingCode_grows (id : BlockId) (block : Block) : Grows (sc.leavingCode id block) := by
  unfold leavingCode
  split
  · exact .pure _
  · exact (sc.returnCode_grows _).bind fun stmts => .pure _
  · exact .pure _
  · exact (sc.target_grows _).bind fun b => (sc.phiCode_grows _ _ _ _).bind fun stmts => .pure _
  · exact (sc.edgesCode_grows _ _ _ _).bind fun edges => .pure _
  · exact (sc.edgesCode_grows _ _ _ _).bind fun edges => .pure _

theorem blockCode_grows (id : BlockId) : Grows (sc.blockCode id) :=
  (sc.target_grows id).bind fun _ => (Grows.tell _).bind fun _ =>
    (sc.instsCode_grows _).bind fun _ => (sc.leavingCode_grows _ _).bind fun _ => .pure _

theorem blocksCode_grows (ids : List BlockId) : Grows (sc.blocksCode ids) := by
  induction ids with
  | nil => exact .pure _
  | cons id rest ih => exact (sc.blockCode_grows id).bind fun code => ih.bind fun l => .pure _

end Blocks

section Prologue

theorem contentsCode_grows (program : Module) (cell : Cell) (init : Initializer) :
    Grows (contentsCode program cell init) := by
  unfold contentsCode
  split
  · exact (cellVariable_grows cell).bind fun array => .pure _
  · split
    · exact (cellVariable_grows cell).bind fun array => .pure _
    · exact .pure _
  · exact .pure _

theorem receiveCopies_grows (cells : List Cell) : Grows (receiveCopies cells) := by
  induction cells with
  | nil => exact .pure _
  | cons c rest ih =>
      exact (cellVariable_grows c).bind fun array => Grows.temporary.bind fun copy =>
        ih.bind fun r => .pure _

theorem receiveCells_grows (effects : Effects) : Grows (receiveCells effects) :=
  (receiveCopies_grows _).bind fun _ => (cellVariables_grows _).bind fun _ => .pure _

theorem newCellsCode_grows (cells : List Cell) : Grows (newCellsCode cells) := by
  induction cells with
  | nil => exact .pure _
  | cons c rest ih => exact (cellVariable_grows c).bind fun array => ih.bind fun l => .pure _

theorem scalarParams_grows (index : Nat) (params : List Param) :
    Grows (sc.scalarParams index params) := by
  induction params generalizing index with
  | nil => exact .pure _
  | cons param rest ih =>
      apply (Grows.ofExcept _).bind
      intro received
      split
      · exact (sc.variableOf_grows _).bind fun v => (ih _).bind fun l => .pure _
      · exact ih _

theorem signature_grows : Grows sc.signature := by
  apply (sc.scalarParams_grows 0 _).bind
  intro scalars
  dsimp only
  split
  · exact (receiveCells_grows _).bind fun r => (sc.functionVariable_grows _).bind fun v => .pure _
  · exact (Grows.pure _).bind fun r => (sc.functionVariable_grows _).bind fun v => .pure _

theorem globalsCode_grows (ids : List GlobalId) : Grows (sc.globalsCode ids) := by
  induction ids with
  | nil => exact .pure _
  | cons id rest ih =>
      unfold globalsCode
      split
      · exact (contentsCode_grows _ _ _).bind fun stmts => ih.bind fun l => .pure _
      · exact ih

theorem memoryCode_grows : Grows sc.memoryCode := by
  apply (newCellsCode_grows _).bind
  intro zeroed
  dsimp only
  split
  · exact (sc.globalsCode_grows _).bind fun globals => .pure _
  · exact (Grows.pure _).bind fun globals => .pure _

theorem prologue_grows : Grows sc.prologue := by
  unfold prologue
  dsimp only
  split
  · refine sc.signature_grows.bind fun r => (Grows.pure _).bind fun r' => ?_
    split
    · exact sc.memoryCode_grows.bind fun l => .pure _
    · exact (Grows.pure _).bind fun l => .pure _
  · apply (Grows.pure _).bind
    intro r
    split
    · exact sc.memoryCode_grows.bind fun l => .pure _
    · exact (Grows.pure _).bind fun l => .pure _

end Prologue

variable {sc : Scope} {F : VarSupply} {s s' : Session}

/-- The variable of a value in a supply. -/
def Denotes (sc : Scope) (F : VarSupply) (v : Value) (x : Var) : Prop :=
  ∃ r, sc.referent? v = some r ∧ F.find? r = some x

theorem variableOf_spec {v : Value} {x : Var} (h : Yields (sc.variableOf v) s x s')
    (hF : s'.supply.Extends F) : sc.tracks v = .ok true ∧ sc.Denotes F v x := by
  simp only [variableOf, yields_bind, yields_ofExcept] at h
  obtain ⟨tracked, _, ⟨htracked, rfl⟩, h⟩ := h
  split at h
  next ht =>
    split at h
    next r hr => exact ⟨ht ▸ htracked, r, hr, hF.keeps _ _ (request_spec h)⟩
    next => exact absurd h not_yields_fault
  next => exact absurd h not_yields_fault

end Scope

end AffineFlow
