import AffineFlow.Lowering.Access
import AffineFlow.Lowering.Condition

/-!
# Calls

Bookkeeping calls vanish, assumptions become constraints, allocations and block
operations on memory act on cells. Any other call is either written as a call
site, with the touched cells among the arguments, or, where call sites are not
wanted or the callee is variadic, as the havoc of everything that it modifies.

A call site passes the array of each touched cell twice: a copy of what it holds
before the call, and the array itself, which the callee writes; the allocated
cells come last. The prologue of the callee receives them in the same order.
-/
namespace AffineFlow

open Ssa

/-- Functions that allocate memory without a body of their own. -/
def allocatorNames : List String := ["calloc", "malloc", "valloc", "palloc"]

/-- What a direct call means for lowering. -/
inductive CallMeaning where
  | bookkeeping
  | allocation
  | memorySet
  | memoryCopy
  | unmodelledIntrinsic
  | assumption (negated : Bool)
  | variadic
  | ordinary
  deriving DecidableEq, Repr

/-- What an intrinsic means; a move may overlap itself, which cells cannot express. -/
def intrinsicMeaning (name : String) : CallMeaning :=
  if startsWith "llvm.memset" name then .memorySet
  else if startsWith "llvm.memcpy" name then .memoryCopy
  else .unmodelledIntrinsic

namespace Scope

variable (sc : Scope)

def meaning (callee : Function) : CallMeaning :=
  if startsWith shadowStem callee.name || callee.name == "seahorn.fn.enter" then .bookkeeping
  else if callee.isDeclaration && sc.isProgramEntry && allocatorNames.contains callee.name then
    .allocation
  else if callee.isIntrinsic then intrinsicMeaning callee.name
  else if callee.name == "verifier.assume" then .assumption false
  else if callee.name == "verifier.assume.not" then .assumption true
  else if callee.varArg then .variadic
  else .ordinary

/-- A temporary for a literal, with the statement that sets it. -/
def literalTemporary (v : Value) : Lowering (TypedVar × List Stmt) := do
  let tmp ← Lowering.temporary
  if v.toInt?.isSome then
    match ← sc.express v with
    | some e => return ((tmp, .int), [.assign tmp e])
    | none => return ((tmp, .unknown), [.havoc tmp])
  else return ((tmp, .unknown), [.havoc tmp])

/-- A variable for a value that is passed on, with the statements that set it up: literals are
put into temporaries, so that only variables are passed. -/
def passed (v : Value) : Lowering (TypedVar × List Stmt) := do
  if v.isLiteral then sc.literalTemporary v
  else
    let ty ← .ofExcept (sc.typeOf v)
    return ((← sc.variableOf v, .ofTy ty), [])

/-- The value takes part in calls and returns. -/
def isPassed (v : Value) : Except Fault Bool := do
  if ← sc.tracks v then
    if sc.settings.integersOnly then sc.hasIntType v else return true
  else return false

/-- The arguments that are passed, with the statements that set them up. -/
def passScalars : List Value → Lowering (List TypedVar × List Stmt)
  | [] => return ([], [])
  | arg :: rest => do
      if ← .ofExcept (sc.isPassed arg) then
        let (v, setup) ← sc.passed arg
        let (vs, stmts) ← passScalars rest
        return (v :: vs, setup ++ stmts)
      else passScalars rest

/-- Copies each cell to a temporary, which is passed, and gives the cell up to the callee. -/
def passCopies : List Cell → Lowering (List TypedVar × List Stmt)
  | [] => return ([], [])
  | c :: rest => do
      let array ← Lowering.cellVariable c
      let copy ← Lowering.temporary
      let (vs, stmts) ← passCopies rest
      return ((copy, .arr) :: vs, .assign copy (.ofVar array) :: .havoc array :: stmts)

/-- The cells of a call as arguments. -/
def passCells (effects : Effects) : Lowering (List TypedVar × List Stmt) := do
  let (copies, stmts) ← passCopies effects.touched
  let cells ← cellVariables (effects.touched ++ effects.new)
  return (copies ++ cells, stmts)

/-- The result of a call is received by a variable. -/
def isReceived (id : InstId) (ty : Ty) : Except Fault Bool := do
  if VarType.ofTy ty = .unknown then return false
  else if ← sc.tracks (.inst id) then return !sc.settings.integersOnly || ty.isInt
  else return false

/-- The variable that receives the result of a call. -/
def receiver? (id : InstId) (ty : Ty) : Lowering (Option TypedVar) := do
  if ← .ofExcept (sc.isReceived id ty) then
    return some (← sc.variableOf (.inst id), .ofTy ty)
  else return none

def callSiteCode (id : InstId) (ty : Ty) (callee : FuncId) (args : List Value) :
    Lowering (List Stmt) := do
  let (scalars, setup) ← sc.passScalars args
  let (cells, copies) ←
    if sc.modelsMemory then passCells (sc.oracle.callEffects sc.funcId id) else pure ([], [])
  let ret ← sc.receiver? id ty
  let func ← sc.functionVariable callee
  return setup ++ copies ++ [.call ⟨ret, func, scalars ++ cells⟩]

def forgetCells : List Cell → Lowering (List Stmt)
  | [] => return []
  | c :: rest => do
      let array ← Lowering.cellVariable c
      return .havoc array :: (← forgetCells rest)

/-- A call about which only the oracle knows something. -/
def unmodelledCallCode (id : InstId) : Lowering (List Stmt) := do
  let result ← sc.forgetResult id
  let modified ←
    if sc.modelsMemory then forgetCells (sc.oracle.callEffects sc.funcId id).modified
    else pure []
  return result ++ modified

/-- Fills a cell with a constant. -/
def memorySetCode : List Value → Lowering (List Stmt)
  | ptr :: value :: _ => do
      match sc.cellAt? ptr with
      | none => return []
      | some cell =>
          match (← sc.express value).bind (·.toConst?) with
          | none => return []
          | some n =>
              let array ← Lowering.cellVariable cell
              return [.havoc array, .assumeArray array n]
  | _ => return []

/-- Copies one cell to another. -/
def memoryCopyCode : List Value → Lowering (List Stmt)
  | dst :: src :: _ => do
      match sc.cellAt? dst, sc.cellAt? src with
      | some dst, some src =>
          let dst ← Lowering.cellVariable dst
          let src ← Lowering.cellVariable src
          return [.havoc dst, .assign dst (.ofVar src)]
      | _, _ => return []
  | _ => return []

/-- Assumes the first argument. -/
def assumptionCode (negated : Bool) : List Value → Lowering (List Stmt)
  | cond :: _ => sc.assumptions (sc.beneathZeroExtension cond) negated
  | [] => return []

def directCallCode (id : InstId) (ty : Ty) (calleeId : FuncId) (callee : Function)
    (args : List Value) : Lowering (List Stmt) := do
  match sc.meaning callee with
  | .bookkeeping => return []
  | .allocation => zeroedCode (sc.cellAt? (.inst id))
  | .memorySet => sc.memorySetCode args
  | .memoryCopy => sc.memoryCopyCode args
  | .unmodelledIntrinsic => return []
  | .assumption negated => sc.assumptionCode negated args
  | .variadic =>
      if sc.settings.interprocedural then
        Lowering.tell (.variadicCall callee.name)
        sc.unmodelledCallCode id
      else sc.unmodelledCallCode id
  | .ordinary =>
      if sc.settings.interprocedural then sc.callSiteCode id ty calleeId args
      else sc.unmodelledCallCode id

def callCode (id : InstId) (ty : Ty) (callee : Callee) (args : List Value) :
    Lowering (List Stmt) :=
  match callee with
  | .indirect _ => sc.forgetResult id
  | .direct calleeId =>
      match sc.program.func? calleeId with
      | none => sc.forgetResult id
      | some callee => sc.directCallCode id ty calleeId callee args

end Scope

end AffineFlow
