import AffineFlow.Lowering.Address
import AffineFlow.Lowering.Binary
import AffineFlow.Lowering.Call
import AffineFlow.Lowering.Phi
import AffineFlow.Lowering.Select

/-!
# Code of a function

The statements of every laid-out block and of every edge, before they are put
into a graph. A conditional edge carries its condition and then the phis of its
target; the phis along an unconditional edge belong to the block that it leaves.
-/
namespace AffineFlow

open Ssa

/-- The way from a block to one of its successors under a condition. -/
structure EdgeCode where
  label : String
  target : BlockId
  stmts : List Stmt

/-- Where control goes at the end of a block. -/
inductive Leaving where
  | returns
  | stuck
  | jumps (target : BlockId)
  | branches (edges : List EdgeCode)

structure BlockCode where
  source : BlockId
  stmts : List Stmt
  leaving : Leaving

/-- The value differs from every case that can be expressed. -/
def defaultCase (e : AffineForm) (cases : List Int) : List Stmt :=
  (cases.filterMap fit64).flatMap fun n => (Constraint.ne e (.const n)).assumption

/-- The value is the case, if that can be expressed. -/
def matchedCase (e : AffineForm) (case? : Option Int) : List Stmt :=
  match case?.bind fit64 with
  | some n => (Constraint.eq e (.const n)).assumption
  | none => []

namespace Scope

variable (sc : Scope)

/-- Phis are carried out on the edges to their block, comparisons where they are consumed. -/
def instCode (id : InstId) : Lowering (List Stmt) :=
  match sc.body.inst? id with
  | none => .fault (.noSuchInst id)
  | some inst =>
      match inst.kind with
      | .phi _ => return []
      | .compare _ _ _ => return []
      | .binary op a b => sc.binaryCode id op a b
      | .cast op value => sc.castCode id inst.ty op value
      | .address base sourceTy indices => sc.addressCode id base sourceTy indices
      | .load ptr => sc.loadCode id inst.ty ptr
      | .store value ptr => sc.storeCode value ptr
      | .alloca _ => sc.allocaCode id
      | .select cond onTrue onFalse => sc.selectCode id cond onTrue onFalse
      | .call callee args => sc.callCode id inst.ty callee args
      | .other _ => sc.forgetResult id

def instsCode : List InstId → Lowering (List Stmt)
  | [] => return []
  | id :: rest => do
      let stmts ← sc.instCode id
      return stmts ++ (← instsCode rest)

/-- The value is returned to a caller; the function where the program starts has none. -/
def isReturned (value : Value) : Except Fault Bool :=
  if sc.settings.interprocedural && !sc.isProgramEntry then sc.isPassed value else .ok false

def returnCode (value : Value) : Lowering (List Stmt) :=
  .onlyIf (sc.isReturned value) do
    let ((v, type), setup) ← sc.passed value
    return setup ++ [.ret v type]

/-- What holds on the edge to the successor with the given index. -/
def edgeCondition (term : Terminator) (index : Nat) : Lowering (List Stmt) := do
  match term with
  | .condBr cond _ _ => sc.assumptions cond (index = 1)
  | .switch value cases _ =>
      match ← sc.express value with
      | none => return []
      | some e =>
          match index with
          | 0 => return defaultCase e cases
          | i + 1 => return matchedCase e cases[i]?
  | _ => return []

/-- A block that control may go to: it has to be laid out. -/
def target (id : BlockId) : Lowering Block :=
  if id ∈ sc.body.order then
    match sc.body.block? id with
    | some block => return block
    | none => .fault (.noSuchBlock id)
  else .reject (.unknownBlock sc.func.name)

/-- The code of the edge from a block to its successor with the given index. -/
def edgeCode (source : BlockId) (block : Block) (index : Nat) (succ : BlockId) :
    Lowering EdgeCode := do
  let succBlock ← sc.target succ
  let label := block.name ++ "_" ++ succBlock.name
  Lowering.tell (.insertingEdge label)
  let condition ← sc.edgeCondition block.term index
  let phis ← sc.phiCode succ succBlock source block.name
  return ⟨label, succ, condition ++ phis⟩

def edgesCode (source : BlockId) (block : Block) :
    Nat → List BlockId → Lowering (List EdgeCode)
  | _, [] => return []
  | index, succ :: rest => do
      let edge ← sc.edgeCode source block index succ
      return edge :: (← edgesCode source block (index + 1) rest)

/-- How control leaves a block, with the statements at its end. -/
def leavingCode (id : BlockId) (block : Block) : Lowering (List Stmt × Leaving) := do
  match block.term with
  | .ret none => return ([], .returns)
  | .ret (some value) => return (← sc.returnCode value, .returns)
  | .unreachable => return ([.unreachable], .stuck)
  | .br succ =>
      let succBlock ← sc.target succ
      return (← sc.phiCode succ succBlock id block.name, .jumps succ)
  | .condBr _ _ _ | .switch _ _ _ =>
      return ([], .branches (← sc.edgesCode id block 0 block.term.successors))

def blockCode (id : BlockId) : Lowering BlockCode := do
  let block ← sc.target id
  Lowering.tell (.enteringBlock block.name)
  let stmts ← sc.instsCode block.insts
  let (last, leaving) ← sc.leavingCode id block
  return ⟨id, stmts ++ last, leaving⟩

def blocksCode : List BlockId → Lowering (List BlockCode)
  | [] => return []
  | id :: rest => do
      let code ← sc.blockCode id
      return code :: (← blocksCode rest)

end Scope

end AffineFlow
