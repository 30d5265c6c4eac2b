import AffineFlow.FlowGraph.Basic
import AffineFlow.Lowering.Scope

/-!
# What happens before the first block

The declaration of the function, the cells that it receives and allocates, and,
in the function where the program starts, the contents of the globals.
-/
namespace AffineFlow

open Ssa

/-- The initializer at the end of a chain of aliases; `none` if the chain has no end. A chain
that ends has no more links than there are globals. -/
def resolveAlias (program : Module) : Nat → Initializer → Option Initializer
  | fuel + 1, .alias id =>
      match (program.global? id).bind (·.init) with
      | some init => resolveAlias program fuel init
      | none => none
  | 0, .alias _ => none
  | _, init => some init

/-- The code that gives a cell its initial contents. Scalar globals are registers, and have
none. -/
def contentsCode (program : Module) (cell : Cell) (init : Initializer) :
    Lowering (List Stmt) := do
  match resolveAlias program program.globals.size init with
  | some .zero => return [.assumeArray (← Lowering.cellVariable cell) 0]
  | some (.data elem values) =>
      if elem.isInt then return [.arrayInit (← Lowering.cellVariable cell) values]
      else return []
  | _ => return []

/-- Receives a copy of each cell and puts it into the cell. -/
def receiveCopies : List Cell → Lowering (List TypedVar × List Stmt)
  | [] => return ([], [])
  | c :: rest => do
      let array ← Lowering.cellVariable c
      let copy ← Lowering.temporary
      let (vs, stmts) ← receiveCopies rest
      return ((copy, .arr) :: vs, .assign array (.ofVar copy) :: stmts)

/-- The cells as parameters: a copy of each touched cell, then the touched cells themselves and
the allocated ones. -/
def receiveCells (effects : Effects) : Lowering (List TypedVar × List Stmt) := do
  let (copies, stmts) ← receiveCopies effects.touched
  let cells ← Scope.cellVariables (effects.touched ++ effects.new)
  return (copies ++ cells, stmts)

/-- New cells are zero at first. -/
def newCellsCode : List Cell → Lowering (List Stmt)
  | [] => return []
  | c :: rest => do
      let array ← Lowering.cellVariable c
      return .assumeArray array 0 :: (← newCellsCode rest)

namespace Scope

variable (sc : Scope)

/-- The parameter with the given index is received by a variable. -/
def isParamReceived (index : Nat) (ty : Ty) : Except Fault Bool :=
  (sc.tracks (.arg index)).map fun tracked =>
    tracked && (!sc.settings.integersOnly || ty.isInt)

/-- The scalar parameters, in order; the first one of the list has the given index. -/
def scalarParams : Nat → List Param → Lowering (List TypedVar)
  | _, [] => return []
  | index, param :: rest => do
      if ← .ofExcept (sc.isParamReceived index param.ty) then
        let v ← sc.variableOf (.arg index)
        return (v, .ofTy param.ty) :: (← scalarParams (index + 1) rest)
      else scalarParams (index + 1) rest

def returnType : Option VarType :=
  if sc.func.ret.isVoid then none
  else if sc.settings.integersOnly && !sc.func.ret.isInt then some .unknown
  else some (.ofTy sc.func.ret)

/-- The signature, and the code that receives the cells. -/
def signature : Lowering (Declaration × List Stmt) := do
  let scalars ← sc.scalarParams 0 sc.func.params
  let (cells, stmts) ←
    if sc.modelsMemory && !sc.isProgramEntry then
      receiveCells (sc.oracle.funcEffects sc.funcId)
    else pure ([], [])
  let name ← sc.functionVariable sc.funcId
  return (⟨name, sc.returnType, scalars ++ cells⟩, stmts)

/-- The initial contents of the globals that have a cell. -/
def globalsCode : List GlobalId → Lowering (List Stmt)
  | [] => return []
  | id :: rest => do
      match (sc.program.global? id).bind (·.init), sc.cellAt? (.global id) with
      | some init, some cell =>
          let stmts ← contentsCode sc.program cell init
          return stmts ++ (← globalsCode rest)
      | _, _ => globalsCode rest

/-- The initial contents of memory. -/
def memoryCode : Lowering (List Stmt) := do
  let zeroed ← newCellsCode (sc.oracle.funcEffects sc.funcId).new
  let globals ← if sc.isProgramEntry then sc.globalsCode sc.program.globalIds else pure []
  return zeroed ++ globals

def prologue : Lowering (Option Declaration × List Stmt) := do
  let (decl, received) ←
    if sc.settings.interprocedural then
      let (decl, stmts) ← sc.signature
      pure (some decl, stmts)
    else pure (none, [])
  let memory ← if sc.modelsMemory then sc.memoryCode else pure []
  return (decl, received ++ memory)

end Scope

end AffineFlow
