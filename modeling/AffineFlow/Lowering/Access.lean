import AffineFlow.Lowering.Scope

/-!
# Memory accesses

Where memory is modelled, an integer access goes to the cell that the oracle
names: to the variable of its object if there is just one, and to the array of
the cell otherwise. All other loads give an unknown result, and all other
stores are dropped.
-/
namespace AffineFlow

open Ssa

namespace Scope

variable (sc : Scope)

/-- Reads the cell at an index. -/
def readCode (dst : Var) (cell : Cell) (index : AffineForm) (elemSize : Nat) :
    Lowering (List Stmt) := do
  match ← sc.objectVariable? cell with
  | some object => return [.assign dst (.ofVar object)]
  | none => return [.arrayLoad dst (← Lowering.cellVariable cell) index elemSize]

/-- Writes the cell at an index. -/
def writeCode (cell : Cell) (index value : AffineForm) (elemSize : Nat) :
    Lowering (List Stmt) := do
  match ← sc.objectVariable? cell with
  | some object => return [.assign object value]
  | none => return [.arrayStore (← Lowering.cellVariable cell) index value elemSize]

def loadCode (id : InstId) (ty : Ty) (ptr : Value) : Lowering (List Stmt) := do
  if ty.isInt && sc.modelsMemory then
    match sc.cellAt? ptr, ← sc.express ptr with
    | some cell, some index =>
        let dst ← sc.variableOf (.inst id)
        sc.readCode dst cell index (sc.program.layout.allocSize ty)
    | _, _ => sc.forgetResult id
  else sc.forgetResult id

def storeCode (value ptr : Value) : Lowering (List Stmt) := do
  let ty ← .ofExcept (sc.typeOf value)
  if ty.isInt && sc.modelsMemory then
    match sc.cellAt? ptr with
    | none => return []
    | some cell =>
        let index ← sc.express ptr
        let stored ← sc.express value
        match index, stored with
        | some index, some stored =>
            sc.writeCode cell index stored (sc.program.layout.allocSize ty)
        | _, _ => return []
  else return []

/-- Every element of the cell is zero. -/
def zeroedCode : Option Cell → Lowering (List Stmt)
  | some cell => return [.assumeArray (← Lowering.cellVariable cell) 0]
  | none => return []

/-- Stack cells start out zeroed. -/
def allocaCode (id : InstId) : Lowering (List Stmt) :=
  if sc.modelsMemory then zeroedCode (sc.cellAt? (.inst id)) else return []

end Scope

end AffineFlow
