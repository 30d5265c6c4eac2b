import AffineFlow.Lowering.Condition

/-!
# Casts and selections

A cast keeps the integer and becomes an assignment. A selection is guarded by
its condition: by the constraint, if the condition is a comparison that is
exactly one constraint, and else by the variable that holds the truth value.
-/
namespace AffineFlow

open Ssa

/-- The variable is zero or one. -/
def truthRange (v : Var) : List Stmt :=
  [.assume (.ge (.ofVar v) (.const 0)), .assume (.le (.ofVar v) (.const 1))]

namespace Scope

variable (sc : Scope)

/-- The result of a cast is tracked, flows into the graph and is wanted there. -/
def isCastWanted (id : InstId) (ty : Ty) : Except Fault Bool := do
  if ← sc.tracks (.inst id) then
    if sc.settings.integersOnly && !ty.isInt then return false
    else (sc.onlyUnmodelledUses id).map (!·)
  else return false

def convertCode (dst : Var) (value : Value) : Lowering (List Stmt) := do
  match ← sc.express value with
  | some src => return [.assign dst src]
  | none =>
      if (← .ofExcept (sc.typeOf value)).isBool then return truthRange dst
      else return sc.forget dst

/-- An extension that only address computations read is left out: they read its operand. -/
def castCode (id : InstId) (ty : Ty) (op : CastOp) (value : Value) :
    Lowering (List Stmt) :=
  if op.isExtension && sc.onlyAddressUses id then return []
  else
    .onlyIf (sc.isCastWanted id ty) do
      let dst ← sc.variableOf (.inst id)
      sc.convertCode dst value

/-- The constraint that the condition amounts to, if it is a comparison and amounts to one. -/
def guardConstraint? (cond : Value) : Lowering (Option Constraint) := do
  match sc.body.kind? cond with
  | some (.compare pred a b) =>
      match ← sc.comparisonConstraints pred a b false with
      | [c] => return some c
      | _ => return none
  | _ => return none

/-- Chooses between two forms. -/
def chooseCode (dst : Var) (cond : Value) (onTrue onFalse : AffineForm) :
    Lowering (List Stmt) := do
  match cond.toInt? with
  | some n => return [.assign dst (if n = 0 then onFalse else onTrue)]
  | none =>
      match ← sc.guardConstraint? cond with
      | some c => return [.select dst (.constraint c) onTrue onFalse]
      | none =>
          if ← .ofExcept (sc.tracks cond) then
            return [.select dst (.var (← sc.variableOf cond)) onTrue onFalse]
          else return sc.forget dst

/-- The result of a selection is tracked, and the operands flow into the graph. -/
def isSelectWanted (id : InstId) (onTrue onFalse : Value) : Except Fault Bool := do
  if ← sc.tracks (.inst id) then sc.operandsFlow onTrue onFalse else return false

def selectCode (id : InstId) (cond onTrue onFalse : Value) : Lowering (List Stmt) :=
  .onlyIf (sc.isSelectWanted id onTrue onFalse) do
    let dst ← sc.variableOf (.inst id)
    let x ← sc.express onTrue
    let y ← sc.express onFalse
    match x, y with
    | some x, some y => sc.chooseCode dst cond x y
    | _, _ => return sc.forget dst

end Scope

end AffineFlow
