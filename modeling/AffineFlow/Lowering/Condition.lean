import AffineFlow.Lowering.Scope

/-!
# Conditions

What a branch, a switch or an assumption tells about the variables. Only
conjunctions of affine constraints can be written down; a condition that would
need a disjunction contributes nothing.
-/
namespace AffineFlow

open Ssa

/-- Turns `>` and `≥` around, so that only `<` and `≤` are left. -/
def orient (pred : Predicate) (a b : Value) : Predicate × Value × Value :=
  match pred with
  | .ugt => (.ult, b, a)
  | .uge => (.ule, b, a)
  | .sgt => (.slt, b, a)
  | .sge => (.sle, b, a)
  | _ => (pred, a, b)

/-- The constraint for `a pred b`, or for its negation. Unsigned comparisons read as signed ones;
`signConstraints` says what makes that right. -/
def orderConstraint (pred : Predicate) (negated : Bool) (a b : AffineForm) : Constraint :=
  match pred, negated with
  | .eq, false | .ne, true => .eq a b
  | .eq, true | .ne, false => .ne a b
  | .slt, false | .ult, false => .le a (b.addConst (-1))
  | .slt, true | .ult, true => .ge a b
  | .sle, false | .ule, false => .le a b
  | .sle, true | .ule, true => .ge a (b.addConst 1)
  | .sgt, false | .ugt, false => .le b (a.addConst (-1))
  | .sgt, true | .ugt, true => .ge b a
  | .sge, false | .uge, false => .le b a
  | .sge, true | .uge, true => .ge b (a.addConst 1)

/-- Under an unsigned comparison, an operand that is a variable is not negative. -/
def signConstraints (pred : Predicate) (a b : AffineForm) : List Constraint :=
  if pred.isUnsigned then
    ([a, b].filter (·.isVar)).map fun e => .ge e (.const 0)
  else []

/-- Assumes a constraint; nothing if it is trivially true, an unreachable point if trivially
false. -/
def Constraint.assumption (c : Constraint) : List Stmt :=
  match c.truth? with
  | some true => []
  | some false => [.unreachable]
  | none => [.assume c]

/-- The variable has the truth value that is the opposite of `negated`. -/
def pin (v : Var) (negated : Bool) : Stmt :=
  .assume (.eq (.ofVar v) (.const (if negated then 0 else 1)))

namespace Scope

variable (sc : Scope)

/-- What holds where the comparison has the given outcome. Nothing if an operand cannot be
expressed. -/
def comparisonConstraints (pred : Predicate) (a b : Value) (negated : Bool) :
    Lowering (List Constraint) := do
  let (pred, a, b) := orient pred a b
  let x ← sc.express a
  let y ← sc.express b
  match x, y with
  | some x, some y =>
      return signConstraints pred x y ++ [orderConstraint pred negated x y]
  | _, _ => return []

/-- Both operands are of types that flow into the graph. -/
def operandsFlow (a b : Value) : Except Fault Bool := do
  if sc.settings.integersOnly then
    if ← sc.hasIntType a then sc.hasIntType b else return false
  else return true

/-- Pins the variable of a condition. -/
def pinTracked (cond : Value) (negated : Bool) : Lowering (List Stmt) :=
  .onlyIf (sc.tracks cond) do return [pin (← sc.variableOf cond) negated]

/-- The number of places that read an instruction result. -/
def useCount (v : Value) : Nat :=
  match v.toInst? with
  | some id => (sc.body.users id).length
  | none => 0

/-- The branch is one use of the comparison; any other use reads its variable, which is pinned for
that reason. -/
def comparisonAssumptions (cond : Value) (pred : Predicate) (a b : Value) (negated : Bool) :
    Lowering (List Stmt) :=
  .onlyIf (sc.operandsFlow a b) do
    let constraints ← sc.comparisonConstraints pred a b negated
    let pinned ← if 2 ≤ sc.useCount cond then sc.pinTracked cond negated else pure []
    return constraints.map .assume ++ pinned

/-- The operands, if the value is a comparison of integer type. -/
def comparison? (v : Value) : Except Fault (Option (Predicate × Value × Value)) :=
  match sc.body.kind? v with
  | some (.compare pred a b) =>
      (sc.hasIntType v).map fun int => if int then some (pred, a, b) else none
  | _ => .ok none

/-- What two comparisons say that have the same outcome. -/
def bothAssumptions (a b : Value) (negated : Bool) : Lowering (List Stmt) := do
  let first ← .ofExcept (sc.comparison? a)
  let second ← .ofExcept (sc.comparison? b)
  match first, second with
  | some (p, a₁, b₁), some (q, a₂, b₂) =>
      let left ← sc.comparisonConstraints p a₁ b₁ negated
      let right ← sc.comparisonConstraints q a₂ b₂ negated
      return (left ++ right).map .assume
  | _, _ => return []

/-- Only a conjunction that is true and a disjunction that is false split into their operands. -/
def connectiveAssumptions (cond : Value) (op : BinaryOp) (a b : Value) (negated : Bool) :
    Lowering (List Stmt) :=
  match op, negated with
  | .and, false | .or, true => sc.bothAssumptions a b negated
  | .and, true | .or, false => return []
  | _, _ =>
      if sc.settings.explicitHavoc then
        .onlyIf (sc.tracks cond) do return [.havoc (← sc.variableOf cond)]
      else return []

/-- What control knows when the condition is true, or, if `negated`, when it is false. -/
def assumptions (cond : Value) (negated : Bool) : Lowering (List Stmt) :=
  match cond.toInt? with
  | some n => return if (n ≠ 0) = negated then [.unreachable] else []
  | none =>
      match sc.body.kind? cond with
      | some (.compare pred a b) => sc.comparisonAssumptions cond pred a b negated
      | some (.binary op a b) => sc.connectiveAssumptions cond op a b negated
      | _ => sc.pinTracked cond negated

end Scope

end AffineFlow
