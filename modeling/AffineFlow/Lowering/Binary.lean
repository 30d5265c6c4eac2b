import AffineFlow.Lowering.Scope

/-!
# Binary instructions

Integer arithmetic and bitwise logic have statements of their own. A shift by a
constant becomes a product or a quotient with a power of two; everything else
makes the result unknown.
-/
namespace AffineFlow

open Ssa

/-- How a binary instruction is expressed. -/
inductive BinaryRule where
  | arith (op : ArithOp)
  /-- By an operation with two to the power of the second operand. -/
  | shift (op : ArithOp)
  | bitwise (op : BitwiseOp)
  | unmodelled
  deriving DecidableEq, Repr

def BinaryRule.of : BinaryOp → BinaryRule
  | .add => .arith .add
  | .sub => .arith .sub
  | .mul => .arith .mul
  | .sdiv => .arith .sdiv
  | .udiv => .arith .udiv
  | .srem => .arith .srem
  | .urem => .arith .urem
  | .shl => .shift .mul
  | .ashr => .shift .sdiv
  | .and => .bitwise .and
  | .or => .bitwise .or
  | .xor => .bitwise .xor
  | .lshr | .fadd | .fsub | .fmul | .fdiv | .frem => .unmodelled

def ArithOp.isUnsigned : ArithOp → Bool
  | .udiv | .urem => true
  | _ => false

def ArithOp.isCommutative : ArithOp → Bool
  | .add | .mul => true
  | _ => false

/-- The power of two that a shift by the amount stands for. -/
def shiftFactor? (amount : Int) : Option Int :=
  if 0 ≤ amount ∧ amount ≤ 126 then some (1 <<< amount.toNat : Nat) else none

namespace Scope

variable (sc : Scope)

/-- The first operand of an operation that is not commutative has to be a variable, so a constant
is put into the result first. -/
def arithCode (source : BinaryOp) (op : ArithOp) (dst : Var) (a b : AffineForm) :
    Lowering (List Stmt) := do
  if op.isUnsigned && a.isConst && b.isConst then
    Lowering.tell (.constantOperands source)
    return sc.forget dst
  else if !op.isCommutative && a.isConst then
    return [.assign dst a, .arith op dst (.ofVar dst) b]
  else
    return [.arith op dst a b]

def shiftCode (source : BinaryOp) (op : ArithOp) (dst : Var) (a b : AffineForm) :
    Lowering (List Stmt) := do
  match b.toConst? with
  | none => return sc.forget dst
  | some amount =>
      match shiftFactor? amount with
      | some factor => return [.arith op dst a (.const factor)]
      | none =>
          Lowering.tell (.shiftOutOfRange source amount)
          return sc.forget dst

/-- The code of an operation whose operands can be expressed. -/
def ruleCode (source : BinaryOp) (dst : Var) (a b : AffineForm) : Lowering (List Stmt) :=
  match BinaryRule.of source with
  | .arith op => sc.arithCode source op dst a b
  | .shift op => sc.shiftCode source op dst a b
  | .bitwise op => return [.bitwise op dst a b]
  | .unmodelled => return sc.forget dst

def binaryCode (id : InstId) (op : BinaryOp) (a b : Value) : Lowering (List Stmt) :=
  .onlyIf (sc.tracks (.inst id)) do
    let dst ← sc.variableOf (.inst id)
    if BinaryRule.of op = .unmodelled then return sc.forget dst
    else
      let x ← sc.express a
      let y ← sc.express b
      match x, y with
      | some x, some y => sc.ruleCode op dst x y
      | _, _ => return sc.forget dst

end Scope

end AffineFlow
