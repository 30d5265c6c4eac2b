import AffineFlow.Constraint

/-!
# Statements

What the blocks of a flow graph execute. Scalars are integers; an array
variable is a whole memory cell. A statement works on affine forms, so every
operation that is not affine has a statement of its own.
-/
namespace AffineFlow

inductive VarType where
  | int
  | ptr
  | arr
  | unknown
  deriving DecidableEq, Repr

inductive ArithOp where
  | add | sub | mul | sdiv | udiv | srem | urem
  deriving DecidableEq, Repr

inductive BitwiseOp where
  | and | or | xor
  deriving DecidableEq, Repr

/-- What a choice between two forms depends on. -/
inductive Guard where
  | constraint (c : Constraint)
  /-- A truth value held in a variable; anything but zero is true. -/
  | var (v : Var)
  deriving DecidableEq

abbrev TypedVar := Var × VarType

structure CallSite where
  ret : Option TypedVar
  func : Var
  args : List TypedVar
  deriving DecidableEq

inductive Stmt where
  | assign (lhs : Var) (rhs : AffineForm)
  /-- The variable takes any value. -/
  | havoc (v : Var)
  | assume (c : Constraint)
  | arith (op : ArithOp) (lhs : Var) (a b : AffineForm)
  | bitwise (op : BitwiseOp) (lhs : Var) (a b : AffineForm)
  | select (lhs : Var) (guard : Guard) (onTrue onFalse : AffineForm)
  | arrayLoad (lhs array : Var) (index : AffineForm) (elemSize : Nat)
  | arrayStore (array : Var) (index value : AffineForm) (elemSize : Nat)
  | arrayInit (array : Var) (values : List Int)
  /-- Every element of the array holds the value. -/
  | assumeArray (array : Var) (value : Int)
  | call (site : CallSite)
  | ret (v : Var) (type : VarType)
  | unreachable
  deriving DecidableEq

namespace Stmt

/-- The scalar variable that the statement writes. -/
def target? : Stmt → Option Var
  | assign lhs _ => some lhs
  | havoc v => some v
  | arith _ lhs _ _ => some lhs
  | bitwise _ lhs _ _ => some lhs
  | select lhs _ _ _ => some lhs
  | arrayLoad lhs _ _ _ => some lhs
  | call site => site.ret.map (·.1)
  | _ => none

def assumption? : Stmt → Option Constraint
  | assume c => some c
  | _ => none

def callSite? : Stmt → Option CallSite
  | call site => some site
  | _ => none

end Stmt

end AffineFlow
