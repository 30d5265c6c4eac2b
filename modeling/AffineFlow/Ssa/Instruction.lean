import AffineFlow.Ssa.Ty
import AffineFlow.Ssa.Value

/-!
# Instructions of the source language

Each instruction has at most one result. The operations keep the words under
which the source language writes them.
-/
namespace AffineFlow.Ssa

inductive BinaryOp where
  | add | sub | mul | sdiv | udiv | srem | urem
  | shl | lshr | ashr
  | and | or | xor
  | fadd | fsub | fmul | fdiv | frem
  deriving DecidableEq, Repr

def BinaryOp.text : BinaryOp → String
  | add => "add"
  | sub => "sub"
  | mul => "mul"
  | sdiv => "sdiv"
  | udiv => "udiv"
  | srem => "srem"
  | urem => "urem"
  | shl => "shl"
  | lshr => "lshr"
  | ashr => "ashr"
  | and => "and"
  | or => "or"
  | xor => "xor"
  | fadd => "fadd"
  | fsub => "fsub"
  | fmul => "fmul"
  | fdiv => "fdiv"
  | frem => "frem"

/-- The ways to compare two integers; `u` reads them as unsigned and `s` as signed. -/
inductive Predicate where
  | eq | ne
  | ugt | uge | ult | ule
  | sgt | sge | slt | sle
  deriving DecidableEq, Repr

namespace Predicate

def text : Predicate → String
  | eq => "eq"
  | ne => "ne"
  | ugt => "ugt"
  | uge => "uge"
  | ult => "ult"
  | ule => "ule"
  | sgt => "sgt"
  | sge => "sge"
  | slt => "slt"
  | sle => "sle"

def isUnsigned : Predicate → Bool
  | ugt | uge | ult | ule => true
  | _ => false

end Predicate

inductive CastOp where
  | trunc | zext | sext
  | fptoui | fptosi | uitofp | sitofp | fptrunc | fpext
  | ptrtoint | inttoptr | bitcast
  deriving DecidableEq, Repr

namespace CastOp

def text : CastOp → String
  | trunc => "trunc"
  | zext => "zext"
  | sext => "sext"
  | fptoui => "fptoui"
  | fptosi => "fptosi"
  | uitofp => "uitofp"
  | sitofp => "sitofp"
  | fptrunc => "fptrunc"
  | fpext => "fpext"
  | ptrtoint => "ptrtoint"
  | inttoptr => "inttoptr"
  | bitcast => "bitcast"

/-- The casts that widen an integer. -/
def isExtension : CastOp → Bool
  | zext | sext => true
  | _ => false

end CastOp

inductive Callee where
  | direct (id : FuncId)
  | indirect (value : Value)
  deriving DecidableEq, Repr

inductive InstKind where
  /-- One value for each block that control may come from. -/
  | phi (incoming : List (BlockId × Value))
  | binary (op : BinaryOp) (a b : Value)
  | compare (pred : Predicate) (a b : Value)
  | cast (op : CastOp) (value : Value)
  /-- The address reached from `base` by stepping over whole objects of `sourceTy` with the first
  index and descending into aggregates with the others. -/
  | address (base : Value) (sourceTy : Ty) (indices : List Value)
  | load (ptr : Value)
  | store (value ptr : Value)
  | alloca (ty : Ty)
  | select (cond onTrue onFalse : Value)
  | call (callee : Callee) (args : List Value)
  /-- An instruction about which only its operands are known. -/
  | other (operands : List Value)

namespace InstKind

def isPhi : InstKind → Bool
  | phi _ => true
  | _ => false

def isAddress : InstKind → Bool
  | address .. => true
  | _ => false

/-- Every operand occurrence, in the order of writing. -/
def operands : InstKind → List Value
  | phi incoming => incoming.map (·.2)
  | binary _ a b => [a, b]
  | compare _ a b => [a, b]
  | cast _ value => [value]
  | address base _ indices => base :: indices
  | load ptr => [ptr]
  | store value ptr => [value, ptr]
  | alloca _ => []
  | select cond onTrue onFalse => [cond, onTrue, onFalse]
  | call (.direct _) args => args
  | call (.indirect value) args => value :: args
  | other operands => operands

end InstKind

structure Inst where
  name : Option String
  ty : Ty
  kind : InstKind
  block : BlockId

end AffineFlow.Ssa
