/-!
# Values of the source language

What an instruction can take as an operand. Functions, globals, blocks and
instructions are referred to by their position in the table that holds them; a
position outside the table refers to nothing.
-/
namespace AffineFlow.Ssa

structure FuncId where
  index : Nat
  deriving DecidableEq, Repr, Inhabited

structure GlobalId where
  index : Nat
  deriving DecidableEq, Repr, Inhabited

structure BlockId where
  index : Nat
  deriving DecidableEq, Repr, Inhabited

structure InstId where
  index : Nat
  deriving DecidableEq, Repr, Inhabited

inductive Value where
  | inst (id : InstId)
  | arg (index : Nat)
  | global (id : GlobalId)
  | func (id : FuncId)
  | int (bits : Nat) (value : Int)
  | null
  /-- An undefined value; undefined integers keep their width. -/
  | undef (bits : Option Nat)
  deriving DecidableEq, Repr, Inhabited

namespace Value

def ofBool (b : Bool) : Value := int 1 (if b then 1 else 0)

def toInst? : Value → Option InstId
  | inst id => some id
  | _ => none

def toInt? : Value → Option Int
  | int _ value => some value
  | _ => none

def isUndef : Value → Bool
  | undef _ => true
  | _ => false

/-- A literal denotes a value and has no place of definition. -/
def isLiteral : Value → Bool
  | int _ _ => true
  | null => true
  | undef _ => true
  | _ => false

end Value

end AffineFlow.Ssa
