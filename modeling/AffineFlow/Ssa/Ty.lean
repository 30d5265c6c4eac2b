/-!
# Types of the source language

Scalars, pointers and the two aggregates. A type says how large a value is and
whether it is an integer; nothing here depends on a target. Pointers carry no
pointee, so an address computation names the type that it walks.
-/
namespace AffineFlow.Ssa

inductive Ty where
  | void
  | int (bits : Nat)
  | float (bits : Nat)
  | ptr
  | struct (fields : List Ty)
  | array (elem : Ty) (len : Nat)
  /-- A type whose contents are not looked into. -/
  | blackbox
  deriving Inhabited

namespace Ty

def isInt : Ty → Bool
  | int _ => true
  | _ => false

/-- The type of truth values is the one-bit integer. -/
def isBool : Ty → Bool
  | int 1 => true
  | _ => false

def isVoid : Ty → Bool
  | void => true
  | _ => false

mutual

/-- The written form: fields stand in braces, an array leads with its length. -/
def text : Ty → String
  | void => "void"
  | int bits => "i" ++ Nat.repr bits
  | float bits => "f" ++ Nat.repr bits
  | ptr => "ptr"
  | struct fields => "\x7b" ++ listText fields ++ "\x7d"
  | array elem len => "[" ++ Nat.repr len ++ " x " ++ text elem ++ "]"
  | blackbox => "opaque"

def listText : List Ty → String
  | [] => ""
  | [ty] => text ty
  | ty :: rest => text ty ++ ", " ++ listText rest

end

end Ty

end AffineFlow.Ssa
