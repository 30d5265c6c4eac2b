import AffineFlow.AffineForm.Text
import AffineFlow.Ssa.Instruction

/-!
# Notes

What lowering and simplification tell while they run. A warning says that
something in the source was not modelled; the other notes follow the progress.
-/
namespace AffineFlow

open Ssa

inductive Level where
  | warn
  | debug
  | trace
  deriving DecidableEq, Repr

def Level.text : Level → String
  | .warn => "WARN"
  | .debug => "DEBUG"
  | .trace => "TRACE"

inductive Note where
  | shiftOutOfRange (op : BinaryOp) (amount : Int)
  | constantOperands (op : BinaryOp)
  | variadicCall (callee : String)
  | built (func : String) (blocks vars : Nat)
  | enteringBlock (label : String)
  | insertingEdge (label : String)
  | resolvingPhis (count : Nat) (target source : String)
  | unifyingReturns (count : Nat)
  | simplifying (blocks : Nat)
  | removingUnreachable (label : String)
  | bypassing (label target : String)
  | absorbing (label into : String)
  | simplified (blocks : Nat)
  deriving DecidableEq, Repr

namespace Note

def level : Note → Level
  | shiftOutOfRange .. => .warn
  | constantOperands .. => .warn
  | variadicCall .. => .warn
  | built .. => .debug
  | _ => .trace

def text : Note → String
  | shiftOutOfRange op amount =>
      "ignored " ++ op.text ++ " by an out-of-range amount " ++ decimal amount
  | constantOperands op => "ignored " ++ op.text ++ " with both operands constant"
  | variadicCall callee => "call to the variadic function " ++ callee ++ " is not modeled"
  | built func blocks vars =>
      "built the cfg of " ++ func ++ ": " ++ Nat.repr blocks ++ " blocks, " ++ Nat.repr vars ++
        " variables minted so far"
  | enteringBlock label => "translating block " ++ label
  | insertingEdge label => "inserting edge block " ++ label
  | resolvingPhis count target source =>
      "resolving " ++ Nat.repr count ++ " phis of " ++ target ++ " along the edge from " ++ source
  | unifyingReturns count => "unifying " ++ Nat.repr count ++ " return blocks"
  | simplifying blocks => "simplifying a cfg of " ++ Nat.repr blocks ++ " blocks"
  | removingUnreachable label => "removing unreachable block " ++ label
  | bypassing label target => "eliminating empty " ++ label ++ " in favor of " ++ target
  | absorbing label into => "merging " ++ label ++ " into " ++ into
  | simplified blocks => "simplified down to " ++ Nat.repr blocks ++ " blocks"

/-- A note as it stands in a record: its level, then its text. -/
def line (n : Note) : String := n.level.text ++ ": " ++ n.text

end Note

/-- A computation that makes notes while it runs. The notes made before a failure stay. -/
abbrev Noted (ε α : Type) : Type := EStateM ε (List Note) α

namespace Noted

variable {ε α : Type}

def tell (n : Note) : Noted ε Unit := modify (· ++ [n])

def tellAll (ns : List Note) : Noted ε Unit := modify (· ++ ns)

/-- Fails where the result is a failure. -/
def ofExcept : Except ε α → Noted ε α
  | .ok a => pure a
  | .error e => throw e

end Noted

end AffineFlow
