import AffineFlow.Ssa.Value

/-!
# The memory oracle

A points-to analysis that ran before lowering splits memory into abstract
cells. Lowering only asks: which cell a pointer points into, which object a
cell stands for if there is just one, and which cells a call or a function
touches. The answers come from anywhere; `Tables` answers from finite lists.
-/
namespace AffineFlow

open Ssa

/-- How much of the machine state is modelled. -/
inductive Tracking where
  /-- Integer registers only. -/
  | registers
  /-- Pointers too, and the contents of memory cell by cell. -/
  | memory
  deriving DecidableEq, Repr

def Tracking.text : Tracking → String
  | registers => "none"
  | memory => "array"

/-- An abstract region of memory. -/
structure Cell where
  index : Nat
  deriving DecidableEq, Repr, Inhabited

def Cell.text (c : Cell) : String := "A" ++ Nat.repr c.index

/-- The cells that a function or a call reads, modifies and allocates. -/
structure Effects where
  read : List Cell := []
  modified : List Cell := []
  new : List Cell := []
  deriving DecidableEq, Repr, Inhabited

/-- The cells read, then the cells modified that are not yet listed. -/
def Effects.touched (e : Effects) : List Cell :=
  e.modified.foldl (fun cells c => if c ∈ cells then cells else cells ++ [c]) e.read

structure Oracle where
  tracking : Tracking
  /-- The cell that the pointer points into, seen from the function; `none` for an access that
  cannot be modelled. -/
  cell? : FuncId → Value → Option Cell
  /-- The only object that the cell stands for. -/
  singleton? : Cell → Option Value
  callEffects : FuncId → InstId → Effects
  funcEffects : FuncId → Effects

namespace Oracle

def modelsMemory (o : Oracle) : Bool := o.tracking == .memory

/-- The oracle that models no memory. -/
def silent : Oracle where
  tracking := .registers
  cell? _ _ := none
  singleton? _ := none
  callEffects _ _ := {}
  funcEffects _ := {}

end Oracle

/-- Answers recorded one by one; the latest answer to a question counts. -/
structure Tables where
  tracking : Tracking
  cells : List ((FuncId × Value) × Cell) := []
  singletons : List (Cell × Value) := []
  calls : List ((FuncId × InstId) × Effects) := []
  funcs : List (FuncId × Effects) := []

namespace Tables

variable (t : Tables)

def recordCell (func : FuncId) (ptr : Value) (cell : Cell) : Tables :=
  { t with cells := ((func, ptr), cell) :: t.cells }

def recordSingleton (cell : Cell) (object : Value) : Tables :=
  { t with singletons := (cell, object) :: t.singletons }

def recordCall (func : FuncId) (call : InstId) (effects : Effects) : Tables :=
  { t with calls := ((func, call), effects) :: t.calls }

def recordFunc (func : FuncId) (effects : Effects) : Tables :=
  { t with funcs := (func, effects) :: t.funcs }

def toOracle : Oracle where
  tracking := t.tracking
  cell? func ptr := t.cells.lookup (func, ptr)
  singleton? cell := t.singletons.lookup cell
  callEffects func call := (t.calls.lookup (func, call)).getD {}
  funcEffects func := (t.funcs.lookup func).getD {}

end Tables

end AffineFlow
