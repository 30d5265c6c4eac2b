import AffineFlow.Ssa.Function
import AffineFlow.Ssa.Layout

/-!
# Modules of the source language

What is lowered at a time: functions and globals in the order in which they were
added, with the data layout of the target.
-/
namespace AffineFlow.Ssa

inductive Initializer where
  /-- Every byte is zero. -/
  | zero
  | int (value : Int)
  /-- The values one after the other, each of type `elem`. -/
  | data (elem : Ty) (values : List Int)
  /-- The initializer of another global. -/
  | «alias» (target : GlobalId)
  | other

structure Global where
  name : String
  ty : Ty
  init : Option Initializer

structure Module where
  layout : DataLayout := {}
  funcs : Array Function := #[]
  globals : Array Global := #[]

namespace Module

variable (m : Module)

def func? (id : FuncId) : Option Function := m.funcs[id.index]?

def global? (id : GlobalId) : Option Global := m.globals[id.index]?

def funcIds : List FuncId := (List.range m.funcs.size).map fun i => ⟨i⟩

def globalIds : List GlobalId := (List.range m.globals.size).map fun i => ⟨i⟩

end Module

end AffineFlow.Ssa
