import AffineFlow.Note
import AffineFlow.Lowering.Failure
import AffineFlow.VarSupply

/-!
# Lowering computations

A lowering computation mints variables and makes notes while it produces its result. Both
outlive a failure: what was minted stays minted.
-/
namespace AffineFlow

structure Session where
  supply : VarSupply := {}
  notes : List Note := []

abbrev Lowering (α : Type) : Type := EStateM Failure Session α

namespace Lowering

variable {α : Type}

def tell (n : Note) : Lowering Unit := modify fun s => { s with notes := s.notes ++ [n] }

def reject (reason : Rejection) : Lowering α := throw (.rejected reason)

def fault (f : Fault) : Lowering α := throw (.faulted f)

/-- A new variable that stands for nothing in the source. -/
def temporary : Lowering Var :=
  modifyGet fun s => (s.supply.next, { s with supply := s.supply.mintTemporary })

/-- The variable of a referent. -/
def request (r : Referent) (name : Option String) : Lowering Var :=
  modifyGet fun s =>
    ((s.supply.request r name).1, { s with supply := (s.supply.request r name).2 })

/-- The array variable of a cell. -/
def cellVariable (c : Cell) : Lowering Var := request (.cell c) (some c.text)

def ofExcept : Except Fault α → Lowering α
  | .ok a => pure a
  | .error f => fault f

/-- The code, where the condition holds; otherwise no code. -/
def onlyIf {β : Type} (condition : Except Fault Bool) (code : Lowering (List β)) :
    Lowering (List β) := do
  if ← ofExcept condition then code else return []

/-- Takes over the notes and the outcome of a computation on flow graphs. -/
def ofNoted (c : Noted Dangling α) : Lowering α := fun s =>
  match c s.notes with
  | .ok a notes => .ok a { s with notes }
  | .error e notes => .error (.faulted (.dangling e)) { s with notes }

end Lowering

end AffineFlow
