import AffineFlow.Lowering.Scope

/-!
# Phis along an edge

All phis of a block take their values at once, when control enters it. Along an
edge they become assignments, one after the other, so a phi that another one
reads is first saved in a temporary.
-/
namespace AffineFlow

open Ssa

/-- A phi with the value that it takes along the edge at hand. -/
structure IncomingPhi where
  id : InstId
  ty : Ty
  value : Value

/-- The value that a phi takes coming from a block. -/
def incomingValue? (kind : InstKind) (pred : BlockId) : Option Value :=
  match kind with
  | .phi incoming => incoming.lookup pred
  | _ => none

/-- What the saved phis were before the edge. -/
abbrev SavedPhis := List (Value × AffineForm)

namespace Scope

variable (sc : Scope)

def incomingPhis (pred : BlockId) (predName : String) :
    List (InstId × Inst) → Except Rejection (List IncomingPhi)
  | [] => .ok []
  | (id, inst) :: rest =>
      match incomingValue? inst.kind pred with
      | none => .error (.missingIncoming sc.func.name (sc.messageName id) predName)
      | some value => (incomingPhis pred predName rest).map (⟨id, inst.ty, value⟩ :: ·)

/-- The phi is of a type that flows into the graph. -/
def phiFlows (p : IncomingPhi) : Bool := !sc.settings.integersOnly || p.ty.isInt

/-- The value is a phi of the block. -/
def isPhiOf (block : BlockId) (v : Value) : Bool :=
  (v.toInst?.bind sc.body.inst?).any fun inst => inst.kind.isPhi && inst.block = block

/-- The value that the phi takes is another phi of the block that has to be saved. -/
def needsSaving (block : BlockId) (saved : SavedPhis) (p : IncomingPhi) : Except Fault Bool :=
  (sc.tracks p.value).map fun tracked =>
    tracked && sc.phiFlows p && sc.isPhiOf block p.value && (saved.lookup p.value).isNone

/-- Saves every phi of the block that another one reads. -/
def savePhis (block : BlockId) :
    SavedPhis → List IncomingPhi → Lowering (SavedPhis × List Stmt)
  | saved, [] => return (saved, [])
  | saved, p :: rest => do
      if ← .ofExcept (sc.needsSaving block saved p) then
        match ← sc.express p.value with
        | none => savePhis block saved rest
        | some e =>
            let old ← Lowering.temporary
            let (saved, stmts) ← savePhis block ((p.value, .ofVar old) :: saved) rest
            return (saved, .assign old e :: stmts)
      else savePhis block saved rest

/-- What a value was before the edge. -/
def expressBefore (saved : SavedPhis) (v : Value) : Lowering (Option AffineForm) :=
  match saved.lookup v with
  | some e => return some e
  | none => sc.express v

/-- Gives every phi its value. -/
def assignPhis (saved : SavedPhis) : List IncomingPhi → Lowering (List Stmt)
  | [] => return []
  | p :: rest => do
      if (← .ofExcept (sc.tracks (.inst p.id))) && sc.phiFlows p then
        let lhs ← sc.variableOf (.inst p.id)
        match ← sc.expressBefore saved p.value with
        | some e => return .assign lhs e :: (← assignPhis saved rest)
        | none => return .havoc lhs :: (← assignPhis saved rest)
      else assignPhis saved rest

/-- The code that carries out the phis of a block when control comes from `pred`. -/
def phiCode (target : BlockId) (targetBlock : Block) (pred : BlockId) (predName : String) :
    Lowering (List Stmt) := do
  match sc.incomingPhis pred predName (sc.body.phis targetBlock) with
  | .error reason => .reject reason
  | .ok [] => return []
  | .ok (p :: rest) =>
      Lowering.tell (.resolvingPhis (rest.length + 1) targetBlock.name predName)
      let (saved, saves) ← sc.savePhis target [] (p :: rest)
      return saves ++ (← sc.assignPhis saved (p :: rest))

end Scope

end AffineFlow
