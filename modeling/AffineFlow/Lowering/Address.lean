import AffineFlow.Lowering.Scope

/-!
# Address computations

An address is the base plus one step per index. Steps with a known offset are
summed up front; the others each multiply their index with an element size. The
sum of known offsets has to fit in 128 bits, or the address is unknown.
-/
namespace AffineFlow

open Ssa

inductive IndexStep where
  /-- A number of bytes known up front. -/
  | offset (bytes : Int)
  /-- An index into elements of a size. -/
  | scaled (index : Value) (size : Nat)
  deriving DecidableEq, Repr

/-- The number, if it fits in 128 bits. -/
def fit128 (n : Int) : Option Int :=
  if (BitVec.intMin 128).toInt ≤ n ∧ n ≤ (BitVec.intMax 128).toInt then some n else none

namespace IndexStep

/-- A step over `index` elements; a constant index gives a known offset if that can be expressed. -/
def ofIndex (index : Value) (size : Nat) : IndexStep :=
  match (index.toInt?.bind fit64).bind fun n => fit128 (n * size) with
  | some bytes => offset bytes
  | none => scaled index size

def isKnown : IndexStep → Bool
  | offset _ => true
  | scaled _ _ => false

end IndexStep

/-- The sum of the known offsets and `acc`, if every partial sum fits in 128 bits. -/
def knownOffset (acc : Int) : List IndexStep → Option Int
  | [] => some acc
  | .offset bytes :: rest =>
      match fit128 (acc + bytes) with
      | some acc => knownOffset acc rest
      | none => none
  | .scaled _ _ :: rest => knownOffset acc rest

/-- The field that a constant selects among `count` fields. -/
def fieldIndex? (index : Value) (count : Nat) : Option Nat :=
  index.toInt?.bind fun n => if 0 ≤ n ∧ n < count then some n.toNat else none

namespace Scope

variable (sc : Scope)

/-- The steps of the indices after the first, which descend into an aggregate. An extension of an
index is read as its operand. -/
def descend (id : InstId) : Ty → List Value → Except Rejection (List IndexStep)
  | _, [] => .ok []
  | .struct fields, index :: rest =>
      match fieldIndex? (sc.beneathExtension index) fields.length with
      | none => .error (.nonConstantField sc.func.name (sc.messageName id))
      | some field =>
          (descend id (fields.getD field .blackbox) rest).map
            (.offset (sc.program.layout.fieldOffset fields field) :: ·)
  | .array elem _, index :: rest =>
      (descend id elem rest).map
        (.ofIndex (sc.beneathExtension index) (sc.program.layout.allocSize elem) :: ·)
  | ty, _ :: _ => .error (.nonAggregateIndex sc.func.name (sc.messageName id) ty.text)

/-- One step per index. -/
def indexSteps (id : InstId) (sourceTy : Ty) (indices : List Value) :
    Lowering (List IndexStep) :=
  match indices with
  | [] => return []
  | first :: rest =>
      if sc.program.layout.measurable sourceTy then
        match sc.descend id sourceTy rest with
        | .error reason => .reject reason
        | .ok steps =>
            let size := sc.program.layout.allocSize sourceTy
            return .ofIndex (sc.beneathExtension first) size :: steps
      else .fault .zeroAlignment

/-- Adds the scaled steps to `dst` one by one, and tells whether all of them could be expressed. -/
def scaledCode (dst : Var) : List IndexStep → Lowering (List Stmt × Bool)
  | [] => return ([], true)
  | .offset _ :: rest => scaledCode dst rest
  | .scaled index size :: rest => do
      match ← sc.express index with
      | none => return (sc.forget dst, false)
      | some index =>
          let scaled ← Lowering.temporary
          let (stmts, complete) ← scaledCode dst rest
          return (.arith .mul scaled index (.const size) ::
            .arith .add dst (.ofVar dst) (.ofVar scaled) :: stmts, complete)

/-- The code that gives `dst` the address reached from `base` by the steps. -/
def stepsCode (dst : Var) (base : AffineForm) (steps : List IndexStep) :
    Lowering (List Stmt) := do
  match knownOffset 0 steps with
  | none => return sc.forget dst
  | some offset =>
      if steps.all (·.isKnown) then
        return [.arith .add dst base (.const offset)]
      else
        let (stmts, complete) ← sc.scaledCode dst steps
        let last := if complete && offset ≠ 0 then
          [Stmt.arith .add dst (.ofVar dst) (.const offset)] else []
        return .assign dst base :: (stmts ++ last)

/-- The address is wanted by something that the graph models. -/
def isAddressWanted (id : InstId) : Except Fault Bool :=
  if sc.settings.integersOnly then .ok false else (sc.onlyUnmodelledUses id).map (!·)

def addressCode (id : InstId) (base : Value) (sourceTy : Ty) (indices : List Value) :
    Lowering (List Stmt) :=
  .onlyIf (sc.tracks (.inst id)) do
    let dst ← sc.variableOf (.inst id)
    if ← .ofExcept (sc.isAddressWanted id) then
      match ← sc.express base with
      | none => return sc.forget dst
      | some ptr => sc.stepsCode dst ptr (← sc.indexSteps id sourceTy indices)
    else return sc.forget dst

end Scope

end AffineFlow
