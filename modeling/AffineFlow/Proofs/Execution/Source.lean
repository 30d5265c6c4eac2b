import AffineFlow.Lowering.Condition
import AffineFlow.Lowering.Phi
import Mathlib.Logic.Function.Basic

/-!
# Runs of the source

A run goes from block to block. On entering a block its phis take their values
all at once, then its instructions are executed in order, and then control
leaves. Integers are unbounded, an undefined value is any integer, and a
condition is one or zero. What is allowed at each of these points is a parameter
of a run, so that a run can also be looked at by somebody who does not see all
values.
-/
namespace AffineFlow

open Ssa

/-- The values of the instructions that have been executed. -/
abbrev Env := InstId → Option Int

/-- What is allowed in a run. -/
structure Rules where
  /-- The instruction may have the result. -/
  result : Env → InstId → Int → Prop
  /-- The phi may take the value where it has the incoming operand. -/
  incoming : Env → InstId → Value → Int → Prop
  /-- Control may leave by the successor occurrence with the index. -/
  leaves : Env → Terminator → Nat → Prop

/-- A block of a run, with the values on entering and on leaving it. -/
structure Visit where
  block : BlockId
  entered : Env
  left : Env

namespace Ssa.Body

variable (body : Body) (R : Rules)

def isPhi (id : InstId) : Bool := (body.inst? id).any (·.kind.isPhi)

def isComparison (id : InstId) : Bool :=
  match body.kind? (.inst id) with
  | some (.compare _ _ _) => true
  | _ => false

/-- The instructions of the list, one after the other. Phis have their values already. -/
def Executes : List InstId → Env → Env → Prop
  | [], ρ, ρ' => ρ' = ρ
  | id :: rest, ρ, ρ' =>
      if body.isPhi id then Executes rest ρ ρ'
      else ∃ n, R.result ρ id n ∧ Executes rest (Function.update ρ id (some n)) ρ'

/-- The phis of a block that is entered from `pred`. -/
structure Enters (pred : BlockId) (block : Block) (ρ ρ' : Env) : Prop where
  phi : ∀ p ∈ body.phis block, ∃ v n, incomingValue? p.2.kind pred = some v ∧
    ρ' p.1 = some n ∧ R.incoming ρ p.1 v n
  other : ∀ id, id ∉ (body.phis block).map (·.1) → ρ' id = ρ id

/-- A run through laid-out blocks, seen from where it has got to; the first visit comes first. -/
inductive Run : List Visit → Prop
  | last {v : Visit} {block : Block} : v.block ∈ body.order → body.block? v.block = some block →
      body.Executes R block.insts v.entered v.left → Run [v]
  | step {v w : Visit} {rest : List Visit} {block block' : Block} {i : Nat} :
      v.block ∈ body.order → body.block? v.block = some block →
      body.Executes R block.insts v.entered v.left → block.term.successors[i]? = some w.block →
      R.leaves v.left block.term i → body.block? w.block = some block' →
      body.Enters R v.block block' v.left w.entered → Run (w :: rest) → Run (v :: w :: rest)

/-- The visits of a run from the first block, where nothing has been executed. -/
structure Starts (r : List Visit) : Prop where
  run : body.Run R r
  entry : r.head?.map (·.block) = body.entry?
  nothing : ∀ v ∈ r.head?, v.entered = fun _ => none

end Ssa.Body

section Source

/-- The number that a literal denotes. -/
def literalValue (bits : Nat) (n : Int) : Int := if bits = 1 then (if n = 0 then 0 else 1) else n

variable (α : Nat → Int) (ρ : Env)

/-- Reading the operand may give the number, where `α` are the arguments. -/
def Ssa.Value.Reads : Value → Int → Prop
  | .inst id, n => ρ id = some n
  | .arg i, n => n = α i
  | .int bits k, n => n = literalValue bits k
  | .undef _, _ => True
  | .global _, _ => False
  | .func _, _ => False
  | .null, _ => False

def Ssa.BinaryOp.value? : BinaryOp → Int → Int → Option Int
  | .add, x, y => some (x + y)
  | .sub, x, y => some (x - y)
  | .mul, x, y => some (x * y)
  | _, _, _ => none

/-- The outcome of a comparison; an unsigned one is not different from a signed one. -/
def Ssa.Predicate.test : Predicate → Int → Int → Bool
  | .eq, x, y => x == y
  | .ne, x, y => x != y
  | .slt, x, y | .ult, x, y => decide (x < y)
  | .sle, x, y | .ule, x, y => decide (x ≤ y)
  | .sgt, x, y | .ugt, x, y => decide (y < x)
  | .sge, x, y | .uge, x, y => decide (y ≤ x)

def Ssa.InstKind.Results : InstKind → Int → Prop
  | .binary op a b, n => ∃ x y, a.Reads α ρ x ∧ b.Reads α ρ y ∧ op.value? x y = some n
  | .compare pred a b, n =>
      ∃ x y, a.Reads α ρ x ∧ b.Reads α ρ y ∧ n = (pred.test x y).toInt
  | .select c a b, n => ∃ (t : Bool) (x y : Int), c.Reads α ρ t.toInt ∧ a.Reads α ρ x ∧
      b.Reads α ρ y ∧ n = if t then x else y
  | .other _, _ => True
  | _, _ => False

def Ssa.Terminator.Leaves : Terminator → Nat → Prop
  | .br _, i => i = 0
  | .condBr c _ _, i => c.Reads α ρ (decide (i = 0)).toInt
  | .switch v cases _, 0 => ∃ n, v.Reads α ρ n ∧ n ∉ cases
  | .switch v cases _, i + 1 => ∃ n, v.Reads α ρ n ∧ cases[i]? = some n
  | _, _ => False

/-- The rules of the source with the arguments `α`. -/
def Ssa.Body.source (body : Body) (α : Nat → Int) : Rules where
  result ρ id n := ∃ inst, body.inst? id = some inst ∧ inst.kind.Results α ρ n
  incoming ρ _ v n := v.Reads α ρ n
  leaves ρ term i := term.Leaves α ρ i

end Source

namespace Scope

variable (sc : Scope)

/-- The value has no variable although it may be of an integer type. -/
def hidden (v : Value) : Bool := v.isUndef || sc.isShadow v

section Known

variable (look : Value → Option Int)

/-- The outcome of a comparison that is worked out from its operands. -/
def outcome? (c : Value) : Option Bool :=
  match sc.body.kind? c with
  | some (.compare pred a b) => (look a).bind fun x => (look b).map fun y => pred.test x y
  | _ => none

/-- Which operand a selection takes. A comparison is worked out if that is possible. -/
def chooses? (c : Value) : Option Bool :=
  match c.toInt? with
  | some n => some (n ≠ 0)
  | none => (sc.outcome? look c).or ((look c).map (· ≠ 0))

/-- The condition may be `t`. A comparison is worked out, and if it has other uses, its own value
counts too; the value of a binary instruction does not count. -/
def MayBe (c : Value) (t : Bool) : Prop :=
  match c.toInt? with
  | some n => (decide (n ≠ 0)) = t
  | none =>
      match sc.body.kind? c with
      | some (.compare _ _ _) => (∀ u, sc.outcome? look c = some u → u = t) ∧
          (2 ≤ sc.useCount c → ∀ n, look c = some n → n = t.toInt)
      | some (.binary _ _ _) => True
      | _ => ∀ n, look c = some n → n = t.toInt

end Known

/-- The rules for somebody to whom `look` tells the values, where it tells anything. -/
def known (look : Env → Value → Option Int) : Rules where
  result ρ id n := sc.hidden (.inst id) = false →
    match sc.body.kind? (.inst id) with
    | some (.binary op a b) =>
        ∀ x y, look ρ a = some x → look ρ b = some y → op.value? x y = some n
    | some (.select c a b) => ∀ t x y, sc.chooses? (look ρ) c = some t → look ρ a = some x →
        look ρ b = some y → n = if t then x else y
    | _ => True
  incoming ρ id v n := sc.hidden (.inst id) = false → ∀ x, look ρ v = some x → n = x
  leaves ρ term i :=
    match term, i with
    | .condBr c _ _, i => sc.MayBe (look ρ) c (i = 0)
    | .switch v cases _, 0 => ∀ n, look ρ v = some n → n ∉ cases
    | .switch v cases _, i + 1 => ∀ n m, look ρ v = some n → cases[i]? = some m → n = m
    | _, _ => True

/-- What is told to somebody to whom each comparison has one fixed value, which is all that is
known of it where it is read as a number. -/
def frozen (κ : InstId → Int) (α : Nat → Int) (ρ : Env) (v : Value) : Option Int :=
  if sc.hidden v then none
  else
    match v with
    | .inst id => if sc.body.isComparison id then some (κ id) else ρ id
    | .arg i => some (α i)
    | .int bits n => some (literalValue bits n)
    | _ => none

/-- The value is an integer, and within 64 bits if it is a literal. -/
def isNumber (v : Value) : Bool :=
  (match sc.typeOf v with
    | .ok ty => ty.isInt
    | .error _ => false) &&
  match v with
  | .int _ n => (fit64 n).isSome
  | _ => true

/-- Arithmetic without division, signed comparisons, selections, phis, and instructions of which
nothing is known. -/
def isNumericKind : InstKind → Bool
  | .phi incoming => incoming.all fun p => sc.isNumber p.2
  | .binary op a b => (op = .add || op = .sub || op = .mul) && sc.isNumber a && sc.isNumber b
  | .compare pred a b => !pred.isUnsigned && sc.isNumber a && sc.isNumber b
  | .select c a b => sc.isNumber c && sc.isNumber a && sc.isNumber b
  | .other _ => true
  | _ => false

def isNumericTerm : Terminator → Bool
  | .br _ => true
  | .condBr c _ _ => sc.isNumber c
  | .switch v cases targets => sc.isNumber v && (cases.all fun n => (fit64 n).isSome) &&
      targets.length = cases.length + 1
  | .ret _ => true
  | .unreachable => false

def isNumericBlock (b : BlockId) (block : Block) : Bool :=
  decide block.insts.Nodup && sc.isNumericTerm block.term &&
    block.insts.all fun id => (sc.body.inst? id).all fun inst =>
      inst.block = b && inst.ty.isInt && sc.isNumericKind inst.kind

/-- All values of the function are integers, and its instructions exact. -/
def isNumeric : Bool :=
  decide sc.body.order.Nodup &&
    sc.body.order.all fun b => (sc.body.block? b).all (sc.isNumericBlock b)

end Scope

end AffineFlow
