import AffineFlow.Ssa.Module
import AffineFlow.Ssa.Uses
import AffineFlow.Stmt
import AffineFlow.Lowering.Basic

/-!
# The scope of a lowering

The function that is lowered, with everything that its lowering consults.
Integer values are tracked, and pointers too where memory is modelled; a tracked
value that is not a literal has a variable, and `express` gives the affine form
of whatever can be expressed.
-/
namespace AffineFlow

open Ssa

structure Settings where
  /-- Remove unreachable blocks and merge straight lines at the end. -/
  simplify : Bool := false
  /-- Only integers flow into the graph, no addresses. -/
  integersOnly : Bool := false
  /-- Write havocs also where the variable is unconstrained anyway. -/
  explicitHavoc : Bool := true
  /-- Write call sites, returns and a declaration. -/
  interprocedural : Bool := false
  /-- The function where the program starts. -/
  entryFunc : String := "main"
  deriving Repr

/-- The number, if it fits in 64 bits. Wider constants are not expressible. -/
def fit64 (n : Int) : Option Int :=
  if (BitVec.intMin 64).toInt ≤ n ∧ n ≤ (BitVec.intMax 64).toInt then some n else none

/-- Values whose name starts like this are bookkeeping of the memory model. -/
def shadowStem : String := "shadow.mem"

def VarType.ofTy : Ty → VarType
  | .int _ => .int
  | .ptr => .ptr
  | _ => .unknown

structure Scope where
  program : Module
  funcId : FuncId
  func : Function
  body : Body
  oracle : Oracle
  settings : Settings

namespace Scope

variable (sc : Scope)

def modelsMemory : Bool := sc.oracle.modelsMemory

/-- The program starts in this function. -/
def isProgramEntry : Bool := sc.func.name == sc.settings.entryFunc

def typeOf (v : Value) : Except Fault Ty := (sc.func.typeOf v).mapError .noSuchInst

def hasIntType (v : Value) : Except Fault Bool := (sc.typeOf v).map (·.isInt)

/-- How an instruction is called in messages. -/
def messageName (id : InstId) : String :=
  match (sc.body.inst? id).bind (·.name) with
  | some name => "%" ++ name
  | none => "InstId(" ++ Nat.repr (id.index + 1) ++ "v1)"

def name? : Value → Option String
  | .inst id => (sc.body.inst? id).bind (·.name)
  | .arg index => sc.func.params[index]?.map (·.name)
  | .global id => (sc.program.global? id).map (·.name)
  | .func id => (sc.program.func? id).map (·.name)
  | .int _ _ => none
  | .null => none
  | .undef _ => none

def isShadow (v : Value) : Bool := (sc.name? v).any (startsWith shadowStem)

def tracksType : Ty → Bool
  | .int _ => true
  | .ptr => sc.modelsMemory
  | _ => false

/-- The value is one that the graph follows. -/
def tracks (v : Value) : Except Fault Bool :=
  if v.isUndef || sc.isShadow v then .ok false else (sc.typeOf v).map sc.tracksType

/-- What the variable of a value stands for; literals have no variable. -/
def referent? (v : Value) : Option Referent :=
  match v with
  | .inst _ => some (.value sc.funcId v)
  | .arg _ => some (.value sc.funcId v)
  | .global id => some (.global id)
  | .func id => some (.func id)
  | .int _ _ => none
  | .null => none
  | .undef _ => none

/-- The name that the variable of a value asks for. -/
def wantedName? (v : Value) : Option String :=
  match v with
  | .global _ => (sc.name? v).map ("@" ++ ·)
  | _ => sc.name? v

/-- The variable of a tracked value that is not a literal. -/
def variableOf (v : Value) : Lowering Var := do
  if ← .ofExcept (sc.tracks v) then
    match sc.referent? v with
    | some r => .request r (sc.wantedName? v)
    | none => .fault (.literal v)
  else .fault (.untracked v)

def functionVariable (id : FuncId) : Lowering Var :=
  .request (.func id) ((sc.program.func? id).map (·.name))

/-- The form that denotes the value, if it can be expressed. -/
def express (v : Value) : Lowering (Option AffineForm) := do
  match v with
  | .int bits n =>
      if bits = 1 then return some (.const (if n = 0 then 0 else 1))
      else return (fit64 n).map .const
  | .null => return if sc.modelsMemory then some (.const 0) else none
  | .undef _ => return none
  | _ =>
      if ← .ofExcept (sc.tracks v) then
        return some (.ofVar (← sc.variableOf v))
      else return none

/-- The use cannot carry the value into the graph: an access to memory that is not modelled, or a
bookkeeping call. -/
def isUnmodelledUse : User → Except Fault Bool
  | .term _ => .ok false
  | .inst id =>
      match sc.body.inst? id with
      | none => .ok false
      | some user =>
          match user.kind with
          | .store value _ => (sc.hasIntType value).map (!·)
          | .load _ => .ok !user.ty.isInt
          | .call (.direct callee) _ =>
              .ok ((sc.program.func? callee).any fun f =>
                startsWith "llvm.dbg" f.name || startsWith shadowStem f.name)
          | _ => .ok false

/-- No use carries the value into the graph; also true without any use. -/
def onlyUnmodelledUses (id : InstId) : Except Fault Bool :=
  (sc.body.users id).allM sc.isUnmodelledUse

def onlyAddressUses (id : InstId) : Bool :=
  (sc.body.users id).all fun
    | .inst user => (sc.body.inst? user).any (·.kind.isAddress)
    | .term _ => false

/-- The operand of an extension; any other value as it is. -/
def beneathExtension (v : Value) : Value :=
  match sc.body.kind? v with
  | some (.cast op operand) => if op.isExtension then operand else v
  | _ => v

def beneathZeroExtension (v : Value) : Value :=
  match sc.body.kind? v with
  | some (.cast .zext operand) => operand
  | _ => v

/-- A havoc, where the settings want one to be written. -/
def forget (v : Var) : List Stmt := if sc.settings.explicitHavoc then [.havoc v] else []

/-- Forgets the result of an instruction, if it is tracked. -/
def forgetResult (id : InstId) : Lowering (List Stmt) :=
  .onlyIf (sc.tracks (.inst id)) do return sc.forget (← sc.variableOf (.inst id))

/-- The cell that the pointer points into. -/
def cellAt? (ptr : Value) : Option Cell := sc.oracle.cell? sc.funcId ptr

/-- The variable of the object that a cell stands for, if there is just one. -/
def objectVariable? (c : Cell) : Lowering (Option Var) := do
  match sc.oracle.singleton? c with
  | none => return none
  | some object =>
      if object.isLiteral then return none
      else if ← .ofExcept (sc.tracks object) then return some (← sc.variableOf object)
      else return none

/-- The cells as they stand in lists of arguments and parameters. -/
def cellVariables : List Cell → Lowering (List TypedVar)
  | [] => return []
  | c :: rest => do
      let array ← Lowering.cellVariable c
      return (array, .arr) :: (← cellVariables rest)

end Scope

end AffineFlow
