import AffineFlow.Ssa.Instruction

/-!
# Functions of the source language

A body is a table of blocks, a table of instructions, and the order in which
the blocks are laid out. A block lists its instructions by number, and a block
that is not in the order does not take part in anything.
-/
namespace AffineFlow.Ssa

inductive Terminator where
  | unreachable
  | br (target : BlockId)
  | condBr (cond : Value) (onTrue onFalse : BlockId)
  /-- The first target is the default; the one after the `i`-th is taken on the `i`-th case. -/
  | switch (value : Value) (cases : List Int) (targets : List BlockId)
  | ret (value : Option Value)

namespace Terminator

def successors : Terminator → List BlockId
  | unreachable => []
  | br target => [target]
  | condBr _ onTrue onFalse => [onTrue, onFalse]
  | switch _ _ targets => targets
  | ret _ => []

def operand? : Terminator → Option Value
  | unreachable => none
  | br _ => none
  | condBr cond _ _ => some cond
  | switch value _ _ => some value
  | ret value => value

end Terminator

structure Block where
  name : String
  insts : List InstId
  term : Terminator

structure Body where
  blocks : Array Block
  insts : Array Inst
  /-- The layout order; the first block is the entry. -/
  order : List BlockId

namespace Body

variable (body : Body)

def block? (id : BlockId) : Option Block := body.blocks[id.index]?

def inst? (id : InstId) : Option Inst := body.insts[id.index]?

/-- The kind of the instruction that the value is the result of. -/
def kind? (value : Value) : Option InstKind :=
  (value.toInst?.bind body.inst?).map (·.kind)

def entry? : Option BlockId := body.order.head?

/-- The leading instructions of the block that are phis. -/
def phis (block : Block) : List (InstId × Inst) :=
  (block.insts.map fun id => (id, body.inst? id)).takeWhile
      (fun p => p.2.any (·.kind.isPhi))
    |>.filterMap fun p => p.2.map (p.1, ·)

end Body

/-- A block as it is written: each instruction stands where it belongs. -/
structure WrittenBlock where
  name : String
  insts : List (Option String × Ty × InstKind)
  term : Terminator

/-- Numbers the instructions through the whole listing and the blocks in listing order. -/
def Body.ofListing (blocks : List WrittenBlock) : Body :=
  let step (body : Body) (b : WrittenBlock) : Body :=
    let block : BlockId := ⟨body.blocks.size⟩
    { blocks := body.blocks.push
        { name := b.name
          insts := (List.range b.insts.length).map fun i => ⟨body.insts.size + i⟩
          term := b.term }
      insts := body.insts ++
        (b.insts.map fun i => { name := i.1, ty := i.2.1, kind := i.2.2, block }).toArray
      order := body.order ++ [block] }
  blocks.foldl step ⟨#[], #[], []⟩

structure Param where
  name : String
  ty : Ty

structure Function where
  name : String
  params : List Param
  ret : Ty
  varArg : Bool := false
  body : Option Body := none

/-- The text starts with the characters of `stem`. -/
def startsWith (stem text : String) : Bool := stem.toList.isPrefixOf text.toList

namespace Function

variable (func : Function)

def isDeclaration : Bool := func.body.isNone

def isIntrinsic : Bool := startsWith "llvm." func.name

/-- The type of a value as seen from inside the function, or the instruction that the function
does not have. A declaration knows nothing about instruction results. -/
def typeOf : Value → Except InstId Ty
  | .inst id =>
      match func.body with
      | some body =>
          match body.inst? id with
          | some inst => .ok inst.ty
          | none => .error id
      | none => .ok .blackbox
  | .arg index => .ok ((func.params[index]?.map (·.ty)).getD .blackbox)
  | .global _ => .ok .ptr
  | .func _ => .ok .ptr
  | .null => .ok .ptr
  | .int bits _ => .ok (.int bits)
  | .undef (some bits) => .ok (.int bits)
  | .undef none => .ok .blackbox

end Function

end AffineFlow.Ssa
