import AffineFlow.Ssa.Function

/-!
# Uses of instruction results

Where the result of an instruction is an operand, one entry per occurrence.
Only laid-out blocks count.
-/
namespace AffineFlow.Ssa

inductive User where
  | inst (id : InstId)
  | term (block : BlockId)
  deriving DecidableEq, Repr

namespace Body

variable (body : Body)

/-- The occurrences of instruction results in one instruction. -/
def instOccurrences (id : InstId) : List (InstId × User) :=
  match body.inst? id with
  | some inst => inst.kind.operands.filterMap fun v => v.toInst?.map (·, .inst id)
  | none => []

/-- The occurrences of instruction results in one block, its terminator last. -/
def blockOccurrences (id : BlockId) : List (InstId × User) :=
  match body.block? id with
  | some block =>
      block.insts.flatMap body.instOccurrences ++
        ((block.term.operand?.bind Value.toInst?).map (·, .term id)).toList
  | none => []

def occurrences : List (InstId × User) := body.order.flatMap body.blockOccurrences

/-- The users of an instruction in layout order; what does not exist has none. -/
def users (id : InstId) : List User :=
  if (body.inst? id).isSome then
    (body.occurrences.filter (·.1 = id)).map (·.2)
  else []

end Body

end AffineFlow.Ssa
