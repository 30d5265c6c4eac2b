import AffineFlow.FlowGraph.Basic
import AffineFlow.Ssa.Value

/-!
# Why lowering fails

A rejection is the answer to a function that lowering does not accept, and it
has a message. A fault is a question that has no answer at all, such as the type
of an instruction that does not exist; well-formed input never causes one.
-/
namespace AffineFlow

open Ssa

inductive Rejection where
  | unknownFunction
  | noBody (func : String)
  | variadicDefinition (func : String)
  | unknownBlock (func : String)
  | missingIncoming (func phi pred : String)
  | nonConstantField (func inst : String)
  | nonAggregateIndex (func inst type : String)
  deriving DecidableEq, Repr

def Rejection.message : Rejection → String
  | unknownFunction => "the function does not belong to the module"
  | noBody func => "function `" ++ func ++ "` has no body"
  | variadicDefinition func =>
      "variadic function `" ++ func ++ "` cannot be declared for interprocedural analysis"
  | unknownBlock func => "function `" ++ func ++ "` branches to a block outside its body"
  | missingIncoming func phi pred =>
      "phi " ++ phi ++ " in function `" ++ func ++ "` has no incoming value for block `" ++
        pred ++ "`"
  | nonConstantField func inst =>
      "address computation " ++ inst ++ " in function `" ++ func ++
        "` indexes a struct with a non-constant or out-of-range field"
  | nonAggregateIndex func inst type =>
      "address computation " ++ inst ++ " in function `" ++ func ++
        "` indexes into a non-aggregate type `" ++ type ++ "`"

inductive Fault where
  /-- The function has no first block. -/
  | emptyLayout
  | noSuchBlock (id : BlockId)
  | noSuchInst (id : InstId)
  /-- Something would have to be placed at a multiple of zero. -/
  | zeroAlignment
  /-- A variable was wanted for a value that is not tracked. -/
  | untracked (value : Value)
  /-- A variable was wanted for a literal. -/
  | literal (value : Value)
  | dangling (node : Dangling)
  deriving DecidableEq, Repr

inductive Failure where
  | rejected (reason : Rejection)
  | faulted (fault : Fault)
  deriving DecidableEq, Repr

end AffineFlow
