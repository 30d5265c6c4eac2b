import AffineFlow.FlowGraph.Merge
import AffineFlow.Lowering.Assembly
import AffineFlow.Lowering.Prologue

/-!
# Lowering of functions and modules

A function becomes a flow graph: the code of its blocks is produced in layout
order, assembled, and preceded by the prologue. The functions of a module share
one supply of variables, so the graphs can refer to each other's globals, cells
and functions.
-/
namespace AffineFlow

open Ssa

namespace Scope

/-- The scope of a function, if it can be lowered at all. -/
def ofFunction (program : Module) (id : FuncId) (oracle : Oracle) (settings : Settings) :
    Except Rejection Scope :=
  match program.func? id with
  | none => .error .unknownFunction
  | some func =>
      match func.body with
      | none => .error (.noBody func.name)
      | some body =>
          if settings.interprocedural && func.varArg then
            .error (.variadicDefinition func.name)
          else .ok ⟨program, id, func, body, oracle, settings⟩

variable (sc : Scope)

/-- The blocks of the list with their names. Each one exists, and so do its instructions. -/
def namedBlocks : List BlockId → Except Fault (List (BlockId × String))
  | [] => .ok []
  | id :: rest =>
      match sc.body.block? id with
      | none => .error (.noSuchBlock id)
      | some block =>
          match block.insts.find? fun i => (sc.body.inst? i).isNone with
          | some i => .error (.noSuchInst i)
          | none => (namedBlocks rest).map ((id, block.name) :: ·)

/-- The code of the laid-out blocks in a graph. -/
def assemble (entry : BlockId × String) (others : List (BlockId × String)) :
    Lowering FlowGraph := do
  let codes ← sc.blocksCode sc.body.order
  let assembly := Assembly.addBlocks codes (.ofLayout entry others)
  if assembly.returning.length = 1 then return assembly.finish
  else
    Lowering.tell (.unifyingReturns assembly.returning.length)
    return assembly.finish

/-- The graph of the function before simplification. -/
def plainGraph : Lowering FlowGraph := do
  match ← .ofExcept (sc.namedBlocks sc.body.order) with
  | [] => .fault .emptyLayout
  | entry :: others =>
      let graph ← sc.assemble entry others
      let (decl, stmts) ← sc.prologue
      return { graph.prepend graph.entry stmts with decl }

def graph : Lowering FlowGraph := do
  let plain ← sc.plainGraph
  let graph ← if sc.settings.simplify then .ofNoted plain.simplify else pure plain
  let minted := (← get).supply.size
  Lowering.tell (.built sc.func.name graph.nodes.size minted)
  return graph

end Scope

/-- The flow graph of a function. -/
def functionGraph (program : Module) (id : FuncId) (oracle : Oracle) (settings : Settings) :
    Lowering FlowGraph :=
  match Scope.ofFunction program id oracle settings with
  | .error reason => .reject reason
  | .ok sc => sc.graph

def functionGraphs (program : Module) (oracle : Oracle) (settings : Settings) :
    List FuncId → Lowering (List (FuncId × FlowGraph))
  | [] => return []
  | id :: rest => do
      let graph ← functionGraph program id oracle settings
      return (id, graph) :: (← functionGraphs program oracle settings rest)

/-- The functions of a module that have a body. -/
def Ssa.Module.defined (program : Module) : List FuncId :=
  program.funcIds.filter fun id => (program.func? id).any fun func => !func.isDeclaration

/-- The flow graphs of all functions that have a body, in order. -/
def moduleGraphs (program : Module) (oracle : Oracle) (settings : Settings) :
    Lowering (List (FuncId × FlowGraph)) :=
  functionGraphs program oracle settings program.defined

end AffineFlow
