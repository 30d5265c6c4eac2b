import AffineFlow.FlowGraph.ReversePostorder
import AffineFlow.StmtText

/-!
# Written flow graphs

The signature if there is one, the entry and the exit, then the blocks: first
the reachable ones in reverse postorder, then the others by slot. A graph with
a dangling edge has no written form.
-/
namespace AffineFlow

def Declaration.text (names : Naming) (d : Declaration) : String :=
  (match d.ret with
    | some type => type.text
    | none => "void") ++
    " " ++ names d.name ++ "(" ++ commaSeparated (d.params.map (typedText names)) ++ ")"

namespace FlowGraph

variable (g : FlowGraph)

def nodeText (names : Naming) (h : Handle) : Except Dangling String := do
  let n ← g.node h
  let targets ← n.succs.mapM fun s => return (← g.node s).label
  let stmts := String.join (n.stmts.map fun s => "  " ++ s.text names ++ ";\n")
  let jump := if targets.isEmpty then "" else "  goto " ++ commaSeparated targets ++ ";\n"
  return "\n" ++ n.label ++ ":\n" ++ stmts ++ jump

def text (names : Naming) : Except Dangling String := do
  let order ← g.reversePostorder
  let decl := match g.decl with
    | some d => "decl " ++ d.text names ++ "\n"
    | none => ""
  let entry ← g.node g.entry
  let exit ← g.node g.exit
  let blocks ← (order ++ g.unlisted order).mapM (g.nodeText names)
  return decl ++ "entry " ++ entry.label ++ ", exit " ++ exit.label ++ "\n" ++ String.join blocks

end FlowGraph

end AffineFlow
