import AffineFlow.Arena
import AffineFlow.Label
import AffineFlow.Stmt

/-!
# Flow graphs

Blocks of statements with ordered successors, one entry and one exit. Blocks
sit in an arena, so removing one leaves the handles of the others alone; a
successor that was removed stays in the list as a dangling handle, and whoever
follows it fails.
-/
namespace AffineFlow

/-- A basic block: its statements run in order, then control goes to any successor. -/
structure Node where
  label : String
  stmts : List Stmt := []
  succs : List Handle := []
  deriving DecidableEq

/-- The block that a handle refers to is gone. -/
structure Dangling where
  handle : Handle
  deriving DecidableEq, Repr

/-- The signature of the function that a graph was made from. -/
structure Declaration where
  name : Var
  /-- `none` if the function returns nothing. -/
  ret : Option VarType
  params : List TypedVar
  deriving DecidableEq

structure FlowGraph where
  nodes : Arena Node
  entry : Handle
  exit : Handle
  decl : Option Declaration := none
  labels : LabelCounts

namespace Node

/-- Puts statements before the ones of the block. -/
def prepend (n : Node) (stmts : List Stmt) : Node := { n with stmts := stmts ++ n.stmts }

def append (n : Node) (stmts : List Stmt) : Node := { n with stmts := n.stmts ++ stmts }

/-- Adds an edge, once. -/
def connect (n : Node) (target : Handle) : Node :=
  if target ∈ n.succs then n else { n with succs := n.succs ++ [target] }

def isUnreachable (n : Node) : Bool := n.stmts.any (· == .unreachable)

end Node

namespace FlowGraph

variable (g : FlowGraph)

/-- The block of a handle. -/
def node (h : Handle) : Except Dangling Node :=
  match g.nodes.get? h with
  | some n => .ok n
  | none => .error ⟨h⟩

/-- The successors of a block; a handle without a block has none. -/
def succs (h : Handle) : List Handle :=
  match g.nodes.get? h with
  | some n => n.succs
  | none => []

def modifyNode (h : Handle) (f : Node → Node) : FlowGraph :=
  { g with nodes := g.nodes.modify h f }

def removeNode (h : Handle) : FlowGraph := { g with nodes := g.nodes.erase h }

/-- A graph of one empty block that is both entry and exit. -/
def singleton (label : String) : FlowGraph where
  nodes := Arena.empty.insert { label }
  entry := (Arena.empty (α := Node)).nextHandle
  exit := (Arena.empty (α := Node)).nextHandle
  labels := (LabelCounts.claim {} label).2

/-- Adds an empty block under a label that is new in the graph. Its handle is
`g.nodes.nextHandle`. -/
def insertNode (base : String) : FlowGraph :=
  { g with
    nodes := g.nodes.insert { label := (g.labels.claim base).1 }
    labels := (g.labels.claim base).2 }

/-- Adds an edge, once. -/
def connect (source target : Handle) : FlowGraph := g.modifyNode source (·.connect target)

def append (h : Handle) (stmts : List Stmt) : FlowGraph := g.modifyNode h (·.append stmts)

def prepend (h : Handle) (stmts : List Stmt) : FlowGraph := g.modifyNode h (·.prepend stmts)

def byLabel? (label : String) : Option Handle :=
  (g.nodes.entries.find? (·.2.label == label)).map (·.1)

end FlowGraph

end AffineFlow
