import AffineFlow.Arena.Lookup
import AffineFlow.FlowGraph.Basic

/-!
# Predecessors

The live blocks with an edge to a given block, by slot and without repetition.
`PredTable` holds these lists for the blocks of a graph, so that a
transformation of the graph can keep them up to date: its operations act on the
list of one block, and `insertHandle` keeps a list ordered.
-/
namespace AffineFlow

namespace FlowGraph

def predecessors (g : FlowGraph) (h : Handle) : List Handle :=
  g.nodes.handles.filter fun p => h ∈ g.succs p

theorem contains_of_mem_succs {g : FlowGraph} {p h : Handle} (hs : h ∈ g.succs p) :
    g.nodes.contains p = true := by
  unfold succs at hs
  split at hs
  next n hn => simp [Arena.contains, hn]
  next => simp at hs

theorem mem_predecessors_iff {g : FlowGraph} {p h : Handle} :
    p ∈ g.predecessors h ↔ h ∈ g.succs p := by
  simp only [predecessors, List.mem_filter, Arena.mem_handles_iff, decide_eq_true_eq]
  exact ⟨(·.2), fun hs => ⟨contains_of_mem_succs hs, hs⟩⟩

end FlowGraph

/-- Puts a handle where it belongs in an ordered list, unless it is there. -/
def insertHandle (h : Handle) : List Handle → List Handle
  | [] => [h]
  | k :: rest =>
      if h = k then k :: rest
      else if h.before k then h :: k :: rest
      else k :: insertHandle h rest

theorem mem_insertHandle {h k : Handle} {l : List Handle} :
    k ∈ insertHandle h l ↔ k = h ∨ k ∈ l := by
  induction l with
  | nil => simp [insertHandle]
  | cons m rest ih =>
      unfold insertHandle
      split
      next e => simp [e]
      split
      · simp
      · simp [ih, or_left_comm]

theorem insertHandle_pairwise {h : Handle} {l : List Handle}
    (hl : l.Pairwise fun a b => a.before b = true) :
    (insertHandle h l).Pairwise fun a b => a.before b = true := by
  induction l with
  | nil => simp [insertHandle]
  | cons m rest ih =>
      obtain ⟨hm, hrest⟩ := List.pairwise_cons.1 hl
      unfold insertHandle
      split
      · exact hl
      next hne =>
      split
      next hb =>
        refine List.pairwise_cons.2 ⟨fun k hk => ?_, hl⟩
        rcases List.mem_cons.1 hk with rfl | hk
        · exact hb
        · exact Handle.before_trans hb (hm k hk)
      next hb =>
        refine List.pairwise_cons.2 ⟨fun k hk => ?_, ih hrest⟩
        rcases mem_insertHandle.1 hk with rfl | hk
        · exact Handle.before_of_not_before hne hb
        · exact hm k hk

/-- For each block, its ordered predecessors. -/
structure PredTable where
  lists : List (Handle × List Handle)

namespace PredTable

def get? (t : PredTable) (h : Handle) : Option (List Handle) := t.lists.lookup h

theorem get?_cons (h k : Handle) (l : List Handle) (lists : List (Handle × List Handle)) :
    get? ⟨(k, l) :: lists⟩ h = if h = k then some l else get? ⟨lists⟩ h := by
  unfold get?
  by_cases hk : h = k
  · simp [hk]
  · rw [List.lookup_cons, beq_false_of_ne hk, if_neg hk]

/-- Changes the list of a block that has one. -/
def modify (t : PredTable) (h : Handle) (f : List Handle → List Handle) : PredTable :=
  ⟨t.lists.map fun p => if p.1 = h then (p.1, f p.2) else p⟩

def erase (t : PredTable) (h : Handle) : PredTable := ⟨t.lists.filter (·.1 ≠ h)⟩

theorem get?_modify (t : PredTable) (h k : Handle) (f : List Handle → List Handle) :
    (t.modify h f).get? k = if k = h then (t.get? k).map f else t.get? k := by
  obtain ⟨lists⟩ := t
  induction lists with
  | nil => simp [modify, get?]
  | cons p rest ih =>
      obtain ⟨m, l⟩ := p
      simp only [modify, List.map_cons] at ih ⊢
      by_cases hm : m = h <;> by_cases hk : k = m <;> by_cases hh : k = h <;>
        simp_all [get?_cons]

theorem get?_erase (t : PredTable) (h k : Handle) :
    (t.erase h).get? k = if k = h then none else t.get? k := by
  obtain ⟨lists⟩ := t
  induction lists with
  | nil => simp [erase, get?]
  | cons p rest ih =>
      obtain ⟨m, l⟩ := p
      simp only [erase, List.filter_cons] at ih ⊢
      by_cases hm : m = h <;> by_cases hk : k = m <;> by_cases hh : k = h <;>
        simp_all [get?_cons]

end PredTable

def FlowGraph.predTable (g : FlowGraph) : PredTable :=
  ⟨g.nodes.handles.map fun h => (h, g.predecessors h)⟩

theorem FlowGraph.get?_predTable (g : FlowGraph) (h : Handle) :
    g.predTable.get? h = if g.nodes.contains h then some (g.predecessors h) else none := by
  simp only [predTable, ← Arena.mem_handles_iff]
  induction g.nodes.handles with
  | nil => simp [PredTable.get?]
  | cons k rest ih => by_cases hk : h = k <;> simp_all [PredTable.get?_cons]

end AffineFlow
