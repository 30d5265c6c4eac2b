import AffineFlow.Proofs.Assembly.Growth
import AffineFlow.Proofs.PlainGraph

/-!
# Where statements come from

However a graph is assembled and simplified, its blocks stay put together from
whole pieces of code: the code of a block, of an edge, or the prologue. Nothing
is asked of the layout here; a block that is laid out twice has its code twice.
-/
namespace AffineFlow

open Ssa

namespace FlowGraph

variable {g g' : FlowGraph} {parts parts' : List (List Stmt)} {h k : Handle} {n : Node}

/-- Every statement of the graph stands in one of the parts, and the part in the block. -/
def ComposedOf (g : FlowGraph) (parts : List (List Stmt)) : Prop :=
  ∀ k n, g.nodes.get? k = some n → ∀ stmt ∈ n.stmts, ∃ part ∈ parts, stmt ∈ part ∧ part <:+: n.stmts

namespace ComposedOf

theorem mono (hg : g.ComposedOf parts) (hsub : parts ⊆ parts') : g.ComposedOf parts' := by
  intro k n hn stmt hs
  obtain ⟨part, hp, hmem, hinfix⟩ := hg k n hn stmt hs
  exact ⟨part, hsub hp, hmem, hinfix⟩

/-- Blocks whose statements are those of blocks that were there change nothing. -/
theorem of_stmts (hg : g.ComposedOf parts)
    (hk : ∀ k n', g'.nodes.get? k = some n' →
      ∃ k' n, g.nodes.get? k' = some n ∧ n'.stmts = n.stmts) : g'.ComposedOf parts := by
  intro k n' hn'
  obtain ⟨k', n, hn, he⟩ := hk k n' hn'
  rw [he]
  exact hg k' n hn

theorem insertNode (hg : g.ComposedOf parts) (base : String) :
    (g.insertNode base).ComposedOf parts := by
  intro k n hn
  rw [get?_insertNode] at hn
  split at hn
  next =>
    obtain rfl := Option.some.inj hn
    exact nofun
  next => exact hg k n hn

theorem connect (hg : g.ComposedOf parts) (h target : Handle) :
    (g.connect h target).ComposedOf parts := by
  apply hg.of_stmts
  intro k n' hn'
  rw [get?_connect] at hn'
  split at hn'
  next =>
    obtain ⟨n, hn, rfl⟩ := Option.map_eq_some_iff.1 hn'
    refine ⟨k, n, hn, ?_⟩
    unfold Node.connect
    split
    · rfl
    · rfl
  next => exact ⟨k, n', hn', rfl⟩

/-- Statements at an end of a block leave the parts in it whole. -/
theorem modifyNode {stmts : List Stmt} {f : Node → Node} (hg : g.ComposedOf parts)
    (hf : ∀ n : Node, (f n).stmts = n.stmts ++ stmts ∨ (f n).stmts = stmts ++ n.stmts)
    (h : Handle) : (g.modifyNode h f).ComposedOf (stmts :: parts) := by
  intro k n' hn' stmt hs
  have hget : (g.modifyNode h f).nodes.get? k =
      if k = h then (g.nodes.get? k).map f else g.nodes.get? k := g.nodes.get?_modify h k f
  rw [hget] at hn'
  split at hn'
  next =>
    obtain ⟨n, hn, rfl⟩ := Option.map_eq_some_iff.1 hn'
    have hwhole : stmts <:+: (f n).stmts ∧ n.stmts <:+: (f n).stmts := by
      rcases hf n with he | he
      · rw [he]
        exact ⟨(List.suffix_append _ _).isInfix, (List.prefix_append _ _).isInfix⟩
      · rw [he]
        exact ⟨(List.prefix_append _ _).isInfix, (List.suffix_append _ _).isInfix⟩
    have hmem : stmt ∈ n.stmts ∨ stmt ∈ stmts := by
      rcases hf n with he | he
      · exact List.mem_append.1 (he ▸ hs)
      · exact (List.mem_append.1 (he ▸ hs)).symm
    rcases hmem with hmem | hmem
    · obtain ⟨part, hp, hin, hinfix⟩ := hg k n hn stmt hmem
      exact ⟨part, List.mem_cons_of_mem _ hp, hin, hinfix.trans hwhole.2⟩
    · exact ⟨stmts, List.mem_cons_self, hmem, hwhole.1⟩
  next =>
    obtain ⟨part, hp, hin, hinfix⟩ := hg k n' hn' stmt hs
    exact ⟨part, List.mem_cons_of_mem _ hp, hin, hinfix⟩

theorem append (hg : g.ComposedOf parts) (h : Handle) (stmts : List Stmt) :
    (g.append h stmts).ComposedOf (stmts :: parts) :=
  hg.modifyNode (fun _ => .inl rfl) h

theorem prepend (hg : g.ComposedOf parts) (h : Handle) (stmts : List Stmt) :
    (g.prepend h stmts).ComposedOf (stmts :: parts) :=
  hg.modifyNode (fun _ => .inr rfl) h

end ComposedOf

/-- Blocks may come and change, but none of them goes, and the entry stays. -/
structure GrownFrom (g' g : FlowGraph) : Prop where
  entry_eq : g'.entry = g.entry
  live : ∀ k, g.nodes.contains k = true → g'.nodes.contains k = true

namespace GrownFrom

theorem refl (g : FlowGraph) : g.GrownFrom g := ⟨rfl, fun _ h => h⟩

theorem trans {g'' : FlowGraph} (h : g''.GrownFrom g') (h' : g'.GrownFrom g) : g''.GrownFrom g :=
  ⟨h.entry_eq.trans h'.entry_eq, fun k hk => h.live k (h'.live k hk)⟩

theorem insertNode (g : FlowGraph) (base : String) : (g.insertNode base).GrownFrom g := by
  refine ⟨rfl, fun k hk => ?_⟩
  rw [Arena.contains, get?_insertNode, if_neg (ne_nextHandle hk)]
  exact hk

theorem modifyNode (g : FlowGraph) (h : Handle) (f : Node → Node) :
    (g.modifyNode h f).GrownFrom g := by
  refine ⟨rfl, fun k hk => ?_⟩
  have hget : (g.modifyNode h f).nodes.get? k =
      if k = h then (g.nodes.get? k).map f else g.nodes.get? k := g.nodes.get?_modify h k f
  rw [Arena.contains, hget]
  split
  · rw [Option.isSome_map]
    exact hk
  · exact hk

end GrownFrom

/-- The entry exists, and its block starts with the statements. -/
def EntryStarts (g : FlowGraph) (stmts : List Stmt) : Prop :=
  ∃ n, g.nodes.get? g.entry = some n ∧ stmts <+: n.stmts

theorem EntryStarts.of_prefix {stmts : List Stmt} (hg : g.EntryStarts stmts)
    (hentry : g'.entry = g.entry)
    (hk : ∀ n, g.nodes.get? g.entry = some n →
      ∃ n', g'.nodes.get? g.entry = some n' ∧ n.stmts <+: n'.stmts) : g'.EntryStarts stmts := by
  obtain ⟨n, hn, hprefix⟩ := hg
  obtain ⟨n', hn', hle⟩ := hk n hn
  exact ⟨n', by rw [hentry, hn'], hprefix.trans hle⟩

end FlowGraph

/-- The code of the block and of its conditional edges. -/
def BlockCode.parts (code : BlockCode) : List (List Stmt) :=
  match code.leaving with
  | .branches edges => code.stmts :: edges.map (·.stmts)
  | _ => [code.stmts]

namespace Assembly

variable {s : Assembly} {parts : List (List Stmt)}

theorem addEdges_composed (edges : List EdgeCode) (h : Handle) (hs : s.graph.ComposedOf parts) :
    (addEdges h edges s).graph.ComposedOf (edges.map (·.stmts) ++ parts) := by
  induction edges generalizing s parts with
  | nil => exact hs
  | cons edge rest ih =>
      have hedge : (s.addEdge h edge).graph.ComposedOf (edge.stmts :: parts) :=
        ((((hs.insertNode _).connect _ _).connect _ _).append _ _)
      apply (ih hedge).mono
      intro part hp
      simp only [List.map_cons, List.mem_append, List.mem_cons] at hp ⊢
      tauto

theorem addBlock_composed (code : BlockCode) (hs : s.graph.ComposedOf parts) :
    (s.addBlock code).graph.ComposedOf (code.parts ++ parts) := by
  have hfilled := hs.append (s.handle code.source) code.stmts
  obtain ⟨id, stmts, leaving⟩ := code
  cases leaving with
  | returns => exact hfilled
  | stuck => exact hfilled
  | jumps target => exact hfilled.connect _ _
  | branches edges =>
      have hall := addEdges_composed (s := { s with graph := s.graph.append (s.handle id) stmts })
        edges (s.handle id) hfilled
      apply hall.mono
      intro part hp
      simp only [BlockCode.parts, List.cons_append, List.mem_append, List.mem_cons] at hp ⊢
      tauto

theorem addBlocks_composed (codes : List BlockCode) (hs : s.graph.ComposedOf parts) :
    (addBlocks codes s).graph.ComposedOf (codes.flatMap (·.parts) ++ parts) := by
  induction codes generalizing s parts with
  | nil => exact hs
  | cons code rest ih =>
      apply (ih (addBlock_composed code hs)).mono
      intro part hp
      simp only [List.flatMap_cons, List.mem_append] at hp ⊢
      tauto

theorem placeAll_composed (others : List (BlockId × String)) (hs : s.graph.ComposedOf parts) :
    (placeAll others s).graph.ComposedOf parts := by
  induction others generalizing s with
  | nil => exact hs
  | cons other rest ih => exact ih (hs.insertNode other.2)

theorem connectAll_composed {g : FlowGraph} (target : Handle) (hs : List Handle)
    (hg : g.ComposedOf parts) : (connectAll target hs g).ComposedOf parts := by
  induction hs generalizing g with
  | nil => exact hg
  | cons h rest ih => exact ih (hg.connect h target)

theorem ofLayout_composed (entry : BlockId × String) (others : List (BlockId × String)) :
    (ofLayout entry others).graph.ComposedOf [] := by
  apply placeAll_composed others
  intro k n hn
  have hget : (FlowGraph.singleton entry.2).nodes.get? k =
      if k = (Arena.empty (α := Node)).nextHandle then some { label := entry.2 } else none :=
    (Arena.empty (α := Node)).get?_insert _ k
  rw [hget] at hn
  split at hn
  next =>
    obtain rfl := Option.some.inj hn
    exact nofun
  next => cases hn

theorem finish_composed (hs : s.graph.ComposedOf parts) : s.finish.ComposedOf parts := by
  unfold finish
  split
  · exact hs
  · exact connectAll_composed _ _ (hs.insertNode _)

theorem addEdges_grown (edges : List EdgeCode) (h : Handle) (s : Assembly) :
    (addEdges h edges s).graph.GrownFrom s.graph := by
  induction edges generalizing s with
  | nil => exact .refl _
  | cons edge rest ih =>
      have hedge : (s.addEdge h edge).graph.GrownFrom s.graph :=
        (FlowGraph.GrownFrom.modifyNode _ _ _).trans
          ((FlowGraph.GrownFrom.modifyNode _ _ _).trans
            ((FlowGraph.GrownFrom.modifyNode _ _ _).trans (.insertNode _ _)))
      exact (ih _).trans hedge

theorem addBlock_grown (code : BlockCode) (s : Assembly) :
    (s.addBlock code).graph.GrownFrom s.graph := by
  have hfilled : (s.graph.append (s.handle code.source) code.stmts).GrownFrom s.graph :=
    .modifyNode _ _ _
  obtain ⟨id, stmts, leaving⟩ := code
  cases leaving with
  | returns => exact hfilled
  | stuck => exact hfilled
  | jumps target => exact (FlowGraph.GrownFrom.modifyNode _ _ _).trans hfilled
  | branches edges => exact (addEdges_grown _ _ _).trans hfilled

theorem addBlocks_grown (codes : List BlockCode) (s : Assembly) :
    (addBlocks codes s).graph.GrownFrom s.graph := by
  induction codes generalizing s with
  | nil => exact .refl _
  | cons code rest ih => exact (ih _).trans (addBlock_grown code s)

theorem placeAll_grown (others : List (BlockId × String)) (s : Assembly) :
    (placeAll others s).graph.GrownFrom s.graph := by
  induction others generalizing s with
  | nil => exact .refl _
  | cons other rest ih =>
      have hplaced : (s.place other.1 other.2).graph.GrownFrom s.graph := .insertNode _ _
      exact (ih _).trans hplaced

theorem connectAll_grown (target : Handle) (hs : List Handle) (g : FlowGraph) :
    (connectAll target hs g).GrownFrom g := by
  induction hs generalizing g with
  | nil => exact .refl _
  | cons h rest ih => exact (ih _).trans (.modifyNode _ _ _)

/-- The entry of an assembled graph exists. -/
theorem finish_entry_live (entry : BlockId × String) (others : List (BlockId × String))
    (codes : List BlockCode) :
    (addBlocks codes (ofLayout entry others)).finish.nodes.contains
      (addBlocks codes (ofLayout entry others)).finish.entry = true := by
  let first : FlowGraph := .singleton entry.2
  have hfirst : first.nodes.contains first.entry = true := by
    have hget : first.nodes.get? first.entry = some { label := entry.2 } :=
      ((Arena.empty (α := Node)).get?_insert _ _).trans (if_pos rfl)
    rw [Arena.contains, hget]
    rfl
  have hgrown : (addBlocks codes (ofLayout entry others)).graph.GrownFrom first :=
    (addBlocks_grown codes _).trans (placeAll_grown others _)
  have hfinish :
      (addBlocks codes (ofLayout entry others)).finish.nodes.contains first.entry = true ∧
        (addBlocks codes (ofLayout entry others)).finish.entry = first.entry := by
    unfold finish
    split
    · exact ⟨hgrown.live _ hfirst, hgrown.entry_eq⟩
    · have hjoined := (connectAll_grown
        (addBlocks codes (ofLayout entry others)).graph.nodes.nextHandle
        (addBlocks codes (ofLayout entry others)).returning _).trans
        ((FlowGraph.GrownFrom.insertNode _ "exit").trans hgrown)
      exact ⟨hjoined.live _ hfirst, hjoined.entry_eq⟩
  rw [hfinish.2]
  exact hfinish.1

end Assembly

/-- The graph before simplification is put together from the prologue and the code of the blocks,
and it starts with the prologue. -/
theorem Scope.plainGraph_composed {sc : Scope} {s s' : Session} {g : FlowGraph}
    (h : Yields sc.plainGraph s g s') :
    ∃ codes pre s₁ s₂, Yields (sc.blocksCode sc.body.order) s codes s₁ ∧
      s₂.supply = s₁.supply ∧ Yields sc.prologue s₂ (g.decl, pre) s' ∧
      g.ComposedOf (pre :: codes.flatMap (·.parts)) ∧ g.EntryStarts pre := by
  obtain ⟨entry, others, codes, pre, s₁, s₂, -, hcodes, hsupply, hprologue, assembled, rfl, hg⟩ :=
    plainGraph_shape h
  refine ⟨codes, pre, s₁, s₂, hcodes, hsupply, hprologue, ?_, ?_⟩
  · have hall := Assembly.finish_composed
      (Assembly.addBlocks_composed codes (Assembly.ofLayout_composed entry others))
    rw [List.append_nil] at hall
    rw [hg]
    exact hall.prepend _ pre
  · obtain ⟨n, hn⟩ := FlowGraph.exists_node (Assembly.finish_entry_live entry others codes)
    rw [hg]
    refine ⟨n.prepend pre, ?_, List.prefix_append _ _⟩
    refine (FlowGraph.get?_prepend pre).trans ((if_pos rfl).trans ?_)
    exact congrArg (Option.map (Node.prepend · pre)) hn

end AffineFlow
