import AffineFlow.Proofs.Calls.Sites

/-!
# What the instructions are lowered to

Every laid-out instruction of a function that has been lowered has been lowered
itself, and its code stands in one piece in the code of its block. In a graph
that is not simplified, the block of the graph has it.
-/
namespace AffineFlow

open Ssa Lowering

namespace Scope

variable {sc : Scope} {F : VarSupply} {s s' : Session} {i : InstId} {code : List Stmt}

/-- The code is what the instruction is lowered to, at a point before the variables are those
of `F`. -/
def Emits (sc : Scope) (F : VarSupply) (i : InstId) (code : List Stmt) : Prop :=
  ∃ s s', Yields (sc.instCode i) s code s' ∧ s'.supply.Extends F

theorem instsCode_part {ids : List InstId} {stmts : List Stmt}
    (h : Yields (sc.instsCode ids) s stmts s') (hi : i ∈ ids) (hF : s'.supply.Extends F) :
    ∃ code, sc.Emits F i code ∧ code <:+: stmts := by
  induction ids generalizing s stmts with
  | nil => cases hi
  | cons id rest ih =>
      simp only [instsCode, yields_bind, yields_pure] at h
      obtain ⟨first, s₁, hfirst, others, s₂, hrest, rfl, rfl⟩ := h
      rcases List.mem_cons.1 hi with rfl | hi
      · have hgrown := (sc.instsCode_grows _ _ _ _ hrest).trans hF
        exact ⟨first, ⟨s, s₁, hfirst, hgrown⟩, (List.prefix_append _ _).isInfix⟩
      · obtain ⟨code, hemits, hinfix⟩ := ih hrest hi
        exact ⟨code, hemits, hinfix.trans (List.suffix_append _ _).isInfix⟩

theorem blocksCode_part {ids : List BlockId} {codes : List BlockCode} {b : BlockId} {block : Block}
    (h : Yields (sc.blocksCode ids) s codes s') (hb : b ∈ ids)
    (hblock : sc.body.block? b = some block) (hi : i ∈ block.insts) (hF : s'.supply.Extends F) :
    ∃ blockCode ∈ codes, ∃ code, sc.Emits F i code ∧ code <:+: blockCode.stmts := by
  induction ids generalizing s codes with
  | nil => cases hb
  | cons id rest ih =>
      simp only [blocksCode, yields_bind, yields_pure] at h
      obtain ⟨first, s₁, hfirst, others, s₂, hrest, rfl, rfl⟩ := h
      rcases List.mem_cons.1 hb with rfl | hb
      · obtain ⟨block', stmts, last, t₁, t₂, -, hblock', -, hstmts, -, hinsts, hleaves⟩ :=
          blockCode_spec hfirst
        obtain rfl : block' = block := Option.some.inj (hblock'.symm.trans hblock)
        have hgrown := (hleaves.grows.trans (sc.blocksCode_grows _ _ _ _ hrest)).trans hF
        obtain ⟨code, hemits, hinfix⟩ := instsCode_part hinsts hi hgrown
        refine ⟨first, List.mem_cons_self, code, hemits, ?_⟩
        rw [hstmts]
        exact hinfix.trans (List.prefix_append _ _).isInfix
      · obtain ⟨blockCode, hmem, code, hemits, hinfix⟩ := ih hrest hb
        exact ⟨blockCode, List.mem_cons_of_mem _ hmem, code, hemits, hinfix⟩

theorem graph_emits {g : FlowGraph} {b : BlockId} {block : Block} (h : Yields sc.graph s g s')
    (hb : b ∈ sc.body.order) (hblock : sc.body.block? b = some block) (hi : i ∈ block.insts) :
    ∃ code, sc.Emits s'.supply i code ∧ (sc.settings.simplify = false → sc.body.order.Nodup →
      ∃ k n, g.nodes.get? k = some n ∧ code <:+: n.stmts) := by
  obtain ⟨plain, s₁, hplain, hsupply, hg, -⟩ := graph_spec h
  rw [hsupply]
  by_cases hn : sc.body.order.Nodup
  · obtain ⟨place, pieces, pre, t₁, t₂, hcodes, hsupply', hprologue, hassembled⟩ :=
      plainGraph_spec hn hplain
    have hgrown := hsupply' ▸ sc.prologue_grows _ _ _ hprologue
    obtain ⟨blockCode, hmem, code, hemits, hinfix⟩ := blocksCode_part hcodes hb hblock hi hgrown
    refine ⟨code, hemits, fun hset _ => ?_⟩
    obtain ⟨p, hp, rfl⟩ := List.mem_map.1 hmem
    obtain ⟨label, hnode⟩ := hassembled.block p hp
    rw [hg hset]
    exact ⟨_, _, hnode, hinfix.trans (List.suffix_append _ _).isInfix⟩
  · obtain ⟨entry, others, codes, pre, t₁, t₂, -, hcodes, hsupply', hprologue, -⟩ :=
      plainGraph_shape hplain
    have hgrown := hsupply' ▸ sc.prologue_grows _ _ _ hprologue
    obtain ⟨-, -, code, hemits, -⟩ := blocksCode_part hcodes hb hblock hi hgrown
    exact ⟨code, hemits, fun _ hnodup => absurd hnodup hn⟩

/-- An instruction that is lowered exists. -/
theorem inst?_of_instCode (h : Yields (sc.instCode i) s code s') :
    ∃ inst, sc.body.inst? i = some inst := by
  cases hinst : sc.body.inst? i with
  | none =>
      simp only [instCode, hinst] at h
      exact absurd h not_yields_fault
  | some inst => exact ⟨inst, rfl⟩

end Scope

/-- Every laid-out instruction of a function that has been lowered exists, and its code is in the
graph, unless blocks have been simplified away. -/
theorem functionGraph_emits {program : Module} {id : FuncId} {oracle : Oracle}
    {settings : Settings} {s s' : Session} {g : FlowGraph}
    (h : Yields (functionGraph program id oracle settings) s g s') :
    ∃ sc, Scope.ofFunction program id oracle settings = .ok sc ∧
      ∀ b ∈ sc.body.order, ∀ block, sc.body.block? b = some block → ∀ i ∈ block.insts,
        ∃ inst code u u', sc.body.inst? i = some inst ∧ Yields (sc.instCode i) u code u' ∧
          u'.supply.Extends s'.supply ∧
          (settings.simplify = false → sc.body.order.Nodup →
            ∃ k n, g.nodes.get? k = some n ∧ code <:+: n.stmts) := by
  obtain ⟨sc, hscope, hgraph⟩ := functionGraph_scope h
  obtain ⟨func, body, -, -, rfl⟩ := Scope.ofFunction_spec hscope
  refine ⟨_, hscope, fun b hb block hblock i hi => ?_⟩
  obtain ⟨code, ⟨u, u', hcode, hgrown⟩, hplaced⟩ := Scope.graph_emits hgraph hb hblock hi
  obtain ⟨inst, hinst⟩ := Scope.inst?_of_instCode hcode
  exact ⟨inst, code, u, u', hinst, hcode, hgrown, hplaced⟩

end AffineFlow
