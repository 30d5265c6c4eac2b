import AffineFlow.Lowering.Function
import AffineFlow.Proofs.Assembly.Finished
import AffineFlow.Proofs.Outcome

/-!
# From code to graph

The code of a function has one entry per laid-out block, and each says how
control leaves its block as the terminator does. The graph before simplification
is this code, assembled, with the prologue before the first block.
-/
namespace AffineFlow

open Ssa

/-- Control leaves under a condition. -/
def Ssa.Terminator.isBranching : Terminator → Bool
  | .condBr _ _ _ => true
  | .switch _ _ _ => true
  | _ => false

namespace Scope

variable {sc : Scope} {s s' : Session} {id : BlockId} {block : Block}

theorem target_spec (h : Yields (sc.target id) s block s') :
    id ∈ sc.body.order ∧ sc.body.block? id = some block ∧ s' = s := by
  unfold target at h
  split at h
  next hid =>
    split at h
    next b hb =>
      obtain ⟨rfl, rfl⟩ := yields_pure.1 h
      exact ⟨hid, hb, rfl⟩
    next => exact absurd h Lowering.not_yields_fault
  next => exact absurd h Lowering.not_yields_reject

/-- What the code of an edge consists of. -/
theorem edgeCode_spec {source succ : BlockId} {index : Nat} {edge : EdgeCode}
    (h : Yields (sc.edgeCode source block index succ) s edge s') :
    ∃ succBlock condition phis s₁ s₂, sc.body.block? succ = some succBlock ∧
      succ ∈ sc.body.order ∧ edge.target = succ ∧ edge.stmts = condition ++ phis ∧
      s₁.supply = s.supply ∧ Yields (sc.edgeCondition block.term index) s₁ condition s₂ ∧
      Yields (sc.phiCode succ succBlock source block.name) s₂ phis s' := by
  simp only [edgeCode, yields_bind, Lowering.yields_tell, yields_pure] at h
  obtain ⟨succBlock, s₀, htarget, -, s₁, hs₁, condition, s₂, hcondition, phis, s₃, hphis, rfl,
    rfl⟩ := h
  obtain ⟨horder, hblock, rfl⟩ := target_spec htarget
  exact ⟨succBlock, condition, phis, s₁, s₂, hblock, horder, rfl, rfl, by rw [hs₁], hcondition,
    hphis⟩

/-- There is one edge for each successor, in order, and each has its own code. -/
theorem edgesCode_spec {source : BlockId} {index : Nat} {succs : List BlockId}
    {edges : List EdgeCode} (h : Yields (sc.edgesCode source block index succs) s edges s') :
    edges.map (·.target) = succs ∧ ∀ i edge, edges[i]? = some edge →
      ∃ succ s₁ s₂, succs[i]? = some succ ∧
        Yields (sc.edgeCode source block (index + i) succ) s₁ edge s₂ := by
  induction succs generalizing index s edges with
  | nil =>
      obtain ⟨rfl, rfl⟩ := yields_pure.1 h
      simp
  | cons succ rest ih =>
      simp only [edgesCode, yields_bind, yields_pure] at h
      obtain ⟨edge, s₁, hedge, edges', s₂, hrest, rfl, rfl⟩ := h
      obtain ⟨htargets, hall⟩ := ih hrest
      obtain ⟨-, -, -, -, -, -, -, htarget, -⟩ := edgeCode_spec hedge
      refine ⟨by rw [List.map_cons, htarget, htargets], fun i e he => ?_⟩
      cases i with
      | zero =>
          obtain rfl := Option.some.inj he
          exact ⟨succ, s, s₁, rfl, hedge⟩
      | succ i =>
          obtain ⟨succ', t₁, t₂, hsucc, hcode⟩ := hall i e he
          refine ⟨succ', t₁, t₂, hsucc, ?_⟩
          rwa [Nat.add_right_comm, Nat.add_assoc] at hcode

theorem edgesCode_laid_out {source : BlockId} {index : Nat} {succs : List BlockId}
    {edges : List EdgeCode} (h : Yields (sc.edgesCode source block index succs) s edges s') :
    ∀ succ ∈ succs, succ ∈ sc.body.order := by
  obtain ⟨htargets, hall⟩ := edgesCode_spec h
  rw [← htargets]
  intro succ hsucc
  obtain ⟨edge, hedge, rfl⟩ := List.mem_map.1 hsucc
  obtain ⟨i, hi⟩ := List.mem_iff_getElem?.1 hedge
  obtain ⟨succ, s₁, s₂, -, hcode⟩ := hall i edge hi
  obtain ⟨-, -, -, -, -, -, horder, htarget, -⟩ := edgeCode_spec hcode
  exact htarget ▸ horder

/-- The code with which control leaves a block, one case for each kind of terminator. -/
inductive Leaves (sc : Scope) (id : BlockId) (block : Block) (s s' : Session) :
    List Stmt → Leaving → Prop
  | nothing : block.term = .ret none → s' = s → Leaves sc id block s s' [] .returns
  | value {value : Value} {stmts : List Stmt} : block.term = .ret (some value) →
      Yields (sc.returnCode value) s stmts s' → Leaves sc id block s s' stmts .returns
  | stuck : block.term = .unreachable → s' = s → Leaves sc id block s s' [.unreachable] .stuck
  | jump {succ : BlockId} {succBlock : Block} {stmts : List Stmt} : block.term = .br succ →
      succ ∈ sc.body.order → sc.body.block? succ = some succBlock →
      Yields (sc.phiCode succ succBlock id block.name) s stmts s' →
      Leaves sc id block s s' stmts (.jumps succ)
  | branch {edges : List EdgeCode} : block.term.isBranching = true →
      Yields (sc.edgesCode id block 0 block.term.successors) s edges s' →
      Leaves sc id block s s' [] (.branches edges)

theorem leavingCode_leaves {stmts : List Stmt} {leaving : Leaving}
    (h : Yields (sc.leavingCode id block) s (stmts, leaving) s') :
    sc.Leaves id block s s' stmts leaving := by
  unfold leavingCode at h
  split at h
  next hterm =>
    obtain ⟨e, rfl⟩ := yields_pure.1 h
    obtain ⟨rfl, rfl⟩ := Prod.mk.inj e
    exact .nothing hterm rfl
  next value hterm =>
    simp only [yields_bind, yields_pure] at h
    obtain ⟨_, _, hcode, e, rfl⟩ := h
    obtain ⟨rfl, rfl⟩ := Prod.mk.inj e
    exact .value hterm hcode
  next hterm =>
    obtain ⟨e, rfl⟩ := yields_pure.1 h
    obtain ⟨rfl, rfl⟩ := Prod.mk.inj e
    exact .stuck hterm rfl
  next succ hterm =>
    simp only [yields_bind, yields_pure] at h
    obtain ⟨succBlock, _, htarget, _, _, hcode, e, rfl⟩ := h
    obtain ⟨rfl, rfl⟩ := Prod.mk.inj e
    obtain ⟨horder, hblock, rfl⟩ := target_spec htarget
    exact .jump hterm horder hblock hcode
  next cond onTrue onFalse hterm =>
    simp only [yields_bind, yields_pure] at h
    obtain ⟨edges, _, hedges, e, rfl⟩ := h
    obtain ⟨rfl, rfl⟩ := Prod.mk.inj e
    exact .branch (by rw [hterm]; rfl) hedges
  next value cases targets hterm =>
    simp only [yields_bind, yields_pure] at h
    obtain ⟨edges, _, hedges, e, rfl⟩ := h
    obtain ⟨rfl, rfl⟩ := Prod.mk.inj e
    exact .branch (by rw [hterm]; rfl) hedges

/-- The code of a block: its instructions, then the way control leaves. -/
theorem blockCode_spec {code : BlockCode} (h : Yields (sc.blockCode id) s code s') :
    ∃ block stmts last s₁ s₂, id ∈ sc.body.order ∧ sc.body.block? id = some block ∧
      code.source = id ∧ code.stmts = stmts ++ last ∧ s₁.supply = s.supply ∧
      Yields (sc.instsCode block.insts) s₁ stmts s₂ ∧
      sc.Leaves id block s₂ s' last code.leaving := by
  simp only [blockCode, yields_bind, Lowering.yields_tell, yields_pure] at h
  obtain ⟨block, s₀, htarget, -, s₁, hs₁, stmts, s₂, hinsts, ⟨last, leaving⟩, s₃, hleaving, rfl,
    rfl⟩ := h
  obtain ⟨horder, hblock, rfl⟩ := target_spec htarget
  exact ⟨block, stmts, last, s₁, s₂, horder, hblock, rfl, rfl, by rw [hs₁], hinsts,
    leavingCode_leaves hleaving⟩

/-- There is the code of each block of the list, in order. -/
theorem blocksCode_spec {ids : List BlockId} {codes : List BlockCode}
    (h : Yields (sc.blocksCode ids) s codes s') :
    codes.map (·.source) = ids ∧
      ∀ code ∈ codes, ∃ s₁ s₂, Yields (sc.blockCode code.source) s₁ code s₂ := by
  induction ids generalizing s codes with
  | nil =>
      obtain ⟨rfl, rfl⟩ := yields_pure.1 h
      simp
  | cons id rest ih =>
      simp only [blocksCode, yields_bind, yields_pure] at h
      obtain ⟨code, s₁, hcode, codes', s₂, hrest, rfl, rfl⟩ := h
      obtain ⟨hsources, hall⟩ := ih hrest
      obtain ⟨-, -, -, -, -, -, -, hsource, -⟩ := blockCode_spec hcode
      refine ⟨by rw [List.map_cons, hsource, hsources], List.forall_mem_cons.2 ⟨?_, hall⟩⟩
      exact ⟨s, s₁, hsource.symm ▸ hcode⟩

theorem namedBlocks_spec {ids : List BlockId} {entries : List (BlockId × String)}
    (h : sc.namedBlocks ids = .ok entries) : entries.map (·.1) = ids := by
  induction ids generalizing entries with
  | nil =>
      obtain rfl := Except.ok.inj h
      rfl
  | cons id rest ih =>
      unfold namedBlocks at h
      split at h
      next => cases h
      split at h
      next => cases h
      next =>
        cases hrest : sc.namedBlocks rest with
        | error e => rw [hrest] at h; cases h
        | ok entries' =>
            rw [hrest] at h
            obtain rfl := Except.ok.inj h
            rw [List.map_cons, ih hrest]

/-- The graph before simplification is the assembled code behind the prologue. -/
theorem plainGraph_shape {g : FlowGraph} (h : Yields sc.plainGraph s g s') :
    ∃ entry others codes pre s₁ s₂, (entry :: others).map (·.1) = sc.body.order ∧
      Yields (sc.blocksCode sc.body.order) s codes s₁ ∧ s₂.supply = s₁.supply ∧
      Yields sc.prologue s₂ (g.decl, pre) s' ∧
      ∃ assembled, assembled = (Assembly.addBlocks codes (.ofLayout entry others)).finish ∧
        g = { assembled.prepend assembled.entry pre with decl := g.decl } := by
  simp only [plainGraph, yields_bind, Lowering.yields_ofExcept] at h
  obtain ⟨entries, _, ⟨hentries, rfl⟩, h⟩ := h
  have hsources := namedBlocks_spec hentries
  cases entries with
  | nil => exact absurd h Lowering.not_yields_fault
  | cons entry others =>
      simp only [yields_bind, yields_pure] at h
      obtain ⟨assembled, s₂, hassemble, ⟨decl, pre⟩, s₃, hprologue, rfl, rfl⟩ := h
      simp only [assemble, yields_bind] at hassemble
      obtain ⟨codes, s₁, hcodes, hassemble⟩ := hassemble
      split at hassemble
      next =>
        obtain ⟨rfl, rfl⟩ := yields_pure.1 hassemble
        exact ⟨entry, others, codes, pre, _, _, hsources, hcodes, rfl, hprologue, _, rfl, rfl⟩
      next =>
        simp only [yields_bind, Lowering.yields_tell, yields_pure] at hassemble
        obtain ⟨-, s₃, hs₃, rfl, rfl⟩ := hassemble
        have hsupply : s₂.supply = s₁.supply := by rw [hs₃]
        exact ⟨entry, others, codes, pre, s₁, s₂, hsources, hcodes, hsupply, hprologue, _, rfl,
          rfl⟩

/-- Blocks laid out once each have their own pieces of the graph. -/
theorem plainGraph_spec {g : FlowGraph} (hn : sc.body.order.Nodup)
    (h : Yields sc.plainGraph s g s') :
    ∃ place pieces pre s₁ s₂, Yields (sc.blocksCode sc.body.order) s (pieces.map (·.code)) s₁ ∧
      s₂.supply = s₁.supply ∧ Yields sc.prologue s₂ (g.decl, pre) s' ∧
      g.Assembled place pieces pre := by
  obtain ⟨entry, others, codes, pre, s₁, s₂, horder, hcodes, hsupply, hprologue, assembled,
    hassembled, hg⟩ := plainGraph_shape h
  rw [← horder] at hn
  have hbuilt := (Assembly.ofLayout_blank hn).built
  rw [horder, ← (blocksCode_spec hcodes).1] at hbuilt
  obtain ⟨pieces, rfl, hbuilt⟩ := hbuilt.addBlocks
  have hfinish := hbuilt.finish
  rw [← hassembled] at hfinish
  have hprepended := hfinish.prepend pre g.decl
  rw [← hg] at hprepended
  exact ⟨_, pieces, pre, s₁, s₂, hcodes, hsupply, hprologue, hprepended⟩

/-- The graph of a function is the plain one, simplified if the settings say so. -/
theorem graph_spec {g : FlowGraph} (h : Yields sc.graph s g s') :
    ∃ plain s₁, Yields sc.plainGraph s plain s₁ ∧ s'.supply = s₁.supply ∧
      (sc.settings.simplify = false → g = plain) ∧
      (sc.settings.simplify = true → ∃ notes', Yields plain.simplify s₁.notes g notes') := by
  unfold graph at h
  cases hset : sc.settings.simplify with
  | false =>
      simp only [hset, Bool.false_eq_true, if_false, yields_bind, yields_get,
        Lowering.yields_tell, yields_pure] at h
      obtain ⟨plain, s₁, hplain, _, _, ⟨rfl, rfl⟩, _, _, ⟨rfl, rfl⟩, -, _, rfl, rfl, rfl⟩ := h
      exact ⟨g, _, hplain, rfl, fun _ => rfl, by simp⟩
  | true =>
      simp only [hset, if_true, yields_bind, yields_get, Lowering.yields_tell,
        Lowering.yields_ofNoted, yields_pure] at h
      obtain ⟨plain, s₁, hplain, _, _, ⟨notes, hrun, rfl⟩, _, _, ⟨rfl, rfl⟩, -, _, rfl, rfl,
        rfl⟩ := h
      exact ⟨plain, s₁, hplain, rfl, by simp, fun _ => ⟨notes, hrun⟩⟩

end Scope

theorem Scope.ofFunction_spec {program : Module} {id : FuncId} {oracle : Oracle}
    {settings : Settings} {sc : Scope} (h : ofFunction program id oracle settings = .ok sc) :
    ∃ func body, program.func? id = some func ∧ func.body = some body ∧
      sc = ⟨program, id, func, body, oracle, settings⟩ := by
  unfold ofFunction at h
  split at h
  next => cases h
  split at h
  next => cases h
  split at h
  next => cases h
  next func hfunc _ body hbody _ => exact ⟨func, body, hfunc, hbody, (Except.ok.inj h).symm⟩

/-- A function is lowered in a scope, if it can be lowered at all. -/
theorem functionGraph_scope {program : Module} {id : FuncId} {oracle : Oracle}
    {settings : Settings} {s s' : Session} {g : FlowGraph}
    (h : Yields (functionGraph program id oracle settings) s g s') :
    ∃ sc, Scope.ofFunction program id oracle settings = .ok sc ∧ Yields sc.graph s g s' := by
  unfold functionGraph at h
  split at h
  next => exact absurd h Lowering.not_yields_reject
  next sc hsc => exact ⟨sc, hsc, h⟩

end AffineFlow
