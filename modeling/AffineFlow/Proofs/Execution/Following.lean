import AffineFlow.Proofs.Calls.Sites
import AffineFlow.Proofs.Execution.Edges

/-!
# Executions that follow a run

An execution of the graph follows a run of the source if it comes through the
blocks of the visits, in order, and the variables show the values of the run on
the way. It exists just if the run is one that somebody would allow to whom the
comparisons are frozen: step by step, the graph can do what such a run does, and
what the graph does is a step of such a run.
-/
namespace AffineFlow

open Ssa Lowering

namespace Scope

/-- The instruction is a phi of the block that control goes on to without a condition. Such a phi
takes its value already at the end of the block before. -/
def arrives (sc : Scope) (block : Block) (id : InstId) : Bool :=
  match block.term with
  | .br target => (sc.body.block? target).any fun b => id ∈ (sc.body.phis b).map (·.1)
  | _ => false

/-- The values that are still shown at the end of the block. -/
def outgoing (sc : Scope) (block : Block) (ρ : Env) : Env :=
  fun id => if sc.arrives block id then none else ρ id

/-- The block of the visit is executed, with the values of the visit before and after. -/
def Passes (sc : Scope) (F : VarSupply) (g : FlowGraph) (place : BlockId → Handle) (v : Visit)
    (σ τ : Valuation) : Prop :=
  ∃ block node, sc.body.block? v.block = some block ∧ g.nodes.get? (place v.block) = some node ∧
    sc.Shows F v.entered σ ∧ RunAll node.stmts σ τ ∧ sc.Shows F (sc.outgoing block v.left) τ

/-- The execution goes from the block of each visit to that of the next one, by an edge or through
a block that stands for no block of the source. -/
inductive Follows (sc : Scope) (F : VarSupply) (g : FlowGraph) (place : BlockId → Handle) :
    List Visit → Valuation → Prop
  | last {v : Visit} {σ τ : Valuation} : sc.Passes F g place v σ τ → Follows sc F g place [v] σ
  | jump {v w : Visit} {rest : List Visit} {σ τ : Valuation} : sc.Passes F g place v σ τ →
      place w.block ∈ g.succs (place v.block) → Follows sc F g place (w :: rest) τ →
      Follows sc F g place (v :: w :: rest) σ
  | cross {v w : Visit} {rest : List Visit} {m : Handle} {node : Node} {σ τ υ : Valuation} :
      sc.Passes F g place v σ τ → m ∈ g.succs (place v.block) →
      (∀ b ∈ sc.body.order, place b ≠ m) → g.nodes.get? m = some node →
      RunAll node.stmts τ υ → place w.block ∈ g.succs m → Follows sc F g place (w :: rest) υ →
      Follows sc F g place (v :: w :: rest) σ

/-- A block of the graph with the code that it was made from. -/
structure Made (sc : Scope) (F : VarSupply) (g : FlowGraph) (place : BlockId → Handle)
    (b : BlockId) (block : Block) (insts last : List Stmt) (leaving : Leaving)
    (middles : List Handle) : Prop where
  block_eq : sc.body.block? b = some block
  numeric : sc.NumericBlock b block
  node : g.HasBlock (place b) (insts ++ last)
    (Piece.succs place (g.out (place b)) ⟨⟨b, insts ++ last, leaving⟩, middles⟩)
  insts : ∃ s s', Yields (sc.instsCode block.insts) s insts s' ∧ s'.supply.Extends F
  leaves : ∃ s s', sc.Leaves b block s s' last leaving ∧ s'.supply.Extends F
  laid : Assembly.EdgesLaid g place leaving.edges middles
  apart : ∀ m ∈ middles, ∀ c ∈ sc.body.order, place c ≠ m

/-- The graph was made, block by block, from a numeric function. -/
structure Laid (sc : Scope) (F : VarSupply) (g : FlowGraph) (place : BlockId → Handle) :
    Prop where
  body_eq : sc.func.body = some sc.body
  havoc : sc.settings.explicitHavoc = true
  made : ∀ b ∈ sc.body.order, ∃ block insts last leaving middles,
    sc.Made F g place b block insts last leaving middles
  injective : ∀ b ∈ sc.body.order, ∀ c ∈ sc.body.order, place b = place c → b = c

variable {sc : Scope} {F : VarSupply} {g : FlowGraph} {place : BlockId → Handle}
  {κ : InstId → Int} {α : Nat → Int} {ρ ρ' : Env} {σ τ : Valuation} {b : BlockId} {block : Block}
  {insts last : List Stmt} {leaving : Leaving} {middles : List Handle}

theorem Follows.shows {v : Visit} {rest : List Visit} (h : sc.Follows F g place (v :: rest) σ) :
    sc.Shows F v.entered σ := by
  cases h with
  | last hpasses => exact hpasses.choose_spec.choose_spec.2.2.1
  | jump hpasses => exact hpasses.choose_spec.choose_spec.2.2.1
  | cross hpasses => exact hpasses.choose_spec.choose_spec.2.2.1

theorem run_mem_order {R : Rules} {v : Visit} {rest : List Visit}
    (h : sc.body.Run R (v :: rest)) : v.block ∈ sc.body.order := by
  cases h with
  | last hv => exact hv
  | step hv => exact hv

/-- A block of the graph that was made from the edge with the given index. -/
structure MadeEdge (sc : Scope) (F : VarSupply) (g : FlowGraph) (place : BlockId → Handle)
    (b : BlockId) (block : Block) (i : Nat) (succ : BlockId) (edge : EdgeCode) (m : Handle) :
    Prop where
  node : g.HasBlock m edge.stmts [place succ]
  succ_eq : block.term.successors[i]? = some succ
  code : ∃ s s', Yields (sc.edgeCode b block i succ) s edge s' ∧ s'.supply.Extends F

/-- How control goes on to a successor of the block: straight, after the statements at the end of
the block have carried out the phis of the successor, or through the blocks of the edges, which
stand for no block of the source. -/
inductive GoesOn (sc : Scope) (F : VarSupply) (g : FlowGraph) (place : BlockId → Handle)
    (b : BlockId) (block : Block) (last : List Stmt) (succ : BlockId) (succBlock : Block) : Prop
  | jump {ps : List IncomingPhi} (term_eq : block.term = .br succ)
      (succs_eq : g.succs (place b) = [place succ])
      (incoming : sc.incomingPhis b block.name (sc.body.phis succBlock) = .ok ps)
      (fit : ∀ p ∈ ps, sc.FitPhi p) (carries : sc.CarriesOut F ps last)
  | edges (branching : block.term.isBranching = true) (last_eq : last = [])
      (made : ∀ m ∈ g.succs (place b), ∃ i succ edge,
        sc.MadeEdge F g place b block i succ edge m)
      (exists_made : ∀ i succ, block.term.successors[i]? = some succ →
        ∃ m ∈ g.succs (place b), ∃ edge, sc.MadeEdge F g place b block i succ edge m)
      (apart : ∀ m ∈ g.succs (place b), ∀ c ∈ sc.body.order, place c ≠ m)

/-- The blocks of the edges, one for each successor occurrence. -/
theorem Made.edges {edges : List EdgeCode} {s s' : Session}
    (hm : sc.Made F g place b block insts last (.branches edges) middles)
    (h : Yields (sc.edgesCode b block 0 block.term.successors) s edges s')
    (hF : s'.supply.Extends F) :
    (∀ m ∈ middles, ∃ i succ edge, sc.MadeEdge F g place b block i succ edge m) ∧
      ∀ i succ, block.term.successors[i]? = some succ →
        ∃ m ∈ middles, ∃ edge, sc.MadeEdge F g place b block i succ edge m := by
  have hlaid : List.Forall₂ (fun edge m => g.HasBlock m edge.stmts [place edge.target]) edges
      middles := hm.laid
  have hedge : ∀ i edge m, edges[i]? = some edge → g.HasBlock m edge.stmts [place edge.target] →
      ∃ succ, sc.MadeEdge F g place b block i succ edge m := by
    intro i edge m hi hnode
    obtain ⟨succ, s₁, s₂, hsucc, rfl, hcode, hgrown⟩ := edgesCode_get h hi
    rw [Nat.zero_add] at hcode
    exact ⟨_, hnode, hsucc, s₁, s₂, hcode, hgrown.trans hF⟩
  constructor
  · intro m hm
    obtain ⟨i, hi⟩ := List.mem_iff_getElem?.1 hm
    obtain ⟨edge, hedges, hnode⟩ := exists_of_forall₂ hlaid.flip hi
    obtain ⟨succ, hmade⟩ := hedge i edge m hedges hnode
    exact ⟨i, succ, edge, hmade⟩
  · intro i succ hi
    have htargets := (edgesCode_spec h).1
    rw [← htargets, List.getElem?_map] at hi
    obtain ⟨edge, hedges, rfl⟩ := Option.map_eq_some_iff.1 hi
    obtain ⟨m, hmiddle, hnode⟩ := exists_of_forall₂ hlaid hedges
    obtain ⟨succ, hmade⟩ := hedge i edge m hedges hnode
    have hsame : succ = edge.target := by
      have hsucc := hmade.succ_eq
      rw [← htargets, List.getElem?_map, hedges] at hsucc
      exact (Option.some.inj hsucc).symm
    exact ⟨m, List.mem_of_getElem? hmiddle, edge, hsame ▸ hmade⟩

theorem arrives_of_isPhi {id : InstId} (hphi : sc.body.isPhi id = false) :
    sc.arrives block id = false := by
  unfold arrives
  split
  next target hterm =>
    cases hblock : sc.body.block? target with
    | none => rfl
    | some succBlock =>
        apply decide_eq_false
        intro hm
        obtain ⟨p, hp, rfl⟩ := List.mem_map.1 hm
        obtain ⟨-, hinst, hkind⟩ := phis_spec hp
        rw [Body.isPhi, hinst, Option.any_some, hkind] at hphi
        cases hphi
  next => rfl

namespace Laid

variable (hl : sc.Laid F g place)
include hl

/-- The statements at the end of a block can always be executed, and write nothing but the phis
of the target. -/
theorem last_spec (hm : sc.Made F g place b block insts last leaving middles) :
    (∀ σ, ∃ τ, RunAll last σ τ) ∧ ∀ σ τ, RunAll last σ τ → ∀ id x,
      sc.arrives block id = false → F.find? (.value sc.funcId (.inst id)) = some x →
        τ x = σ x := by
  have hempty : (∀ σ, ∃ τ, RunAll [] σ τ) ∧ ∀ σ τ, RunAll [] σ τ → ∀ id x,
      sc.arrives block id = false → F.find? (.value sc.funcId (.inst id)) = some x →
        τ x = σ x := by
    refine ⟨fun σ => ⟨σ, .nil⟩, fun σ τ hrun id x _ _ => ?_⟩
    rw [runAll_nil_iff.1 hrun]
  obtain ⟨s, s', hleaves, hF⟩ := hm.leaves
  cases hleaves with
  | nothing hterm => exact hempty
  | branch hbranching => exact hempty
  | value hterm hcode =>
      have hsilent := returnCode_silent hcode hF
      exact ⟨fun σ => (hsilent σ).1, fun σ τ hrun id x _ hx => (hsilent σ).2 τ hrun _ x hx⟩
  | stuck hterm =>
      have hnumeric := hm.numeric.term
      rw [hterm] at hnumeric
      cases hnumeric
  | @jump succ succBlock _ hterm horder hblock hcode =>
      obtain ⟨succBlock', _, _, _, _, hmade⟩ := hl.made succ horder
      obtain rfl : succBlock' = succBlock := Option.some.inj (hmade.block_eq.symm.trans hblock)
      obtain ⟨ps, hps, hcarries⟩ := phiCode_carriesOut hl.body_eq hmade.numeric hcode hF
      refine ⟨hcarries.total, fun σ τ hrun id x harrives hx => ?_⟩
      refine (hcarries.taken σ τ hrun).old hps (fun hid => ?_) hx
      rw [arrives, hterm] at harrives
      simp only [hblock, Option.any_some, decide_eq_false_iff_not] at harrives
      exact harrives hid

theorem shows_outgoing (hm : sc.Made F g place b block insts last leaving middles)
    (hshows : sc.Shows F ρ σ) (hrun : RunAll last σ τ) :
    sc.Shows F (sc.outgoing block ρ) τ := by
  intro id n hcomparison hshown hn
  unfold outgoing at hn
  cases harrives : sc.arrives block id with
  | true =>
      rw [harrives] at hn
      cases hn
  | false =>
      rw [harrives] at hn
      obtain ⟨x, hx, rfl⟩ := hshows id n hcomparison hshown hn
      exact ⟨x, hx, (hl.last_spec hm).2 σ τ hrun id x harrives hx⟩

variable {v : Visit}

/-- The code of the instructions can do what is executed and allowed. -/
theorem insts_follow (hm : sc.Made F g place b block insts last leaving middles)
    (hs : sc.body.Executes (sc.body.source α) block.insts ρ ρ')
    (hk : sc.body.Executes (sc.known (sc.frozen κ α)) block.insts ρ ρ')
    (hagrees : sc.Agrees F κ α ρ σ) : ∃ τ, RunAll insts σ τ ∧ sc.Agrees F κ α ρ' τ := by
  obtain ⟨s, s', hcode, hF⟩ := hm.insts
  exact instsCode_follows hl.body_eq hl.havoc hm.numeric.insts_nodup
    (fun id hid i hi => (hm.numeric.inst id hid i hi).2) hcode hF hs hk hagrees

omit hl in
theorem passes_of_runs {mid : Valuation} (hl : sc.Laid F g place)
    (hm : sc.Made F g place v.block block insts last leaving middles)
    (hentered : sc.Shows F v.entered σ) (hinsts : RunAll insts σ mid)
    (hleft : sc.Shows F v.left mid) (hlast : RunAll last mid τ) : sc.Passes F g place v σ τ := by
  obtain ⟨label, hnode⟩ := hm.node
  exact ⟨block, _, hm.block_eq, hnode, hentered, runAll_append_iff.2 ⟨mid, hinsts, hlast⟩,
    hl.shows_outgoing hm hleft hlast⟩

/-- An execution of a block that shows the values of the run was allowed. -/
theorem insts_known (hm : sc.Made F g place v.block block insts last leaving middles)
    (hpasses : sc.Passes F g place v σ τ)
    (hs : sc.body.Executes (sc.body.source α) block.insts v.entered v.left)
    (hagrees : sc.Agrees F κ α v.entered σ) :
    ∃ mid, RunAll last mid τ ∧ sc.Agrees F κ α v.left mid ∧
      sc.body.Executes (sc.known (sc.frozen κ α)) block.insts v.entered v.left := by
  obtain ⟨block', node, hblock, hnode, -, hrun, hleft⟩ := hpasses
  obtain rfl : block' = block := Option.some.inj (hblock.symm.trans hm.block_eq)
  obtain ⟨label, hnode'⟩ := hm.node
  obtain rfl := Option.some.inj (hnode.symm.trans hnode')
  obtain ⟨mid, hinsts, hlast⟩ := runAll_append_iff.1 hrun
  obtain ⟨s, s', hcode, hF⟩ := hm.insts
  have hrecords : ∀ id ∈ block'.insts, sc.body.isPhi id = false → ∀ n, v.left id = some n →
      sc.Records F id n mid := by
    intro id _ hphi n hn hcomparison hshown x hx
    have harrives : sc.arrives block' id = false := arrives_of_isPhi hphi
    have hn' : sc.outgoing block' v.left id = some n := by rw [outgoing, harrives]; exact hn
    obtain ⟨y, hy, rfl⟩ := hleft id n hcomparison hshown hn'
    obtain rfl := Option.some.inj (hx.symm.trans hy)
    exact ((hl.last_spec hm).2 mid τ hlast id x harrives hx).symm
  obtain ⟨hexecutes, hend⟩ := instsCode_known hl.body_eq hl.havoc hm.numeric.insts_nodup
    (fun id hid i hi => (hm.numeric.inst id hid i hi).2) hcode hF hs hinsts hrecords hagrees
  exact ⟨mid, hlast, hend, hexecutes⟩

theorem goes_on {succ : BlockId} {succBlock : Block} {j : Nat}
    (hm : sc.Made F g place b block insts last leaving middles) (hsucc : succ ∈ sc.body.order)
    (hblock : sc.body.block? succ = some succBlock)
    (hj : block.term.successors[j]? = some succ) :
    sc.NumericBlock succ succBlock ∧ sc.GoesOn F g place b block last succ succBlock := by
  obtain ⟨succBlock', _, _, _, _, hmade⟩ := hl.made succ hsucc
  obtain rfl : succBlock' = succBlock := Option.some.inj (hmade.block_eq.symm.trans hblock)
  refine ⟨hmade.numeric, ?_⟩
  have hsuccs := hm.node.succs_eq
  obtain ⟨s, s', hway, hF⟩ := hm.leaves
  cases hway with
  | nothing hterm => rw [hterm] at hj; cases hj
  | value hterm => rw [hterm] at hj; cases hj
  | stuck hterm => rw [hterm] at hj; cases hj
  | @jump target targetBlock _ hterm _ htarget hcode =>
      obtain rfl : target = succ := by
        rw [hterm] at hj
        exact (List.mem_singleton.1 (List.mem_of_getElem? hj)).symm
      obtain rfl := Option.some.inj (htarget.symm.trans hblock)
      obtain ⟨ps, hps, hcarries⟩ := phiCode_carriesOut hl.body_eq hmade.numeric hcode hF
      exact .jump hterm hsuccs hps (hmade.numeric.fitPhi hl.body_eq hps) hcarries
  | branch hbranching hedges =>
      have hmiddles : g.succs (place b) = middles := hsuccs
      obtain ⟨hmade, hexists⟩ := hm.edges hedges hF
      exact .edges hbranching rfl (hmiddles ▸ hmade) (hmiddles ▸ hexists) (hmiddles ▸ hm.apart)

section Step

variable {w : Visit} {rest : List Visit} {block' : Block} {mid υ : Valuation} {i j : Nat}
  (hm : sc.Made F g place v.block block insts last leaving middles)
  (hw : w.block ∈ sc.body.order) (hblock' : sc.body.block? w.block = some block')
  (hs : sc.body.Enters (sc.body.source α) v.block block' v.left w.entered)
  (hagrees : sc.Agrees F κ α v.left mid)
include hm hw hblock' hs hagrees

/-- A step of the run that is allowed is a step of an execution. -/
theorem step_follows (hreal : (sc.body.source α).leaves v.left block.term j)
    (hi : block.term.successors[i]? = some w.block)
    (hleaves : (sc.known (sc.frozen κ α)).leaves v.left block.term i)
    (hk : sc.body.Enters (sc.known (sc.frozen κ α)) v.block block' v.left w.entered)
    (hpasses : ∀ τ, RunAll last mid τ → sc.Passes F g place v σ τ)
    (hrest : ∀ τ, sc.Agrees F κ α w.entered τ → sc.Follows F g place (w :: rest) τ) :
    sc.Follows F g place (v :: w :: rest) σ := by
  obtain ⟨hnumeric, hway⟩ := hl.goes_on hm hw hblock' hi
  cases hway with
  | jump hterm hsuccs hps hfit hcarries =>
      obtain ⟨τ, hrun, hend⟩ := hcarries.follows hps hfit hs hagrees hk
      refine .jump (hpasses τ hrun) ?_ (hrest τ hend)
      rw [hsuccs]
      exact List.mem_singleton_self _
  | edges hbranching hlast _ hexists hapart =>
      subst hlast
      obtain ⟨m, hmem, edge, hedge⟩ := hexists i w.block hi
      obtain ⟨u, n, hoperand, hreads⟩ := reads_of_leaves hreal hbranching
      obtain ⟨s₁, s₂, hcode, hgrown⟩ := hedge.code
      obtain ⟨υ, hrun, hend⟩ := edgeCode_follows hl.body_eq hl.havoc hm.numeric hnumeric hblock'
        hbranching hi hcode hgrown hoperand hreads hs hagrees hleaves hk
      obtain ⟨label, hnode⟩ := hedge.node
      refine .cross (hpasses mid .nil) hmem (hapart m hmem) hnode hrun ?_ (hrest υ hend)
      rw [hedge.node.succs_eq]
      exact List.mem_singleton_self _

/-- A direct step of an execution is a step of the run that is allowed. -/
theorem jump_known (hj : block.term.successors[j]? = some w.block)
    (hedge : place w.block ∈ g.succs (place v.block)) (hlast : RunAll last mid τ)
    (hshows : sc.Shows F w.entered τ) :
    (sc.known (sc.frozen κ α)).leaves v.left block.term j ∧
      sc.body.Enters (sc.known (sc.frozen κ α)) v.block block' v.left w.entered ∧
      sc.Agrees F κ α w.entered τ := by
  obtain ⟨-, hway⟩ := hl.goes_on hm hw hblock' hj
  cases hway with
  | jump hterm _ hps hfit hcarries =>
      refine ⟨?_, hcarries.known hps hfit hs hagrees hlast hshows⟩
      rw [hterm]
      trivial
  | edges _ _ _ _ hapart => exact absurd rfl (hapart _ hedge w.block hw)

/-- A step of an execution through a block of its own is a step of the run that is allowed. -/
theorem cross_known {m : Handle} {node : Node}
    (hreal : (sc.body.source α).leaves v.left block.term j)
    (hj : block.term.successors[j]? = some w.block) (hedge : m ∈ g.succs (place v.block))
    (hown : ∀ b ∈ sc.body.order, place b ≠ m) (hnode : g.nodes.get? m = some node)
    (hedge' : place w.block ∈ g.succs m) (hlast : RunAll last mid τ)
    (hrun : RunAll node.stmts τ υ) (hshows : sc.Shows F w.entered υ) :
    ∃ i, block.term.successors[i]? = some w.block ∧
      (sc.known (sc.frozen κ α)).leaves v.left block.term i ∧
      sc.body.Enters (sc.known (sc.frozen κ α)) v.block block' v.left w.entered ∧
      sc.Agrees F κ α w.entered υ := by
  obtain ⟨hnumeric, hway⟩ := hl.goes_on hm hw hblock' hj
  cases hway with
  | jump _ hsuccs =>
      rw [hsuccs] at hedge
      exact absurd (List.mem_singleton.1 hedge).symm (hown w.block hw)
  | edges hbranching hempty hmade =>
      subst hempty
      obtain rfl := runAll_nil_iff.1 hlast
      obtain ⟨i, succ, edge, hmadeEdge⟩ := hmade m hedge
      obtain ⟨s₁, s₂, hcode, hgrown⟩ := hmadeEdge.code
      have hsucc : succ = w.block := by
        rw [hmadeEdge.node.succs_eq] at hedge'
        obtain ⟨_, _, _, _, _, _, horder, _⟩ := edgeCode_spec hcode
        exact hl.injective _ horder _ hw (List.mem_singleton.1 hedge').symm
      subst hsucc
      obtain ⟨label, hnode'⟩ := hmadeEdge.node
      obtain rfl := Option.some.inj (hnode.symm.trans hnode')
      obtain ⟨u, n, hoperand, hreads⟩ := reads_of_leaves hreal hbranching
      exact ⟨i, hmadeEdge.succ_eq, edgeCode_known hl.body_eq hl.havoc hm.numeric hnumeric hblock'
        hbranching hmadeEdge.succ_eq hcode hgrown hoperand hreads hs hagrees hrun hshows⟩

end Step

/-- A run that is allowed is followed by an execution. -/
theorem follows_of_known {r : List Visit} (hk : sc.body.Run (sc.known (sc.frozen κ α)) r)
    (hs : sc.body.Run (sc.body.source α) r)
    (hagrees : ∀ v ∈ r.head?, sc.Agrees F κ α v.entered σ) : sc.Follows F g place r σ := by
  induction hk generalizing σ with
  | @last v block hv hblock hk =>
      cases hs with
      | last _ hblock' hs =>
          obtain ⟨_, insts, last, leaving, middles, hm⟩ := hl.made v.block hv
          obtain rfl := Option.some.inj (hm.block_eq.symm.trans hblock)
          obtain rfl := Option.some.inj (hm.block_eq.symm.trans hblock')
          have hentered := hagrees v rfl
          obtain ⟨mid, hinsts, hleft⟩ := hl.insts_follow hm hs hk hentered
          obtain ⟨τ, hlast⟩ := (hl.last_spec hm).1 mid
          exact .last (passes_of_runs hl hm hentered.shows hinsts hleft.shows hlast)
  | @step v w rest block block' i hv hblock hk hi hleaves hblock' henters hrest ih =>
      cases hs with
      | @step _ _ _ _ _ j _ hblock₂ hs hj hreal hblock'₂ hs' hsrest =>
          obtain ⟨_, insts, last, leaving, middles, hm⟩ := hl.made v.block hv
          obtain rfl := Option.some.inj (hm.block_eq.symm.trans hblock)
          obtain rfl := Option.some.inj (hm.block_eq.symm.trans hblock₂)
          obtain rfl := Option.some.inj (hblock'.symm.trans hblock'₂)
          have hentered := hagrees v rfl
          obtain ⟨mid, hinsts, hleft⟩ := hl.insts_follow hm hs hk hentered
          refine hl.step_follows hm (run_mem_order hsrest) hblock' hs' hleft hreal hi hleaves
            henters (fun τ => passes_of_runs hl hm hentered.shows hinsts hleft.shows)
            (fun τ hτ => ih hsrest fun u hu => ?_)
          obtain rfl := Option.some.inj hu
          exact hτ

/-- An execution only follows runs that are allowed. -/
theorem known_of_follows {r : List Visit} (hf : sc.Follows F g place r σ)
    (hs : sc.body.Run (sc.body.source α) r)
    (hagrees : ∀ v ∈ r.head?, sc.Agrees F κ α v.entered σ) :
    sc.body.Run (sc.known (sc.frozen κ α)) r := by
  induction hf with
  | @last v σ τ hpasses =>
      cases hs with
      | @last _ block hv hblock hs =>
          obtain ⟨_, insts, last, leaving, middles, hm⟩ := hl.made v.block hv
          obtain rfl := Option.some.inj (hm.block_eq.symm.trans hblock)
          obtain ⟨mid, -, -, hk⟩ := hl.insts_known hm hpasses hs (hagrees v rfl)
          exact .last hv hblock hk
  | @jump v w rest σ τ hpasses hedge hrest ih =>
      cases hs with
      | @step _ _ _ block block' j hv hblock hs hj hreal hblock' hs' hsrest =>
          obtain ⟨_, insts, last, leaving, middles, hm⟩ := hl.made v.block hv
          obtain rfl := Option.some.inj (hm.block_eq.symm.trans hblock)
          obtain ⟨mid, hlast, hleft, hk⟩ := hl.insts_known hm hpasses hs (hagrees v rfl)
          obtain ⟨hleaves, henters, hend⟩ := hl.jump_known hm (run_mem_order hsrest) hblock' hs'
            hleft hj hedge hlast hrest.shows
          refine .step hv hblock hk hj hleaves hblock' henters (ih hsrest fun u hu => ?_)
          obtain rfl := Option.some.inj hu
          exact hend
  | @cross v w rest m node σ τ υ hpasses hedge hown hnode hrun hedge' hrest ih =>
      cases hs with
      | @step _ _ _ block block' j hv hblock hs hj hreal hblock' hs' hsrest =>
          obtain ⟨_, insts, last, leaving, middles, hm⟩ := hl.made v.block hv
          obtain rfl := Option.some.inj (hm.block_eq.symm.trans hblock)
          obtain ⟨mid, hlast, hleft, hk⟩ := hl.insts_known hm hpasses hs (hagrees v rfl)
          obtain ⟨i, hi, hleaves, henters, hend⟩ := hl.cross_known hm (run_mem_order hsrest) hblock'
            hs' hleft hreal hj hedge hown hnode hedge' hlast hrun hrest.shows
          refine .step hv hblock hk hi hleaves hblock' henters (ih hsrest fun u hu => ?_)
          obtain rfl := Option.some.inj hu
          exact hend

end Laid

end Scope

end AffineFlow
