import AffineFlow.Proofs.Execution.Blocks
import AffineFlow.Proofs.Execution.Conditions

/-!
# What the code of an edge does

Control leaves under the condition of the edge, and the phis of the target take
their values. A condition that is forgotten on the way has to come out as it was,
because its variable still shows the value that it had in the run.
-/
namespace AffineFlow

open Ssa Lowering

namespace Scope

variable {sc : Scope} {F : VarSupply} {s s' : Session} {κ : InstId → Int} {α : Nat → Int}
  {ρ ρ' : Env} {σ τ : Valuation} {stmts : List Stmt} {pred : BlockId} {predName : String}
  {ps : List IncomingPhi} {block : Block}

theorem phiIds_eq (hps : sc.incomingPhis pred predName (sc.body.phis block) = .ok ps)
    {id : InstId} : id ∈ (sc.body.phis block).map (·.1) ↔ ∃ p ∈ ps, p.id = id := by
  rw [← (incomingPhis_spec hps).1]
  exact List.mem_map

theorem isComparison_of_phi (hps : sc.incomingPhis pred predName (sc.body.phis block) = .ok ps)
    {p : IncomingPhi} (hp : p ∈ ps) : sc.body.isComparison p.id = false := by
  obtain ⟨inst, hphi, -, -⟩ := (incomingPhis_spec hps).2 p hp
  obtain ⟨-, hinst, hkind⟩ := phis_spec hphi
  refine isComparison_eq_false (kind?_inst hinst) fun q a b he => ?_
  rw [he] at hkind
  cases hkind

/-- The value of a phi in a run comes from the operand that its code uses. -/
theorem enters_value {R : Rules} (he : sc.body.Enters R pred block ρ ρ')
    (hps : sc.incomingPhis pred predName (sc.body.phis block) = .ok ps) {p : IncomingPhi}
    (hp : p ∈ ps) : ∃ n, ρ' p.id = some n ∧ R.incoming ρ p.id p.value n := by
  obtain ⟨inst, hphi, -, hincoming⟩ := (incomingPhis_spec hps).2 p hp
  obtain ⟨v, n, hv, hn, hallowed⟩ := he.phi _ hphi
  obtain rfl := Option.some.inj (hv.symm.trans hincoming)
  exact ⟨n, hn, hallowed⟩

/-- The values that the visible phis take, by what the variables stand for. -/
def phiValues (sc : Scope) (ps : List IncomingPhi) (ρ' : Env) : Referent → Option Int
  | .value f (.inst id) =>
      if f = sc.funcId ∧ ∃ p ∈ ps, p.id = id ∧ sc.hidden (.inst p.id) = false then ρ' id
      else none
  | _ => none

theorem phiValues_of_mem {p : IncomingPhi} (hp : p ∈ ps) (hshown : sc.hidden (.inst p.id) = false) :
    sc.phiValues ps ρ' (.value sc.funcId (.inst p.id)) = ρ' p.id :=
  if_pos ⟨rfl, p, hp, rfl, hshown⟩

theorem phiValues_eq_none {r : Referent}
    (hr : ∀ p ∈ ps, sc.hidden (.inst p.id) = false → r ≠ .value sc.funcId (.inst p.id)) :
    sc.phiValues ps ρ' r = none := by
  unfold phiValues
  split
  next f id =>
    apply if_neg
    intro h
    obtain ⟨rfl, p, hp, rfl, hshown⟩ := h
    exact hr p hp hshown rfl
  next => rfl

namespace Taken

variable (ht : sc.Taken F ps σ τ)
  (hps : sc.incomingPhis pred predName (sc.body.phis block) = .ok ps)
include ht hps

theorem old {id : InstId} (hid : id ∉ (sc.body.phis block).map (·.1)) {x : Var}
    (hx : F.find? (.value sc.funcId (.inst id)) = some x) : τ x = σ x := by
  refine ht.other _ x hx fun p hp _ he => hid ?_
  have hsame := Value.inst.inj (Referent.value.inj he).2
  exact (phiIds_eq hps).2 ⟨p, hp, hsame.symm⟩

theorem holds (hholds : sc.Holds F κ α σ) : sc.Holds F κ α τ := by
  constructor
  · intro id x hcomparison hx
    rw [← hholds.comparison id x hcomparison hx]
    refine ht.old hps (fun hid => ?_) hx
    obtain ⟨p, hp, rfl⟩ := (phiIds_eq hps).1 hid
    cases hcomparison.symm.trans (isComparison_of_phi hps hp)
  · intro i x hx
    rw [← hholds.arg i x hx]
    exact ht.other _ x hx fun p hp _ he => nomatch (Referent.value.inj he).2

/-- If the phis have their values of the run, the variables agree with the run again. -/
theorem agrees {R : Rules} (he : sc.body.Enters R pred block ρ ρ')
    (hrecords : ∀ p ∈ ps, sc.hidden (.inst p.id) = false →
      ∃ x, F.find? (.value sc.funcId (.inst p.id)) = some x ∧ ρ' p.id = some (τ x))
    (hagrees : sc.Agrees F κ α ρ σ) : sc.Agrees F κ α ρ' τ := by
  refine ⟨fun id n hcomparison hshown hn => ?_, ht.holds hps hagrees.holds,
    hagrees.coherent.enters he⟩
  by_cases hid : id ∈ (sc.body.phis block).map (·.1)
  · obtain ⟨p, hp, rfl⟩ := (phiIds_eq hps).1 hid
    obtain ⟨x, hx, hvalue⟩ := hrecords p hp hshown
    exact ⟨x, hx, Option.some.inj (hvalue.symm.trans hn)⟩
  · rw [he.other id hid] at hn
    obtain ⟨x, hx, rfl⟩ := hagrees.shows id n hcomparison hshown hn
    exact ⟨x, hx, ht.old hps hid hx⟩

end Taken

namespace CarriesOut

variable (hc : sc.CarriesOut F ps stmts)
  (hps : sc.incomingPhis pred predName (sc.body.phis block) = .ok ps)
  (hfit : ∀ p ∈ ps, sc.FitPhi p) (hs : sc.body.Enters (sc.body.source α) pred block ρ ρ')
  (hagrees : sc.Agrees F κ α ρ σ)
include hc hps hfit hs hagrees

/-- The code can give the phis any values that they may have. -/
theorem follows (hk : sc.body.Enters (sc.known (sc.frozen κ α)) pred block ρ ρ') :
    ∃ τ, RunAll stmts σ τ ∧ sc.Agrees F κ α ρ' τ := by
  obtain ⟨τ, hset, hkept⟩ := exists_valuation F σ (sc.phiValues ps ρ')
  have htaken : sc.Taken F ps σ τ := by
    constructor
    · intro p hp hshown x hx e he
      obtain ⟨n, hn, hreads⟩ := enters_value hs hps hp
      obtain ⟨n', hn', hallowed⟩ := enters_value hk hps hp
      obtain rfl := Option.some.inj (hn.symm.trans hn')
      have hseen := he.agrees (hfit p hp).2.1 (defined_of_reads hreads) hagrees
      rw [hset _ x n hx ((phiValues_of_mem hp hshown).trans hn)]
      exact hallowed hshown _ hseen.symm
    · intro r x hx hr
      apply hkept x
      intro r' hr'
      obtain rfl := VarSupply.find?_injective hx hr'
      exact phiValues_eq_none hr
  obtain ⟨τ', hrun, hsame⟩ := hc.exists_run σ τ htaken
  refine ⟨τ', hrun, Agrees.congr (htaken.agrees hps hs ?_ hagrees) hsame⟩
  intro p hp hshown
  obtain ⟨⟨x, hx⟩, -⟩ := hc.form? p hp hshown
  obtain ⟨n, hn, -⟩ := enters_value hs hps hp
  exact ⟨x, hx, by rw [hset _ x n hx ((phiValues_of_mem hp hshown).trans hn), hn]⟩

/-- The phis were allowed their values, if the variables show them afterwards. -/
theorem known (hrun : RunAll stmts σ τ) (hshows : sc.Shows F ρ' τ) :
    sc.body.Enters (sc.known (sc.frozen κ α)) pred block ρ ρ' ∧ sc.Agrees F κ α ρ' τ := by
  have htaken := hc.taken σ τ hrun
  have hrecords : ∀ p ∈ ps, sc.hidden (.inst p.id) = false →
      ∃ x, F.find? (.value sc.funcId (.inst p.id)) = some x ∧ ρ' p.id = some (τ x) := by
    intro p hp hshown
    obtain ⟨n, hn, -⟩ := enters_value hs hps hp
    obtain ⟨x, hx, rfl⟩ := hshows p.id n (isComparison_of_phi hps hp) hshown hn
    exact ⟨x, hx, hn⟩
  refine ⟨⟨fun q hq => ?_, hs.other⟩, htaken.agrees hps hs hrecords hagrees⟩
  obtain ⟨p, hp, hid⟩ := (phiIds_eq hps).1 (List.mem_map_of_mem hq)
  obtain ⟨v, n, hv, hn, hreads⟩ := hs.phi q hq
  refine ⟨v, n, hv, hn, fun hshown m hm => ?_⟩
  have hvalue : p.value = v := by
    obtain ⟨inst, hphi, -, hincoming⟩ := (incomingPhis_spec hps).2 p hp
    have hinst := (phis_spec hphi).2.1
    rw [hid, (phis_spec hq).2.1] at hinst
    rw [← show q.2 = inst from Option.some.inj hinst] at hincoming
    exact Option.some.inj (hincoming.symm.trans hv)
  subst hvalue
  rw [← hid] at hshown hn
  obtain ⟨x, hx, hend⟩ := hrecords p hp hshown
  obtain ⟨-, e?, he⟩ := hc.form? p hp hshown
  have hseen := he.agrees (hfit p hp).2.1 (defined_of_reads hreads) hagrees
  rw [hm] at hseen
  obtain ⟨e, rfl, rfl⟩ := Option.map_eq_some_iff.1 hseen
  rw [← htaken.value p hp hshown x hx e he]
  exact Option.some.inj (hn.symm.trans hend)

end CarriesOut

/-- Where control leaves under a condition, the value that decides has been read. -/
theorem reads_of_leaves {term : Terminator} {i : Nat} (h : term.Leaves α ρ i)
    (hbranching : term.isBranching = true) :
    ∃ v n, term.operand? = some v ∧ v.Reads α ρ n := by
  cases term with
  | condBr c onTrue onFalse => exact ⟨c, _, rfl, h⟩
  | switch v cases targets =>
      cases i with
      | zero =>
          obtain ⟨n, hn, -⟩ := h
          exact ⟨v, n, rfl, hn⟩
      | succ i =>
          obtain ⟨n, hn, -⟩ := h
          exact ⟨v, n, rfl, hn⟩
  | br target => cases hbranching
  | ret value => cases hbranching
  | unreachable => cases hbranching

/-- What has been forgotten has come out as it was, if it is shown after the phis. -/
theorem Forgets.recovered {υ : Valuation} {R : Rules} (hf : sc.Forgets F ρ σ τ)
    (ht : sc.Taken F ps τ υ)
    (hps : sc.incomingPhis pred predName (sc.body.phis block) = .ok ps)
    (he : sc.body.Enters R pred block ρ ρ') (hshows : sc.Shows F ρ' υ)
    (hagrees : sc.Agrees F κ α ρ σ) : τ = σ := by
  rcases hf with rfl | ⟨id, op, a, b, x, m, hkind, hshown, hdefined, hx, rfl⟩
  · rfl
  have hcomparison := isComparison_eq_false hkind fun _ _ _ => nofun
  have hid : id ∉ (sc.body.phis block).map (·.1) := by
    intro hm
    obtain ⟨q, hq, rfl⟩ := List.mem_map.1 hm
    obtain ⟨-, hinst, hphi⟩ := phis_spec hq
    rw [Option.some.inj ((kind?_inst hinst).symm.trans hkind)] at hphi
    cases hphi
  obtain ⟨n, hn⟩ := Option.isSome_iff_exists.1 hdefined
  obtain ⟨y, hy, hbefore⟩ := hagrees.shows id n hcomparison hshown hn
  obtain rfl := Option.some.inj (hx.symm.trans hy)
  obtain ⟨y, hy, hafter⟩ := hshows id n hcomparison hshown ((he.other id hid).trans hn)
  obtain rfl := Option.some.inj (hx.symm.trans hy)
  have hm : m = n := by rw [← hafter, ht.old hps hid hx, Function.update_self]
  rw [hm, ← hbefore, Function.update_eq_self]

section Edges

variable {source succ : BlockId} {succBlock : Block} {index : Nat} {edge : EdgeCode} {n : Int}
  {v : Value} (hbody : sc.func.body = some sc.body)
  (hhavoc : sc.settings.explicitHavoc = true) (hb : sc.NumericBlock source block)
  (hsucc : sc.NumericBlock succ succBlock) (hblock : sc.body.block? succ = some succBlock)
  (hbranching : block.term.isBranching = true)
  (hindex : block.term.successors[index]? = some succ)
  (h : Yields (sc.edgeCode source block index succ) s edge s') (hF : s'.supply.Extends F)
  (hoperand : block.term.operand? = some v) (hreads : v.Reads α ρ n)
  (hs : sc.body.Enters (sc.body.source α) source succBlock ρ ρ')
  (hagrees : sc.Agrees F κ α ρ σ)
include hbody hhavoc hb hsucc hblock hbranching hindex h hF hoperand hreads hs hagrees

/-- What the code of an edge is, and what its parts do. -/
theorem edgeCode_parts : ∃ condition phis ps, edge.stmts = condition ++ phis ∧
    sc.incomingPhis source block.name (sc.body.phis succBlock) = .ok ps ∧
    (∀ p ∈ ps, sc.FitPhi p) ∧ sc.CarriesOut F ps phis ∧
    sc.Guards F ρ σ ((sc.known (sc.frozen κ α)).leaves ρ block.term index) condition := by
  obtain ⟨succBlock', condition, phis, s₁, s₂, hblock', -, -, hstmts, -, hcondition, hphis⟩ :=
    edgeCode_spec h
  obtain rfl : succBlock' = succBlock := Option.some.inj (hblock'.symm.trans hblock)
  have hlater := (sc.phiCode_grows _ _ _ _ _ _ _ hphis).trans hF
  obtain ⟨ps, hps, hcarries⟩ := phiCode_carriesOut hbody hsucc hphis hF
  have hlt := (List.getElem?_eq_some_iff.1 hindex).1
  exact ⟨condition, phis, ps, hstmts, hps, hsucc.fitPhi hbody hps, hcarries,
    edgeCondition_runs hoperand hbranching hlt hb.term hhavoc hcondition hlater hagrees hreads⟩

theorem edgeCode_follows (hleaves : (sc.known (sc.frozen κ α)).leaves ρ block.term index)
    (hk : sc.body.Enters (sc.known (sc.frozen κ α)) source succBlock ρ ρ') :
    ∃ τ, RunAll edge.stmts σ τ ∧ sc.Agrees F κ α ρ' τ := by
  obtain ⟨condition, phis, ps, hstmts, hps, hfit, hcarries, hguards⟩ :=
    edgeCode_parts hbody hhavoc hb hsucc hblock hbranching hindex h hF hoperand hreads hs hagrees
  obtain ⟨τ, hrun, hend⟩ := hcarries.follows hps hfit hs hagrees hk
  exact ⟨τ, hstmts ▸ runAll_append_iff.2 ⟨σ, hguards.pass hleaves, hrun⟩, hend⟩

theorem edgeCode_known (hrun : RunAll edge.stmts σ τ) (hshows : sc.Shows F ρ' τ) :
    (sc.known (sc.frozen κ α)).leaves ρ block.term index ∧
      sc.body.Enters (sc.known (sc.frozen κ α)) source succBlock ρ ρ' ∧
      sc.Agrees F κ α ρ' τ := by
  obtain ⟨condition, phis, ps, hstmts, hps, hfit, hcarries, hguards⟩ :=
    edgeCode_parts hbody hhavoc hb hsucc hblock hbranching hindex h hF hoperand hreads hs hagrees
  rw [hstmts] at hrun
  obtain ⟨υ, hcondition, hphis⟩ := runAll_append_iff.1 hrun
  obtain ⟨hleaves, hforgets⟩ := hguards.only υ hcondition
  obtain rfl := hforgets.recovered (hcarries.taken υ τ hphis) hps hs hshows hagrees
  exact ⟨hleaves, hcarries.known hps hfit hs hagrees hphis hshows⟩

end Edges

/-- Statements that can always be executed and change nothing that stands for something. -/
def Silent (F : VarSupply) (stmts : List Stmt) : Prop :=
  ∀ σ, (∃ τ, RunAll stmts σ τ) ∧ ∀ τ, RunAll stmts σ τ → SameFor F σ τ

theorem silent_nil : Silent F [] := by
  intro σ
  refine ⟨⟨σ, .nil⟩, fun τ hrun r x _ => ?_⟩
  rw [runAll_nil_iff.1 hrun]

/-- The code of a return sets a temporary at most. -/
theorem returnCode_silent {value : Value} (h : Yields (sc.returnCode value) s stmts s')
    (hF : s'.supply.Extends F) : Silent F stmts := by
  rcases yields_onlyIf.1 h with ⟨-, h⟩ | ⟨-, rfl, -⟩
  swap
  · exact silent_nil
  simp only [yields_bind, yields_pure] at h
  obtain ⟨⟨⟨x, type⟩, setup⟩, s₁, hpassed, rfl, rfl⟩ := h
  unfold passed at hpassed
  split at hpassed
  · obtain ⟨hspare, -, rfl, -⟩ := literalTemporary_spec hpassed hF
    intro σ
    obtain ⟨τ, hτ⟩ := Write.exists_runs (x, value.literalForm?) σ
    refine ⟨⟨τ, .cons hτ (.cons .ret .nil)⟩, fun υ hrun r y hy => hrun.frame ?_⟩
    have hne : x ≠ y := fun he => hspare r (he ▸ hy)
    refine untouched_cons_iff.2 ⟨?_, untouched_cons_iff.2 ⟨by simp [Stmt.target?], untouched_nil⟩⟩
    rw [Write.target?_stmt]
    exact fun he => hne (Option.some.inj he)
  · simp only [yields_bind, yields_ofExcept, yields_pure] at hpassed
    obtain ⟨ty, _, -, y, _, -, he, rfl⟩ := hpassed
    obtain ⟨-, rfl⟩ := Prod.mk.inj he
    intro σ
    refine ⟨⟨σ, .cons .ret .nil⟩, fun υ hrun r y hy => hrun.frame ?_⟩
    exact untouched_cons_iff.2 ⟨by simp [Stmt.target?], untouched_nil⟩

end Scope

end AffineFlow
