import AffineFlow.Proofs.Execution.Instructions
import AffineFlow.Proofs.Phis.Simultaneous

/-!
# What the code of phis does

In a numeric function every phi that is not hidden takes the value of an
operand whose form is known, and takes it at the same time as the others. So the
code along an edge can do exactly what the phis may do.
-/
namespace AffineFlow

open Ssa Lowering

namespace Scope

variable {sc : Scope} {F : VarSupply} {s s' : Session} {stmts : List Stmt} {pred : BlockId}
  {predName : String} {ps : List IncomingPhi} {size size' : Nat}

/-- The phi is an integer, and so is its operand. -/
def FitPhi (sc : Scope) (p : IncomingPhi) : Prop :=
  p.ty.isInt = true ∧ sc.isNumber p.value = true ∧
    sc.tracks (.inst p.id) = .ok (!sc.hidden (.inst p.id))

theorem FitPhi.moves {p : IncomingPhi} (hp : sc.FitPhi p) :
    sc.moves p = !sc.hidden (.inst p.id) := by
  rw [Scope.moves, isYes_of_eq hp.2.2, phiFlows, hp.1, Bool.or_true, Bool.and_true]

/-- The form that an integer has in a supply, if it has one wherever it can be expressed. -/
theorem expresses_form? {v : Value} (hv : sc.isNumber v = true)
    (hformed : (sc.form? F v).isSome = sc.isExpressible v) : sc.Expresses F v (sc.form? F v) := by
  have hasked : v.isLiteral = false → sc.isExpressible v = isYes (sc.tracks v) →
      if sc.hidden v then sc.form? F v = none
      else ∃ x, sc.form? F v = some (.ofVar x) ∧ sc.Denotes F v x := by
    intro hliteral hexpressible
    rw [hexpressible, isYes_of_eq (tracks_of_isNumber hv)] at hformed
    cases hhidden : sc.hidden v with
    | true =>
        rw [hhidden] at hformed
        exact Option.isNone_iff_eq_none.1 (Option.isSome_eq_false_iff.1 hformed)
    | false =>
        rw [hhidden] at hformed
        obtain ⟨e, he⟩ := Option.isSome_iff_exists.1 hformed
        obtain ⟨-, x, hx, rfl⟩ := (form?_eq_some_iff hliteral).1 he
        exact ⟨x, he, hx⟩
  cases v with
  | int bits n =>
      obtain ⟨m, hm⟩ := Option.isSome_iff_exists.1 (Bool.and_eq_true_iff.1 hv).2
      obtain rfl : m = n := by
        unfold fit64 at hm
        split at hm
        next => exact (Option.some.inj hm).symm
        next => cases hm
      show sc.form? F (.int bits m) = some (.const (literalValue bits m))
      rw [form?, literalValue, hm]
      split
      next => rfl
      next => rfl
  | null => cases hv
  | undef bits => exact rfl
  | inst id => exact hasked rfl rfl
  | arg i => exact hasked rfl rfl
  | global id => exact hasked rfl rfl
  | func id => exact hasked rfl rfl

/-- The phis have taken their values, and everything else is as it was. -/
structure Taken (sc : Scope) (F : VarSupply) (ps : List IncomingPhi) (σ τ : Valuation) :
    Prop where
  value : ∀ p ∈ ps, sc.hidden (.inst p.id) = false →
    ∀ x, F.find? (.value sc.funcId (.inst p.id)) = some x →
      ∀ e, sc.Expresses F p.value (some e) → τ x = e.eval σ
  other : ∀ r x, F.find? r = some x →
    (∀ p ∈ ps, sc.hidden (.inst p.id) = false → r ≠ .value sc.funcId (.inst p.id)) → τ x = σ x

/-- The statements can do whatever the phis may do, and nothing else. -/
structure CarriesOut (sc : Scope) (F : VarSupply) (ps : List IncomingPhi) (stmts : List Stmt) :
    Prop where
  form? : ∀ p ∈ ps, sc.hidden (.inst p.id) = false →
    (∃ x, F.find? (.value sc.funcId (.inst p.id)) = some x) ∧ ∃ e?, sc.Expresses F p.value e?
  total : ∀ σ, ∃ τ, RunAll stmts σ τ
  taken : ∀ σ τ, RunAll stmts σ τ → sc.Taken F ps σ τ
  exists_run : ∀ σ τ, sc.Taken F ps σ τ → ∃ τ', RunAll stmts σ τ' ∧ SameFor F τ τ'

theorem Simultaneous.carriesOut (hfit : ∀ p ∈ ps, sc.FitPhi p)
    (h : sc.Simultaneous F size size' ps stmts) : sc.CarriesOut F ps stmts := by
  have hmoves : ∀ p ∈ ps, sc.hidden (.inst p.id) = false → sc.moves p = true := by
    intro p hp hshown
    rw [(hfit p hp).moves, hshown]
    rfl
  have hform : ∀ p ∈ ps, sc.hidden (.inst p.id) = false →
      sc.Expresses F p.value (sc.form? F p.value) := fun p hp hshown =>
    expresses_form? (hfit p hp).2.1 (h.formed p hp (hmoves p hp hshown))
  have htaken : ∀ σ τ, RunAll stmts σ τ → sc.Taken F ps σ τ := by
    intro σ τ hrun
    refine ⟨fun p hp hshown x hx e he => ?_, fun r x hx hr => by_contra fun hne => ?_⟩
    · exact h.value σ τ hrun p hp (hmoves p hp hshown) x hx e ((hform p hp hshown).unique he)
    · rcases h.other σ τ hrun x hne with ⟨p, hp, hm, hfind⟩ | ⟨hspare, -⟩
      · rw [(hfit p hp).moves, Bool.not_eq_true'] at hm
        exact hr p hp hm (VarSupply.find?_injective hx hfind)
      · exact hspare r hx
  refine ⟨fun p hp hshown => ?_, h.total, htaken, fun σ τ ht => ?_⟩
  · exact ⟨h.target p hp (hmoves p hp hshown), _, hform p hp hshown⟩
  · obtain ⟨τ', hrun, hsame⟩ := h.any σ τ fun p hp hm x hx e he => by
      rw [(hfit p hp).moves, Bool.not_eq_true'] at hm
      exact ht.value p hp hm x hx e (he ▸ hform p hp hm)
    refine ⟨τ', hrun, fun r x hx => ?_⟩
    by_cases hphi : ∃ p ∈ ps, sc.moves p = true ∧ sc.phiVariable? F p.id = some x
    · obtain ⟨p, hp, hm, hfind⟩ := hphi
      exact hsame p hp hm x hfind
    · have hnot : ∀ p ∈ ps, sc.hidden (.inst p.id) = false →
          r ≠ .value sc.funcId (.inst p.id) := by
        rintro p hp hshown rfl
        exact hphi ⟨p, hp, hmoves p hp hshown, hx⟩
      rw [(htaken σ τ' hrun).other r x hx hnot, ht.other r x hx hnot]

/-- What is known of a block of a numeric function. -/
structure NumericBlock (sc : Scope) (b : BlockId) (block : Block) : Prop where
  insts_nodup : block.insts.Nodup
  term : sc.isNumericTerm block.term = true
  inst : ∀ id ∈ block.insts, ∀ i, sc.body.inst? id = some i →
    i.block = b ∧ i.ty.isInt = true ∧ sc.isNumericKind i.kind = true

theorem numericBlock_of_isNumeric {b : BlockId} {block : Block} (hnumeric : sc.isNumeric = true)
    (hb : b ∈ sc.body.order) (hblock : sc.body.block? b = some block) :
    sc.NumericBlock b block := by
  have hall := List.all_eq_true.1 (Bool.and_eq_true_iff.1 hnumeric).2 b hb
  rw [hblock, Option.all_some, isNumericBlock] at hall
  simp only [Bool.and_eq_true, decide_eq_true_eq, List.all_eq_true] at hall
  obtain ⟨⟨hn, hterm⟩, hinsts⟩ := hall
  refine ⟨hn, hterm, fun id hid i hi => ?_⟩
  have hinst := hinsts id hid
  rw [hi, Option.all_some] at hinst
  simpa only [Bool.and_eq_true, decide_eq_true_eq, and_assoc] using hinst

variable {target : BlockId} {targetBlock : Block}

theorem NumericBlock.fitPhi (hbody : sc.func.body = some sc.body)
    (hb : sc.NumericBlock target targetBlock)
    (h : sc.incomingPhis pred predName (sc.body.phis targetBlock) = .ok ps) :
    ∀ p ∈ ps, sc.FitPhi p := by
  intro p hp
  obtain ⟨inst, hphi, hty, hincoming⟩ := (incomingPhis_spec h).2 p hp
  obtain ⟨hmem, hinst, -⟩ := phis_spec hphi
  obtain ⟨-, hint, hnumeric⟩ := hb.inst p.id hmem inst hinst
  have htype : sc.typeOf (.inst p.id) = .ok inst.ty := typeOf_inst hbody hinst
  refine ⟨hty ▸ hint, ?_, tracks_of_typeOf htype hint⟩
  unfold incomingValue? at hincoming
  split at hincoming
  next incoming hk =>
    rw [hk] at hnumeric
    obtain ⟨l₁, l₂, hl, -⟩ := List.lookup_eq_some_iff.1 hincoming
    exact List.all_eq_true.1 hnumeric (pred, p.value)
      (hl ▸ List.mem_append_right _ List.mem_cons_self)
  next => cases hincoming

theorem phiCode_carriesOut (hbody : sc.func.body = some sc.body)
    (hb : sc.NumericBlock target targetBlock)
    (h : Yields (sc.phiCode target targetBlock pred predName) s stmts s')
    (hF : s'.supply.Extends F) :
    ∃ ps, sc.incomingPhis pred predName (sc.body.phis targetBlock) = .ok ps ∧
      sc.CarriesOut F ps stmts := by
  have hn := hb.insts_nodup.sublist (phis_sublist sc.body targetBlock)
  have hplaced : ∀ p ∈ sc.body.phis targetBlock, p.2.block = target := fun p hp =>
    (hb.inst p.1 (phis_spec hp).1 p.2 (phis_spec hp).2.1).1
  obtain ⟨ps, hps, hsimultaneous⟩ := phiCode_simultaneous hn hplaced h hF
  exact ⟨ps, hps, hsimultaneous.carriesOut (hb.fitPhi hbody hps)⟩

end Scope

end AffineFlow
