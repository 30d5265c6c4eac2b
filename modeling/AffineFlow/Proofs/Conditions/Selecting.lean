import AffineFlow.Proofs.Conditions.Comparisons

/-!
# Selections are exact or forgotten

A selection looks at its condition in one of three ways: a literal is decided at
once, a comparison that is one constraint becomes the guard, and any other
condition is read from its variable. They agree where the variable of a
comparison holds the outcome: the result is the first operand if the condition
is not zero, and else the second one. A comparison that is several constraints is
read from its variable, since the negation of all of them together is none.
-/
namespace AffineFlow

open Ssa Lowering

namespace Scope

/-- The comparison that a condition is, with the forms of its operands. -/
def comparisonForms? (sc : Scope) (F : VarSupply) (cond : Value) :
    Option (Predicate × AffineForm × AffineForm) :=
  match sc.body.kind? cond with
  | some (.compare pred a b) =>
      (sc.form? F a).bind fun x => (sc.form? F b).map fun y => (pred, x, y)
  | _ => none

/-- The number that a condition is: the literal, the outcome of a comparison whose operands have
forms, or else what the variable holds. -/
def conditionValue? (sc : Scope) (F : VarSupply) (σ : Valuation) (cond : Value) : Option Int :=
  match cond.toInt? with
  | some n => some n
  | none =>
      match sc.comparisonForms? F cond with
      | some (pred, x, y) => some (pred.test (x.eval σ) (y.eval σ)).toInt
      | none => (sc.form? F cond).map (·.eval σ)

/-- If the condition is a comparison, its variable holds the outcome, and no operand of an unsigned
one is negative. -/
structure Respects (sc : Scope) (F : VarSupply) (cond : Value) (σ : Valuation) : Prop where
  outcome : ∀ pred x y v, sc.comparisonForms? F cond = some (pred, x, y) →
    sc.form? F cond = some (.ofVar v) → σ v = (pred.test (x.eval σ) (y.eval σ)).toInt
  signs : ∀ pred x y, sc.comparisonForms? F cond = some (pred, x, y) → pred.isUnsigned = true →
    0 ≤ x.eval σ ∧ 0 ≤ y.eval σ

/-- The code leaves one of the two forms in `x`, the first one if the condition is not zero and
the second one if it is, and changes nothing else. -/
def Selects (sc : Scope) (F : VarSupply) (code : List Stmt) (x : Var) (cond : Value)
    (p q : AffineForm) : Prop :=
  ∀ σ, sc.Respects F cond σ → ∃ n, sc.conditionValue? F σ cond = some n ∧
    ∀ τ, RunAll code σ τ ↔ τ = Function.update σ x (if n = 0 then q.eval σ else p.eval σ)

variable {sc : Scope} {F : VarSupply} {s s' t t' : Session} {id : InstId} {cond a b v : Value}
  {pred : Predicate} {x dst : Var} {p q e : AffineForm} {code : List Stmt} {cs : List Constraint}

/-- A form is a variable just if the operand is no literal. -/
theorem form?_isVar (he : sc.form? F v = some e) : e.isVar = !v.isLiteral := by
  cases hv : v.isLiteral with
  | true =>
      obtain ⟨n, rfl⟩ := exists_const_of_form? hv he
      rfl
  | false =>
      obtain ⟨-, x, -, rfl⟩ := (form?_eq_some_iff hv).1 he
      rfl

/-- How many constraints a comparison is does not depend on when it is asked for. -/
theorem comparisonConstraints_length {negated : Bool}
    (h : Yields (sc.comparisonConstraints pred a b negated) s cs s') : cs.length =
      if sc.isExpressible a && sc.isExpressible b then
        (if pred.isUnsigned then ([a, b].filter fun v => !v.isLiteral).length else 0) + 1
      else 0 := by
  obtain ⟨⟨r, u, w⟩, horient⟩ : ∃ o, orient pred a b = o := ⟨_, rfl⟩
  obtain ⟨hunsigned, hplaces⟩ := orient_spec horient
  have hordered : cs.length = if sc.isExpressible u && sc.isExpressible w then
      (if pred.isUnsigned then ([u, w].filter fun v => !v.isLiteral).length else 0) + 1
      else 0 := by
    rcases comparisonConstraints_forms h (.refl _) horient with ⟨x, y, hx, hy, rfl⟩ | ⟨hnot, rfl⟩
    · rw [isExpressible_of_form? hx, isExpressible_of_form? hy, Bool.and_self, if_pos rfl,
        List.length_append, List.length_singleton, signConstraints, hunsigned]
      split
      · simp only [List.length_map, List.filter, form?_isVar hx, form?_isVar hy]
        cases u.isLiteral <;> cases w.isLiteral <;> rfl
      · rfl
    · rw [hnot, if_neg Bool.false_ne_true]
      rfl
  rcases hplaces with ⟨rfl, rfl, -⟩ | ⟨rfl, rfl, -⟩
  · exact hordered
  · rw [hordered, Bool.and_comm]
    cases hu : u.isLiteral <;> cases hw : w.isLiteral <;> simp [List.filter, hu, hw]

/-- A guard says what the comparison says. Where there is none, the condition is no comparison that
is one constraint. -/
theorem guardConstraint?_spec {guard : Option Constraint}
    (h : Yields (sc.guardConstraint? cond) s guard s') (hF : s'.supply.Extends F) :
    (∃ c pred x y, guard = some c ∧ sc.comparisonForms? F cond = some (pred, x, y) ∧
      ∀ σ : Valuation, c.Holds σ ↔
        pred.test (x.eval σ) (y.eval σ) = true ∧ SignsHold σ pred x y) ∨
    guard = none ∧ ∀ pred a b, sc.body.kind? cond = some (.compare pred a b) →
      ∀ t c t', ¬Yields (sc.comparisonConstraints pred a b false) t [c] t' := by
  unfold guardConstraint? at h
  split at h
  next pred a b hkind =>
    obtain ⟨cs, s₁, hcs, h⟩ := yields_bind.1 h
    split at h
    next c =>
      obtain ⟨rfl, rfl⟩ := yields_pure.1 h
      have hboth : (sc.isExpressible a && sc.isExpressible b) = true := by
        by_contra hnot
        have hlength := comparisonConstraints_length hcs
        rw [if_neg hnot] at hlength
        cases hlength
      obtain ⟨ha, hb⟩ := Bool.and_eq_true_iff.1 hboth
      obtain ⟨x, y, hx, hy, hholds⟩ := comparisonConstraints_holds_iff hcs hF ha hb
      refine .inl ⟨c, pred, x, y, rfl, ?_, fun σ => ?_⟩
      · simp only [comparisonForms?, hkind, hx, hy, Option.bind_some, Option.map_some]
      · have hiff := hholds σ
        rwa [List.forall_mem_singleton, Bool.not_false] at hiff
    next hmany =>
      obtain ⟨rfl, rfl⟩ := yields_pure.1 h
      refine .inr ⟨rfl, fun pred' a' b' hkind' t c t' hone => ?_⟩
      obtain ⟨rfl, rfl, rfl⟩ : pred = pred' ∧ a = a' ∧ b = b' := by
        simpa using hkind.symm.trans hkind'
      -- there were not just as many constraints when they were asked for
      have hlength := (comparisonConstraints_length hcs).trans
        (comparisonConstraints_length hone).symm
      obtain ⟨d, rfl⟩ := List.length_eq_one_iff.1 hlength
      exact hmany d rfl
  next hnot =>
    obtain ⟨rfl, -⟩ := yields_pure.1 h
    exact .inr ⟨rfl, fun pred a b hkind => absurd hkind (hnot pred a b)⟩

theorem selects_assign {n : Int} (hn : cond.toInt? = some n) :
    sc.Selects F [.assign x (if n = 0 then q else p)] x cond p q := by
  intro σ _
  refine ⟨n, by simp only [conditionValue?, hn], fun τ => ?_⟩
  rw [runAll_singleton_iff, runs_assign_iff, apply_ite (AffineForm.eval σ)]

/-- A guard that holds where the condition is not zero. -/
theorem selects_select {guard : Guard} (hguard : ∀ σ, sc.Respects F cond σ →
    ∃ n, sc.conditionValue? F σ cond = some n ∧ (guard.Holds σ ↔ n ≠ 0)) :
    sc.Selects F [.select x guard p q] x cond p q := by
  intro σ hσ
  obtain ⟨n, hn, hiff⟩ := hguard σ hσ
  refine ⟨n, hn, fun τ => ?_⟩
  rw [runAll_singleton_iff, runs_select_iff]
  by_cases hzero : n = 0
  · rw [if_pos hzero, if_neg fun hholds => hiff.1 hholds hzero]
  · rw [if_neg hzero, if_pos (hiff.2 hzero)]

theorem chooseCode_selects (h : Yields (sc.chooseCode dst cond p q) s code s')
    (hF : s'.supply.Extends F) : sc.Selects F code dst cond p q ∨
      code = sc.forget dst ∧ sc.tracks cond = .ok false ∧
        ∀ pred a b, sc.body.kind? cond = some (.compare pred a b) →
          ∀ t c t', ¬Yields (sc.comparisonConstraints pred a b false) t [c] t' := by
  unfold chooseCode at h
  split at h
  next n hn =>
    obtain ⟨rfl, -⟩ := yields_pure.1 h
    exact .inl (selects_assign hn)
  next hint =>
    obtain ⟨guard, s₁, hguard, h⟩ := yields_bind.1 h
    cases guard with
    | some c =>
        obtain ⟨rfl, rfl⟩ := yields_pure.1 h
        obtain ⟨_, pred, x, y, ⟨⟩, hforms, hholds⟩ | ⟨⟨⟩, -⟩ := guardConstraint?_spec hguard hF
        refine .inl (selects_select fun σ hσ => ?_)
        have hsigns : SignsHold σ pred x y := by
          intro hunsigned e he _
          obtain ⟨hx, hy⟩ := hσ.signs pred x y hforms hunsigned
          rcases List.mem_pair.1 he with rfl | rfl
          · exact hx
          · exact hy
        refine ⟨_, by simp only [conditionValue?, hint, hforms]; rfl, ?_⟩
        rw [Guard.Holds, hholds, and_iff_left hsigns]
        cases pred.test (x.eval σ) (y.eval σ) <;> simp
    | none =>
        obtain ⟨_, _, _, _, ⟨⟩, -⟩ | ⟨-, hmany⟩ := guardConstraint?_spec hguard (.refl _)
        simp only [yields_bind, yields_ofExcept] at h
        obtain ⟨tracked, _, ⟨htracked, rfl⟩, h⟩ := h
        cases tracked with
        | false =>
            obtain ⟨rfl, -⟩ := yields_pure.1 h
            exact .inr ⟨rfl, htracked, hmany⟩
        | true =>
            simp only [if_true, yields_bind, yields_pure] at h
            obtain ⟨v, _, hv, rfl, rfl⟩ := h
            have hform := form?_of_denotes htracked (variableOf_spec hv hF).2
            refine .inl (selects_select fun σ hσ => ⟨σ v, ?_, .rfl⟩)
            simp only [conditionValue?, hint]
            split
            next pred x y hforms => rw [hσ.outcome pred x y v hforms hform]
            next => rw [hform, Option.map_some, AffineForm.eval_ofVar]

theorem instCode_of_select (hkind : sc.body.kind? (.inst id) = some (.select cond a b)) :
    sc.instCode id = sc.selectCode id cond a b := by
  obtain ⟨inst, hinst, hkind⟩ := Option.map_eq_some_iff.1 hkind
  rw [instCode, show sc.body.inst? id = some inst from hinst]
  simp only [hkind]

theorem isSelectWanted_eq (htracks : sc.tracks (.inst id) = .ok true)
    (hflow : sc.settings.integersOnly = true →
      sc.hasIntType a = .ok true ∧ sc.hasIntType b = .ok true) :
    sc.isSelectWanted id a b = .ok true := by
  have hflows : sc.operandsFlow a b = .ok true := by
    unfold operandsFlow
    split
    next hints =>
      obtain ⟨ha, hb⟩ := hflow hints
      rw [ha, hb]
      rfl
    next => rfl
  rw [isSelectWanted, htracks, hflows]
  rfl

/-- A tracked selection on an integer, between operands that can be expressed and that are integers
if only integers flow into the graph: its code leaves in the result the operand that the condition
chooses, whatever the condition is, and changes nothing else; or it only makes the result unknown,
if the condition is not tracked and no comparison that is one constraint. There is code from every
session. -/
theorem instCode_select_exact (hkind : sc.body.kind? (.inst id) = some (.select cond a b))
    (htracks : sc.tracks (.inst id) = .ok true) (hcond : sc.isInteger cond = true)
    (ha : sc.isExpressible a = true) (hb : sc.isExpressible b = true)
    (hflow : sc.settings.integersOnly = true →
      sc.hasIntType a = .ok true ∧ sc.hasIntType b = .ok true) :
    (∀ s code s' F, Yields (sc.instCode id) s code s' → s'.supply.Extends F →
      ∃ x p q, sc.form? F (.inst id) = some (.ofVar x) ∧ sc.form? F a = some p ∧
        sc.form? F b = some q ∧
        (sc.Selects F code x cond p q ∨ code = sc.forget x ∧ sc.tracks cond = .ok false ∧
          ∀ pred u w, sc.body.kind? cond = some (.compare pred u w) →
            ∀ t c t', ¬Yields (sc.comparisonConstraints pred u w false) t [c] t')) ∧
    (sc.HasKnownOperands cond → ∀ s, ∃ code s', Yields (sc.instCode id) s code s') := by
  rw [instCode_of_select hkind]
  have hwanted := isSelectWanted_eq htracks hflow
  refine ⟨fun s code s' F h hF => ?_, fun hoperands s => ?_⟩
  · obtain ⟨-, h⟩ | ⟨hnot, -⟩ := yields_onlyIf.1 h
    swap
    · cases hwanted.symm.trans hnot
    simp only [yields_bind] at h
    obtain ⟨x, s₁, hx, p?, s₂, hp, q?, s₃, hq, h⟩ := h
    obtain ⟨p, rfl, -⟩ := express_of_isExpressible hp (.refl _) ha
    obtain ⟨q, rfl, -⟩ := express_of_isExpressible hq (.refl _) hb
    have hF₃ := (sc.chooseCode_grows _ _ _ _ _ _ _ h).trans hF
    have hF₂ := (sc.express_grows b _ _ _ hq).trans hF₃
    have hdenotes := (variableOf_spec hx ((sc.express_grows a _ _ _ hp).trans hF₂)).2
    exact ⟨x, p, q, form?_of_denotes htracks hdenotes, (express_form hp hF₂).1.symm,
      (express_form hq hF₃).1.symm, chooseCode_selects h hF⟩
  · have hsafe := selectCode_safe_of_answered ⟨true, hwanted⟩ (answered_of_isExpressible ha)
      (answered_of_isExpressible hb) hcond hoperands
    exact (hsafe.ok_iff s).2 rfl

/-- The larger of two numbers, compared as unsigned ones. -/
def largerBody : Body :=
  Body.ofListing [⟨"entry", [(some "less", .int 1, .compare .ult (.arg 0) (.arg 1)),
    (some "larger", .int 32, .select (.inst ⟨0⟩) (.arg 1) (.arg 0))], .ret none⟩]

def largerScope : Scope :=
  let func := { pair with body := some largerBody }
  ⟨{ funcs := #[func] }, ⟨0⟩, func, largerBody, .silent, {}⟩

/-- The comparison says three things, so the variable of the comparison is looked at. -/
theorem instCode_select_exact_larger :
    largerScope.tracks (.inst ⟨1⟩) = .ok true ∧
    ∃ code s' x less m n, Yields (largerScope.instCode ⟨1⟩) {} code s' ∧
      largerScope.form? s'.supply (.inst ⟨1⟩) = some (.ofVar x) ∧
      largerScope.form? s'.supply (.inst ⟨0⟩) = some (.ofVar less) ∧
      largerScope.form? s'.supply (.arg 0) = some (.ofVar m) ∧
      largerScope.form? s'.supply (.arg 1) = some (.ofVar n) ∧
      code = [.select x (.var less) (.ofVar n) (.ofVar m)] ∧
      ∀ σ : Valuation, 0 ≤ σ m → 0 ≤ σ n → σ less = (decide (σ m < σ n)).toInt →
        ∀ τ, RunAll code σ τ ↔ τ = Function.update σ x (if σ m < σ n then σ n else σ m) := by
  have hkind : largerScope.body.kind? (.inst ⟨1⟩) =
      some (.select (.inst ⟨0⟩) (.arg 1) (.arg 0)) := rfl
  have hcompare : largerScope.body.kind? (.inst ⟨0⟩) = some (.compare .ult (.arg 0) (.arg 1)) := rfl
  have htracks : largerScope.tracks (.inst ⟨1⟩) = .ok true := rfl
  obtain ⟨hexact, htotal⟩ := instCode_select_exact hkind htracks rfl rfl rfl nofun
  have hoperands : largerScope.HasKnownOperands (.inst ⟨0⟩) := by
    intro pred u w h
    cases hcompare.symm.trans h
    exact ⟨⟨true, rfl⟩, ⟨true, rfl⟩⟩
  obtain ⟨code, s', hcode⟩ := htotal hoperands {}
  obtain ⟨x, p, q, hx, hp, hq, hselects | ⟨-, hnot, -⟩⟩ :=
    hexact {} code s' s'.supply hcode (.refl _)
  swap
  · cases hnot
  obtain ⟨n, hn, rfl⟩ := Option.map_eq_some_iff.1 hp
  obtain ⟨m, hm, rfl⟩ := Option.map_eq_some_iff.1 hq
  obtain ⟨less, hless, hstmts⟩ : ∃ less,
      largerScope.form? s'.supply (.inst ⟨0⟩) = some (.ofVar less) ∧
        ∀ x m n, largerScope.form? s'.supply (.inst ⟨1⟩) = some (.ofVar x) →
          largerScope.form? s'.supply (.arg 1) = some (.ofVar n) →
          largerScope.form? s'.supply (.arg 0) = some (.ofVar m) →
          code = [.select x (.var less) (.ofVar n) (.ofVar m)] := by
    cases hcode
    refine ⟨_, rfl, fun x m n hx hn hm => ?_⟩
    cases hx
    cases hn
    cases hm
    rfl
  refine ⟨htracks, code, s', x, less, m, n, hcode, hx, hless, hq, hp, hstmts x m n hx hp hq, ?_⟩
  intro σ hnonneg hnonneg' houtcome τ
  have hforms : largerScope.comparisonForms? s'.supply (.inst ⟨0⟩) =
      some (.ult, .ofVar m, .ofVar n) := by
    rw [comparisonForms?, hcompare]
    simp only [hp, hq, Option.bind_some, Option.map_some]
  have hrespects : largerScope.Respects s'.supply (.inst ⟨0⟩) σ := by
    constructor
    · intro pred y z v h hv
      cases hforms.symm.trans h
      cases hless.symm.trans hv
      simpa [Predicate.test] using houtcome
    · intro pred y z h _
      cases hforms.symm.trans h
      simpa using ⟨hnonneg, hnonneg'⟩
  obtain ⟨k, hk, hruns⟩ := hselects σ hrespects
  obtain rfl : (decide (σ m < σ n)).toInt = k := by
    simpa [conditionValue?, Value.toInt?, hforms, Predicate.test] using hk
  rw [hruns]
  by_cases hlt : σ m < σ n
  · simp [hlt]
  · simp [hlt]

end Scope

end AffineFlow
