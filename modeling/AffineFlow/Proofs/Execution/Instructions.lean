import AffineFlow.Lowering.Code
import AffineFlow.Proofs.Execution.Values
import AffineFlow.Proofs.Forms.Negation

/-!
# What the code of an instruction does

The code of an instruction writes the variable of its result and nothing else,
and it can write just the values that the instruction may have for somebody to
whom the comparisons are frozen.
-/
namespace AffineFlow

open Ssa Lowering

theorem runAll_assumption_iff {c : Constraint} {σ τ : Valuation} :
    RunAll c.assumption σ τ ↔ c.Holds σ ∧ τ = σ := by
  rw [Constraint.assumption, c.truth?_eq σ]
  by_cases hterms : c.form.terms = []
  · rw [if_pos hterms]
    by_cases hholds : c.Holds σ
    · simp [hholds, runAll_nil_iff]
    · simp only [hholds, decide_false, false_and, iff_false]
      rintro (_ | ⟨⟨⟩, _⟩)
  · rw [if_neg hterms]
    exact runAll_singleton_iff.trans runs_assume_iff

theorem orderConstraint_holds_iff {pred : Predicate} {negated : Bool} {a b : AffineForm}
    {σ : Valuation} : (orderConstraint pred negated a b).Holds σ ↔
      pred.test (a.eval σ) (b.eval σ) = !negated := by
  cases pred <;> cases negated <;>
    simp only [orderConstraint, Constraint.holds_eq_iff, Constraint.holds_ne_iff,
      Constraint.holds_ge_iff, Constraint.holds_le_iff, Predicate.test, AffineForm.eval_addConst,
      beq_iff_eq, bne_iff_ne, ne_eq, decide_eq_true_eq, Bool.not_false, Bool.not_true,
      decide_eq_false_iff_not, beq_eq_false_iff_ne, bne_eq_false_iff_eq] <;>
    omega

/-- Operands that change places are compared the other way round. -/
theorem orient_spec {pred q : Predicate} {a b u w : Value} (h : orient pred a b = (q, u, w)) :
    q.isUnsigned = pred.isUnsigned ∧ (u = a ∧ w = b ∧ (∀ m n, q.test m n = pred.test m n) ∨
      u = b ∧ w = a ∧ ∀ m n, q.test n m = pred.test m n) := by
  have hstraight : orient pred a b = (pred, a, b) → q.isUnsigned = pred.isUnsigned ∧
      (u = a ∧ w = b ∧ (∀ m n, q.test m n = pred.test m n) ∨
        u = b ∧ w = a ∧ ∀ m n, q.test n m = pred.test m n) := by
    intro horient
    cases h.symm.trans horient
    exact ⟨rfl, .inl ⟨rfl, rfl, fun _ _ => rfl⟩⟩
  cases pred with
  | eq => exact hstraight rfl
  | ne => exact hstraight rfl
  | slt => exact hstraight rfl
  | sle => exact hstraight rfl
  | ult => exact hstraight rfl
  | ule => exact hstraight rfl
  | sgt => cases h; exact ⟨rfl, .inr ⟨rfl, rfl, fun _ _ => rfl⟩⟩
  | sge => cases h; exact ⟨rfl, .inr ⟨rfl, rfl, fun _ _ => rfl⟩⟩
  | ugt => cases h; exact ⟨rfl, .inr ⟨rfl, rfl, fun _ _ => rfl⟩⟩
  | uge => cases h; exact ⟨rfl, .inr ⟨rfl, rfl, fun _ _ => rfl⟩⟩

namespace Scope

/-- What is known of the instructions that have been executed. A comparison can be worked out
again, and an operation did not need its own result. -/
structure Coherent (sc : Scope) (ρ : Env) : Prop where
  comparison : ∀ id pred a b, sc.body.kind? (.inst id) = some (.compare pred a b) →
    (ρ id).isSome → pred.isUnsigned = false ∧ sc.isNumber a = true ∧ sc.isNumber b = true ∧
      Defined ρ a ∧ Defined ρ b
  binary : ∀ id op a b, sc.body.kind? (.inst id) = some (.binary op a b) → (ρ id).isSome →
    (op = .add ∨ op = .sub ∨ op = .mul) ∧ b ≠ .inst id

/-- The variables agree with the values of a run in which the comparisons are frozen. -/
structure Agrees (sc : Scope) (F : VarSupply) (κ : InstId → Int) (α : Nat → Int) (ρ : Env)
    (σ : Valuation) : Prop where
  shows : sc.Shows F ρ σ
  holds : sc.Holds F κ α σ
  coherent : sc.Coherent ρ

variable {sc : Scope} {F : VarSupply} {s s' : Session} {κ : InstId → Int} {α : Nat → Int}
  {ρ : Env} {σ τ : Valuation} {stmts : List Stmt} {id : InstId} {inst : Inst}

theorem Expresses.agrees {v : Value} {e? : Option AffineForm} (he : sc.Expresses F v e?)
    (hv : sc.isNumber v = true) (hdefined : Defined ρ v) (hagrees : sc.Agrees F κ α ρ σ) :
    e?.map (·.eval σ) = sc.frozen κ α ρ v :=
  he.eval hv hdefined hagrees.shows hagrees.holds

/-- The operands are expressed in the order in which they are compared. If one of them cannot be,
there is no constraint. -/
theorem comparisonConstraints_parts {pred q : Predicate} {a b u w : Value} {negated : Bool}
    {cs : List Constraint} (horient : orient pred a b = (q, u, w))
    (h : Yields (sc.comparisonConstraints pred a b negated) s cs s') :
    ∃ x? s₁ y?, Yields (sc.express u) s x? s₁ ∧ Yields (sc.express w) s₁ y? s' ∧
      (cs = [] ∧ (x? = none ∨ y? = none) ∨ ∃ x y, x? = some x ∧ y? = some y ∧
        cs = signConstraints q x y ++ [orderConstraint q negated x y]) := by
  simp only [comparisonConstraints, horient, yields_bind] at h
  obtain ⟨x?, s₁, hx, y?, s₂, hy, h⟩ := h
  cases x? with
  | none =>
      obtain ⟨rfl, rfl⟩ := yields_pure.1 h
      exact ⟨none, s₁, y?, hx, hy, .inl ⟨rfl, .inl rfl⟩⟩
  | some x =>
      cases y? with
      | none =>
          obtain ⟨rfl, rfl⟩ := yields_pure.1 h
          exact ⟨some x, s₁, none, hx, hy, .inl ⟨rfl, .inr rfl⟩⟩
      | some y =>
          obtain ⟨rfl, rfl⟩ := yields_pure.1 h
          exact ⟨some x, s₁, some y, hx, hy, .inr ⟨x, y, rfl, rfl, rfl⟩⟩

/-- The constraint is on the operands as they have been ordered, unless one of them is hidden. -/
theorem orderedConstraints_spec {pred q : Predicate} {a b u v : Value} {negated : Bool}
    {cs : List Constraint} (horient : orient pred a b = (q, u, v)) (hq : q.isUnsigned = false)
    (hu : sc.isNumber u = true) (hv : sc.isNumber v = true)
    (h : Yields (sc.comparisonConstraints pred a b negated) s cs s') (hF : s'.supply.Extends F) :
    ∃ x? y?, sc.Expresses F u x? ∧ sc.Expresses F v y? ∧
      (cs = [] ∧ (x? = none ∨ y? = none) ∨ ∃ x y, x? = some x ∧ y? = some y ∧
        cs = [orderConstraint q negated x y]) := by
  obtain ⟨x?, s₁, y?, hx, hy, hcs⟩ := comparisonConstraints_parts horient h
  have hgrown := (sc.express_grows v _ _ _ hy).trans hF
  refine ⟨x?, y?, express_spec hu hx hgrown, express_spec hv hy hF, hcs.imp_right ?_⟩
  intro hforms
  obtain ⟨x, y, hx, hy, rfl⟩ := hforms
  refine ⟨x, y, hx, hy, ?_⟩
  rw [signConstraints, hq]
  rfl

/-- A comparison is one constraint, unless an operand is hidden. -/
theorem comparisonConstraints_spec {pred : Predicate} {a b : Value} {negated : Bool}
    {cs : List Constraint} (hpred : pred.isUnsigned = false) (ha : sc.isNumber a = true)
    (hb : sc.isNumber b = true) (h : Yields (sc.comparisonConstraints pred a b negated) s cs s')
    (hF : s'.supply.Extends F) :
    ∃ x? y?, sc.Expresses F a x? ∧ sc.Expresses F b y? ∧
      (cs = [] ∧ (x? = none ∨ y? = none) ∨ ∃ x y c, x? = some x ∧ y? = some y ∧ cs = [c] ∧
        ∀ σ, c.Holds σ ↔ pred.test (x.eval σ) (y.eval σ) = !negated) := by
  obtain ⟨⟨q, u, w⟩, horient⟩ : ∃ o, orient pred a b = o := ⟨_, rfl⟩
  obtain ⟨hunsigned, hplaces⟩ := orient_spec horient
  have hq := hunsigned.trans hpred
  rcases hplaces with ⟨rfl, rfl, htest⟩ | ⟨rfl, rfl, htest⟩
  · obtain ⟨x?, y?, hx, hy, hcs⟩ := orderedConstraints_spec horient hq ha hb h hF
    refine ⟨x?, y?, hx, hy, hcs.imp_right ?_⟩
    intro hforms
    obtain ⟨x, y, hx, hy, rfl⟩ := hforms
    refine ⟨x, y, _, hx, hy, rfl, fun σ => ?_⟩
    rw [← htest]
    exact orderConstraint_holds_iff
  · obtain ⟨y?, x?, hy, hx, hcs⟩ := orderedConstraints_spec horient hq hb ha h hF
    refine ⟨x?, y?, hx, hy, hcs.imp (.imp_right Or.symm) ?_⟩
    intro hforms
    obtain ⟨y, x, hy, hx, rfl⟩ := hforms
    refine ⟨x, y, _, hx, hy, rfl, fun σ => ?_⟩
    rw [← htest]
    exact orderConstraint_holds_iff

/-- The constraints of a comparison say what its operands, as they are seen, say. -/
theorem constraints_known {c a b : Value} {pred : Predicate} {negated : Bool}
    {cs : List Constraint} (hkind : sc.body.kind? c = some (.compare pred a b))
    (hpred : pred.isUnsigned = false) (ha : sc.isNumber a = true) (hb : sc.isNumber b = true)
    (h : Yields (sc.comparisonConstraints pred a b negated) s cs s') (hF : s'.supply.Extends F)
    (hagrees : sc.Agrees F κ α ρ σ) (hda : Defined ρ a) (hdb : Defined ρ b) :
    cs = [] ∧ sc.outcome? (sc.frozen κ α ρ) c = none ∨
      ∃ k u, cs = [k] ∧ sc.outcome? (sc.frozen κ α ρ) c = some u ∧ (k.Holds σ ↔ u = !negated) := by
  obtain ⟨x?, y?, hx, hy, hcs⟩ := comparisonConstraints_spec hpred ha hb h hF
  have hleft := hx.agrees ha hda hagrees
  have hright := hy.agrees hb hdb hagrees
  rw [outcome?, hkind]
  simp only [← hleft, ← hright]
  rcases hcs with ⟨rfl, rfl | rfl⟩ | ⟨x, y, k, rfl, rfl, rfl, hk⟩
  · exact .inl ⟨rfl, rfl⟩
  · exact .inl ⟨rfl, by cases x? <;> rfl⟩
  · exact .inr ⟨k, _, rfl, rfl, hk σ⟩

/-- The variables before and after the code of an instruction. -/
def Writes (sc : Scope) (F : VarSupply) (κ : InstId → Int) (α : Nat → Int) (ρ : Env) (id : InstId)
    (σ τ : Valuation) : Prop :=
  if sc.body.isComparison id || sc.hidden (.inst id) then τ = σ
  else ∃ x n, F.find? (.value sc.funcId (.inst id)) = some x ∧
    (sc.known (sc.frozen κ α)).result ρ id n ∧ τ = Function.update σ x n

theorem isComparison_eq_false {kind : InstKind} (hkind : sc.body.kind? (.inst id) = some kind)
    (hne : ∀ pred a b, kind ≠ .compare pred a b) : sc.body.isComparison id = false := by
  unfold Body.isComparison
  rw [hkind]
  split
  next pred a b he => exact absurd (Option.some.inj he) (hne pred a b)
  next => rfl

/-- Another value than the instruction is not read from its variable. -/
theorem Expresses.eval_update {v : Value} {e : AffineForm} {x : Var} {n : Int}
    (he : sc.Expresses F v (some e)) (hx : F.find? (.value sc.funcId (.inst id)) = some x)
    (hne : v ≠ .inst id) : e.eval (Function.update σ x n) = e.eval σ := by
  have hvar : ∀ y, sc.Denotes F v y → y ≠ x := by
    rintro y ⟨r, hr, hy⟩ rfl
    obtain rfl := VarSupply.find?_injective hy hx
    exact hne (value_of_referent? hr)
  have hform : ∀ y, sc.Denotes F v y → some e = some (.ofVar y) →
      e.eval (Function.update σ x n) = e.eval σ := by
    intro y hy h
    rw [Option.some.inj h, AffineForm.eval_ofVar, AffineForm.eval_ofVar]
    exact Function.update_of_ne (hvar y hy) _ _
  unfold Expresses at he
  split at he
  next => cases he
  next =>
    split at he
    next bits k =>
      obtain rfl := Option.some.inj he
      rw [AffineForm.eval_const, AffineForm.eval_const]
    next =>
      obtain ⟨y, hy, hdenotes⟩ := he
      exact hform y hdenotes hy

/-- The code of a result that is wanted if it is tracked, given what it does to the variable. -/
theorem tracked_runs {code : Lowering (List Stmt)} (hcomparison : sc.body.isComparison id = false)
    (htracks : sc.tracks (.inst id) = .ok (!sc.hidden (.inst id)))
    (h : Yields (Lowering.onlyIf (sc.tracks (.inst id)) code) s stmts s')
    (hcode : sc.hidden (.inst id) = false → Yields code s stmts s' →
      ∃ x, F.find? (.value sc.funcId (.inst id)) = some x ∧ (RunAll stmts σ τ ↔
        ∃ n, (sc.known (sc.frozen κ α)).result ρ id n ∧ τ = Function.update σ x n)) :
    RunAll stmts σ τ ↔ sc.Writes F κ α ρ id σ τ := by
  unfold Writes
  rw [hcomparison, Bool.false_or]
  rcases yields_onlyIf.1 h with ⟨ht, h⟩ | ⟨ht, rfl, -⟩
  · have hshown : sc.hidden (.inst id) = false := by simpa [htracks] using ht
    obtain ⟨x, hx, hruns⟩ := hcode hshown h
    rw [hshown, hruns]
    constructor
    · intro hvalue
      obtain ⟨n, hn, rfl⟩ := hvalue
      exact ⟨x, n, hx, hn, rfl⟩
    · intro hvalue
      obtain ⟨y, n, hy, hn, rfl⟩ := hvalue
      obtain rfl := Option.some.inj (hx.symm.trans hy)
      exact ⟨n, hn, rfl⟩
  · have hhidden : sc.hidden (.inst id) = true := by simpa [htracks] using ht
    rw [hhidden, if_pos rfl]
    exact runAll_nil_iff

theorem forget_runs {x : Var} (hhavoc : sc.settings.explicitHavoc = true)
    (hfree : ∀ n, (sc.known (sc.frozen κ α)).result ρ id n) : RunAll (sc.forget x) σ τ ↔
      ∃ n, (sc.known (sc.frozen κ α)).result ρ id n ∧ τ = Function.update σ x n := by
  rw [forget, if_pos hhavoc, runAll_singleton_iff, runs_havoc_iff]
  constructor
  · intro h
    obtain ⟨n, rfl⟩ := h
    exact ⟨n, hfree n, rfl⟩
  · intro h
    obtain ⟨n, -, rfl⟩ := h
    exact ⟨n, rfl⟩

theorem variableOf_inst {x : Var} (h : Yields (sc.variableOf (.inst id)) s x s')
    (hF : s'.supply.Extends F) : F.find? (.value sc.funcId (.inst id)) = some x := by
  obtain ⟨r, hr, hfind⟩ := (variableOf_spec h hF).2
  obtain rfl := Option.some.inj hr
  exact hfind

theorem other_runs {operands : List Value}
    (hkind : sc.body.kind? (.inst id) = some (.other operands))
    (htracks : sc.tracks (.inst id) = .ok (!sc.hidden (.inst id)))
    (hhavoc : sc.settings.explicitHavoc = true)
    (h : Yields (sc.forgetResult id) s stmts s') (hF : s'.supply.Extends F) :
    RunAll stmts σ τ ↔ sc.Writes F κ α ρ id σ τ := by
  refine tracked_runs (isComparison_eq_false hkind fun _ _ _ => nofun) htracks h fun hshown h => ?_
  simp only [yields_bind, yields_pure] at h
  obtain ⟨dst, _, hdst, rfl, rfl⟩ := h
  refine ⟨dst, variableOf_inst hdst hF, forget_runs hhavoc fun n _ => ?_⟩
  rw [hkind]
  trivial

/-- The code of an exact operation on two forms. -/
theorem arithCode_runs {source : BinaryOp} {op : ArithOp} {dst : Var} {x y : AffineForm}
    (hop : op = .add ∨ op = .sub ∨ op = .mul)
    (hy : ∀ n, y.eval (Function.update σ dst n) = y.eval σ)
    (h : Yields (sc.arithCode source op dst x y) s stmts s') : RunAll stmts σ τ ↔
      ∃ n, op.value? (x.eval σ) (y.eval σ) = some n ∧ τ = Function.update σ dst n := by
  have hunsigned : op.isUnsigned = false := by
    rcases hop with rfl | rfl | rfl
    · rfl
    · rfl
    · rfl
  rw [arithCode, hunsigned] at h
  simp only [Bool.false_and, Bool.false_eq_true, if_false] at h
  split at h
  next =>
    rw [(yields_pure.1 h).1, runAll_cons_iff]
    simp only [runs_assign_iff, exists_eq_left, runAll_singleton_iff, runs_arith_iff,
      AffineForm.eval_ofVar, Function.update_self, hy, Function.update_idem]
  next => rw [(yields_pure.1 h).1, runAll_singleton_iff, runs_arith_iff]

/-- Addition, subtraction and multiplication are the operations of the same name. -/
theorem rule_of_numeric {op : BinaryOp} (hop : op = .add ∨ op = .sub ∨ op = .mul) :
    ∃ aop, BinaryRule.of op = .arith aop ∧ (aop = .add ∨ aop = .sub ∨ aop = .mul) ∧
      ∀ x y, op.value? x y = aop.value? x y := by
  rcases hop with rfl | rfl | rfl
  · exact ⟨.add, rfl, .inl rfl, fun _ _ => rfl⟩
  · exact ⟨.sub, rfl, .inr (.inl rfl), fun _ _ => rfl⟩
  · exact ⟨.mul, rfl, .inr (.inr rfl), fun _ _ => rfl⟩

theorem binaryCode_runs {op : BinaryOp} {a b : Value} {u w : Int}
    (hkind : sc.body.kind? (.inst id) = some (.binary op a b))
    (htracks : sc.tracks (.inst id) = .ok (!sc.hidden (.inst id)))
    (hop : op = .add ∨ op = .sub ∨ op = .mul) (ha : sc.isNumber a = true)
    (hb : sc.isNumber b = true) (hhavoc : sc.settings.explicitHavoc = true)
    (h : Yields (sc.binaryCode id op a b) s stmts s') (hF : s'.supply.Extends F)
    (hagrees : sc.Agrees F κ α ρ σ) (hra : a.Reads α ρ u) (hrb : b.Reads α ρ w) :
    RunAll stmts σ τ ↔ sc.Writes F κ α ρ id σ τ := by
  obtain ⟨aop, hrule, haop, hvalue⟩ := rule_of_numeric hop
  have hself : b ≠ .inst id := by
    intro he
    subst he
    exact (hagrees.coherent.binary id op a _ hkind (Option.isSome_iff_exists.2 ⟨w, hrb⟩)).2 rfl
  refine tracked_runs (isComparison_eq_false hkind fun _ _ _ => nofun) htracks h fun hshown h => ?_
  simp only [hrule, reduceCtorEq, if_false, yields_bind] at h
  obtain ⟨dst, s₁, hdst, x?, s₂, hx, y?, s₃, hy, h⟩ := h
  have hend : s₃.supply.Extends F := by
    refine VarSupply.Extends.trans ?_ hF
    split at h
    · exact sc.ruleCode_grows _ _ _ _ _ _ _ h
    · exact (yields_pure.1 h).2 ▸ .refl _
  have hsecond := (sc.express_grows b _ _ _ hy).trans hend
  have hfind := variableOf_inst hdst ((sc.express_grows a _ _ _ hx).trans hsecond)
  have hxe := express_spec ha hx hsecond
  have hye := express_spec hb hy hend
  have hleft := hxe.agrees ha (defined_of_reads hra) hagrees
  have hright := hye.agrees hb (defined_of_reads hrb) hagrees
  have hresult : ∀ n, (sc.known (sc.frozen κ α)).result ρ id n ↔
      ∀ i j, x?.map (·.eval σ) = some i → y?.map (·.eval σ) = some j → op.value? i j = some n := by
    intro n
    simp only [known, hkind, hleft, hright, hshown, forall_const]
  refine ⟨dst, hfind, ?_⟩
  split at h
  next x y =>
    rw [ruleCode, hrule] at h
    rw [arithCode_runs haop (fun n => hye.eval_update hfind hself) h]
    simp only [hresult, Option.map_some, Option.some.injEq, hvalue]
    constructor
    · intro hvalue
      obtain ⟨n, hn, rfl⟩ := hvalue
      exact ⟨n, fun i j hi hj => hi ▸ hj ▸ hn, rfl⟩
    · intro hvalue
      obtain ⟨n, hn, rfl⟩ := hvalue
      exact ⟨n, hn _ _ rfl rfl, rfl⟩
  next hnone =>
    rw [(yields_pure.1 h).1]
    refine forget_runs hhavoc fun n => (hresult n).2 fun i j hi hj => ?_
    obtain ⟨x, rfl, -⟩ := Option.map_eq_some_iff.1 hi
    obtain ⟨y, rfl, -⟩ := Option.map_eq_some_iff.1 hj
    exact absurd rfl (hnone x y rfl)

/-- The variable is given one of two forms; which one is open unless `choice` tells. -/
def Chooses (choice : Option Bool) (x : Var) (a b : AffineForm) (σ τ : Valuation) : Prop :=
  ∃ n, (∀ t, choice = some t → n = if t then a.eval σ else b.eval σ) ∧ τ = Function.update σ x n

theorem chooses_some {t : Bool} {x : Var} {a b : AffineForm} : Chooses (some t) x a b σ τ ↔
    τ = Function.update σ x (if t then a.eval σ else b.eval σ) := by
  constructor
  · intro h
    obtain ⟨n, hn, rfl⟩ := h
    rw [hn t rfl]
  · intro he
    subst he
    exact ⟨_, fun u hu => Option.some.inj hu ▸ rfl, rfl⟩

theorem chooses_none {x : Var} {a b : AffineForm} (hhavoc : sc.settings.explicitHavoc = true) :
    RunAll (sc.forget x) σ τ ↔ Chooses none x a b σ τ := by
  rw [forget, if_pos hhavoc, runAll_singleton_iff, runs_havoc_iff]
  simp [Chooses]

/-- A guarded choice, given what decides the guard. -/
theorem select_runs {x : Var} {guard : Guard} {a b : AffineForm} {t : Bool}
    (hguard : guard.Holds σ ↔ t = true) :
    RunAll [.select x guard a b] σ τ ↔ Chooses (some t) x a b σ τ := by
  rw [runAll_singleton_iff, runs_select_iff, chooses_some]
  simp only [hguard]

theorem frozen_of_hidden {v : Value} (hv : sc.hidden v = true) : sc.frozen κ α ρ v = none :=
  if_pos hv

/-- The variable of a value that is read and not hidden. -/
theorem variableOf_agrees {v : Value} {x : Var} {n : Int} (hv : sc.isNumber v = true)
    (hliteral : v.toInt? = none) (hshown : sc.hidden v = false)
    (h : Yields (sc.variableOf v) s x s') (hF : s'.supply.Extends F)
    (hagrees : sc.Agrees F κ α ρ σ) (hreads : v.Reads α ρ n) :
    sc.frozen κ α ρ v = some (σ x) := by
  have hdenotes := (variableOf_spec h hF).2
  have hexpresses : sc.Expresses F v (some (.ofVar x)) := by
    unfold Expresses
    rw [hshown]
    cases v with
    | int bits n => cases hliteral
    | inst id => exact ⟨x, rfl, hdenotes⟩
    | arg i => exact ⟨x, rfl, hdenotes⟩
    | global id => exact ⟨x, rfl, hdenotes⟩
    | func id => exact ⟨x, rfl, hdenotes⟩
    | null => exact ⟨x, rfl, hdenotes⟩
    | undef bits => exact ⟨x, rfl, hdenotes⟩
  rw [← hexpresses.agrees hv (defined_of_reads hreads) hagrees, Option.map_some,
    AffineForm.eval_ofVar]

/-- A choice by the variable of the condition. -/
theorem variableGuard_runs {c : Value} {x : Var} {a b : AffineForm} {n : Int}
    (hc : sc.isNumber c = true) (hliteral : c.toInt? = none)
    (hhavoc : sc.settings.explicitHavoc = true)
    (h : Yields (do
      if ← Lowering.ofExcept (sc.tracks c) then
        return [.select x (.var (← sc.variableOf c)) a b]
      else return sc.forget x) s stmts s') (hF : s'.supply.Extends F)
    (hagrees : sc.Agrees F κ α ρ σ) (hreads : c.Reads α ρ n) :
    RunAll stmts σ τ ↔ Chooses ((sc.frozen κ α ρ c).map (· ≠ 0)) x a b σ τ := by
  simp only [tracks_of_isNumber hc, yields_bind, yields_ofExcept] at h
  obtain ⟨t, _, ⟨ht, rfl⟩, h⟩ := h
  obtain rfl := Except.ok.inj ht
  cases hhidden : sc.hidden c with
  | true =>
      rw [hhidden] at h
      rw [frozen_of_hidden hhidden, (yields_pure.1 h).1]
      exact chooses_none hhavoc
  | false =>
      rw [hhidden] at h
      simp only [Bool.not_false, if_true, yields_bind, yields_pure] at h
      obtain ⟨z, _, hz, rfl, rfl⟩ := h
      rw [variableOf_agrees hc hliteral hhidden hz hF hagrees hreads]
      exact select_runs (by simp [Guard.Holds])

/-- A comparison that is read can be worked out again. -/
theorem Coherent.operands (hcoherent : sc.Coherent ρ) {c a b : Value} {pred : Predicate} {n : Int}
    (hkind : sc.body.kind? c = some (.compare pred a b)) (hreads : c.Reads α ρ n) :
    pred.isUnsigned = false ∧ sc.isNumber a = true ∧ sc.isNumber b = true ∧
      Defined ρ a ∧ Defined ρ b := by
  cases c with
  | inst id =>
      exact hcoherent.comparison id pred a b hkind (Option.isSome_iff_exists.2 ⟨n, hreads⟩)
  | arg i => cases hkind
  | global id => cases hkind
  | func id => cases hkind
  | int bits k => cases hkind
  | null => cases hkind
  | undef bits => cases hkind

theorem guardConstraint_spec {c : Value} {k? : Option Constraint} {n : Int}
    (h : Yields (sc.guardConstraint? c) s k? s') (hF : s'.supply.Extends F)
    (hagrees : sc.Agrees F κ α ρ σ) (hreads : c.Reads α ρ n) :
    k? = none ∧ sc.outcome? (sc.frozen κ α ρ) c = none ∨
      ∃ k t, k? = some k ∧ sc.outcome? (sc.frozen κ α ρ) c = some t ∧ (k.Holds σ ↔ t = true) := by
  unfold guardConstraint? at h
  split at h
  next pred a b hkind =>
    obtain ⟨hpred, ha, hb, hda, hdb⟩ := hagrees.coherent.operands hkind hreads
    simp only [yields_bind] at h
    obtain ⟨cs, s₁, hcs, h⟩ := h
    have hgrown : s₁.supply.Extends F := by
      split at h
      · exact (yields_pure.1 h).2 ▸ hF
      · exact (yields_pure.1 h).2 ▸ hF
    rcases constraints_known hkind hpred ha hb hcs hgrown hagrees hda hdb with
      ⟨rfl, hnone⟩ | ⟨k, t, rfl, hsome, hk⟩
    · exact .inl ⟨(yields_pure.1 h).1, hnone⟩
    · exact .inr ⟨k, t, (yields_pure.1 h).1, hsome, hk⟩
  next hkind =>
    refine .inl ⟨(yields_pure.1 h).1, ?_⟩
    unfold outcome?
    split
    next pred a b hk => exact absurd hk (hkind pred a b)
    next => rfl

/-- The choice between two forms: a known outcome is respected, an unknown one is open. -/
theorem chooseCode_runs {c : Value} {x : Var} {a b : AffineForm} {n : Int}
    (hc : sc.isNumber c = true) (hhavoc : sc.settings.explicitHavoc = true)
    (h : Yields (sc.chooseCode x c a b) s stmts s') (hF : s'.supply.Extends F)
    (hagrees : sc.Agrees F κ α ρ σ) (hreads : c.Reads α ρ n) :
    RunAll stmts σ τ ↔ Chooses (sc.chooses? (sc.frozen κ α ρ) c) x a b σ τ := by
  unfold chooseCode at h
  split at h
  next k hk =>
    rw [(yields_pure.1 h).1, runAll_singleton_iff, runs_assign_iff, chooses?, hk, chooses_some]
    by_cases hzero : k = 0
    · simp [hzero]
    · simp [hzero]
  next hk =>
  rw [chooses?, hk]
  simp only [yields_bind] at h
  obtain ⟨k?, s₁, hguard, h⟩ := h
  have hgrown : s₁.supply.Extends F := by
    refine VarSupply.Extends.trans ?_ hF
    split at h
    · exact (yields_pure.1 h).2 ▸ .refl _
    · refine Grows.bind (.ofExcept _) (fun t => ?_) _ _ _ h
      split
      · exact (sc.variableOf_grows c).bind fun z => .pure _
      · exact .pure _
  rcases guardConstraint_spec hguard hgrown hagrees hreads with
    ⟨rfl, hnone⟩ | ⟨k, t, rfl, hsome, hk⟩
  · simp only [hnone, Option.none_or]
    exact variableGuard_runs hc hk hhavoc h hF hagrees hreads
  · simp only [hsome, Option.some_or]
    rw [(yields_pure.1 h).1]
    exact select_runs hk

theorem operandsFlow_of_isNumber {a b : Value} (ha : sc.isNumber a = true)
    (hb : sc.isNumber b = true) : sc.operandsFlow a b = .ok true := by
  unfold operandsFlow
  rw [hasIntType_of_isNumber ha, hasIntType_of_isNumber hb]
  cases sc.settings.integersOnly with
  | true => rfl
  | false => rfl

theorem isSelectWanted_of_isNumber {a b : Value}
    (htracks : sc.tracks (.inst id) = .ok (!sc.hidden (.inst id))) (ha : sc.isNumber a = true)
    (hb : sc.isNumber b = true) : sc.isSelectWanted id a b = sc.tracks (.inst id) := by
  rw [isSelectWanted, htracks, operandsFlow_of_isNumber ha hb]
  cases sc.hidden (.inst id) with
  | true => rfl
  | false => rfl

theorem selectCode_runs {c a b : Value} {t : Bool} {u w : Int}
    (hkind : sc.body.kind? (.inst id) = some (.select c a b))
    (htracks : sc.tracks (.inst id) = .ok (!sc.hidden (.inst id))) (hc : sc.isNumber c = true)
    (ha : sc.isNumber a = true) (hb : sc.isNumber b = true)
    (hhavoc : sc.settings.explicitHavoc = true)
    (h : Yields (sc.selectCode id c a b) s stmts s') (hF : s'.supply.Extends F)
    (hagrees : sc.Agrees F κ α ρ σ) (hrc : c.Reads α ρ t.toInt) (hra : a.Reads α ρ u)
    (hrb : b.Reads α ρ w) : RunAll stmts σ τ ↔ sc.Writes F κ α ρ id σ τ := by
  rw [selectCode, isSelectWanted_of_isNumber htracks ha hb] at h
  refine tracked_runs (isComparison_eq_false hkind fun _ _ _ => nofun) htracks h fun hshown h => ?_
  simp only [yields_bind] at h
  obtain ⟨dst, s₁, hdst, x?, s₂, hx, y?, s₃, hy, h⟩ := h
  have hend : s₃.supply.Extends F := by
    refine VarSupply.Extends.trans ?_ hF
    split at h
    · exact sc.chooseCode_grows _ _ _ _ _ _ _ h
    · exact (yields_pure.1 h).2 ▸ .refl _
  have hsecond := (sc.express_grows b _ _ _ hy).trans hend
  have hleft := (express_spec ha hx hsecond).agrees ha (defined_of_reads hra) hagrees
  have hright := (express_spec hb hy hend).agrees hb (defined_of_reads hrb) hagrees
  have hresult : ∀ n, (sc.known (sc.frozen κ α)).result ρ id n ↔
      ∀ t i j, sc.chooses? (sc.frozen κ α ρ) c = some t → x?.map (·.eval σ) = some i →
        y?.map (·.eval σ) = some j → n = if t then i else j := by
    intro n
    simp only [known, hkind, hleft, hright, hshown, forall_const]
  refine ⟨dst, variableOf_inst hdst ((sc.express_grows a _ _ _ hx).trans hsecond), ?_⟩
  split at h
  next x y =>
    rw [chooseCode_runs hc hhavoc h hF hagrees hrc]
    refine exists_congr fun n => and_congr_left fun _ => ?_
    rw [hresult]
    constructor
    · rintro hn t i j ht hi hj
      rw [hn t ht, ← Option.some.inj hi, ← Option.some.inj hj]
    · exact fun hn t ht => hn t _ _ ht rfl rfl
  next hnone =>
    rw [(yields_pure.1 h).1]
    refine forget_runs hhavoc fun n => (hresult n).2 fun t i j _ hi hj => ?_
    obtain ⟨x, rfl, -⟩ := Option.map_eq_some_iff.1 hi
    obtain ⟨y, rfl, -⟩ := Option.map_eq_some_iff.1 hj
    exact absurd rfl (hnone x y rfl)

/-- The code of an instruction that is executed with some result. -/
theorem instCode_runs {n : Int} (hbody : sc.func.body = some sc.body)
    (hinst : sc.body.inst? id = some inst) (hint : inst.ty.isInt = true)
    (hnumeric : sc.isNumericKind inst.kind = true) (hhavoc : sc.settings.explicitHavoc = true)
    (h : Yields (sc.instCode id) s stmts s') (hF : s'.supply.Extends F)
    (hagrees : sc.Agrees F κ α ρ σ) (hresult : inst.kind.Results α ρ n) :
    RunAll stmts σ τ ↔ sc.Writes F κ α ρ id σ τ := by
  have hkind : sc.body.kind? (.inst id) = some inst.kind := by
    rw [Body.kind?, Value.toInst?, Option.bind_some, hinst, Option.map_some]
  have htracks := tracks_of_typeOf (typeOf_inst hbody hinst) hint
  rw [instCode, hinst] at h
  obtain ⟨name, ty, kind, block⟩ := inst
  cases kind with
  | binary op a b =>
      obtain ⟨u, w, hra, hrb, -⟩ := hresult
      simp only [isNumericKind, Bool.and_eq_true, Bool.or_eq_true, decide_eq_true_eq,
        or_assoc] at hnumeric
      obtain ⟨⟨hop, ha⟩, hb⟩ := hnumeric
      exact binaryCode_runs hkind htracks hop ha hb hhavoc h hF hagrees hra hrb
  | compare pred a b =>
      have hcomparison : sc.body.isComparison id = true := by rw [Body.isComparison, hkind]
      rw [(yields_pure.1 h).1, Writes, hcomparison, Bool.true_or, if_pos rfl]
      exact runAll_nil_iff
  | select c a b =>
      obtain ⟨t, u, w, hrc, hra, hrb, -⟩ := hresult
      simp only [isNumericKind, Bool.and_eq_true] at hnumeric
      obtain ⟨⟨hc, ha⟩, hb⟩ := hnumeric
      exact selectCode_runs hkind htracks hc ha hb hhavoc h hF hagrees hrc hra hrb
  | other operands => exact other_runs hkind htracks hhavoc h hF
  | phi incoming => exact hresult.elim
  | cast op a => exact hresult.elim
  | address base ty indices => exact hresult.elim
  | load ptr => exact hresult.elim
  | store value ptr => exact hresult.elim
  | alloca ty => exact hresult.elim
  | call callee args => exact hresult.elim

end Scope

end AffineFlow
