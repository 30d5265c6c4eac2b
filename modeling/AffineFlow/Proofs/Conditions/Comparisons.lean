import AffineFlow.Proofs.Execution.Instructions
import AffineFlow.Proofs.Forms.Canonical
import AffineFlow.Proofs.Forms.Operands

/-!
# What the constraints of a comparison say

The outcome of a comparison is written as one constraint on the operands, with
the larger one of `>` and `≥` on the right; in front of it stand the signs that
an unsigned comparison takes for granted. Over the integers nothing is lost, and
the constraint for one outcome is the negation of that for the other.
-/
namespace AffineFlow

open Ssa Lowering

variable {pred q : Predicate} {negated : Bool} {a b u w : Value} {x y : AffineForm}
  {σ : Valuation}

/-- Both outcomes of a comparison are one constraint and its negation, written in the same way. -/
theorem orderConstraint_negate (pred : Predicate) (x y : AffineForm) :
    (orderConstraint pred false x y).negate = orderConstraint pred true x y := by
  have hle : ∀ x y : AffineForm, (Constraint.le x y).negate = .ge x (y.addConst 1) := by
    intro x y
    refine congrArg (Constraint.mk · .le) (AffineForm.ext_eval fun σ => ?_)
    simp only [Constraint.le, AffineForm.eval_addConst, AffineForm.eval_neg, AffineForm.eval_sub]
    omega
  have hlt : ∀ x y : AffineForm, (Constraint.le x (y.addConst (-1))).negate = .ge x y := by
    intro x y
    have hback : (y.addConst (-1)).addConst 1 = y := AffineForm.ext_eval fun σ => by
      rw [AffineForm.eval_addConst, AffineForm.eval_addConst, Int.neg_add_cancel_right]
    rw [hle, hback]
  cases pred with
  | eq => rfl
  | ne => rfl
  | slt => exact hlt x y
  | ult => exact hlt x y
  | sgt => exact hlt y x
  | ugt => exact hlt y x
  | sle => exact hle x y
  | ule => exact hle x y
  | sge => exact hle y x
  | uge => exact hle y x

/-- No operand of an unsigned comparison that is a single variable is negative. -/
def SignsHold (σ : Valuation) (pred : Predicate) (x y : AffineForm) : Prop :=
  pred.isUnsigned = true → ∀ e ∈ [x, y], e.isVar = true → 0 ≤ e.eval σ

theorem SignsHold.symm (h : SignsHold σ pred x y) : SignsHold σ pred y x := by
  intro hunsigned e he
  exact h hunsigned e (by simpa [or_comm] using he)

theorem signConstraints_hold_iff :
    (∀ c ∈ signConstraints pred x y, c.Holds σ) ↔ SignsHold σ pred x y := by
  unfold signConstraints SignsHold
  cases pred.isUnsigned with
  | false => simp
  | true =>
      rw [if_pos rfl, List.forall_mem_map]
      simp only [Constraint.holds_ge_iff, AffineForm.eval_const, List.mem_filter, and_imp,
        forall_const]

namespace Scope

variable {sc : Scope} {F : VarSupply} {s s' t t' : Session} {cs ds : List Constraint}

/-- The constraints in the order in which the operands are compared. -/
theorem comparisonConstraints_forms
    (h : Yields (sc.comparisonConstraints pred a b negated) s cs s') (hF : s'.supply.Extends F)
    (horient : orient pred a b = (q, u, w)) :
    (∃ x y, sc.form? F u = some x ∧ sc.form? F w = some y ∧
      cs = signConstraints q x y ++ [orderConstraint q negated x y]) ∨
    (sc.isExpressible u && sc.isExpressible w) = false ∧ cs = [] := by
  obtain ⟨x?, s₁, y?, hx, hy, hcs⟩ := comparisonConstraints_parts horient h
  obtain ⟨hformy, hsomey⟩ := express_form hy hF
  obtain ⟨hformx, hsomex⟩ := express_form hx ((sc.express_grows w _ _ _ hy).trans hF)
  rcases hcs with ⟨rfl, hnone⟩ | ⟨x, y, rfl, rfl, rfl⟩
  · refine .inr ⟨?_, rfl⟩
    rw [← hsomex, ← hsomey]
    rcases hnone with rfl | rfl
    · rfl
    · exact Bool.and_false _
  · exact .inl ⟨x, y, hformx.symm, hformy.symm, rfl⟩

/-- The constraints hold just where the comparison has the outcome and the signs are right. -/
theorem comparisonConstraints_holds_iff
    (h : Yields (sc.comparisonConstraints pred a b negated) s cs s') (hF : s'.supply.Extends F)
    (ha : sc.isExpressible a = true) (hb : sc.isExpressible b = true) :
    ∃ x y, sc.form? F a = some x ∧ sc.form? F b = some y ∧ ∀ σ : Valuation,
      (∀ c ∈ cs, c.Holds σ) ↔
        pred.test (x.eval σ) (y.eval σ) = (!negated) ∧ SignsHold σ pred x y := by
  obtain ⟨⟨q, u, w⟩, horient⟩ : ∃ o, orient pred a b = o := ⟨_, rfl⟩
  obtain ⟨hunsigned, hplaces⟩ := orient_spec horient
  have hholds : ∀ (x y : AffineForm) (σ : Valuation),
      (∀ c ∈ signConstraints q x y ++ [orderConstraint q negated x y], c.Holds σ) ↔
        q.test (x.eval σ) (y.eval σ) = (!negated) ∧ SignsHold σ pred x y := by
    intro x y σ
    rw [List.forall_mem_append, signConstraints_hold_iff, List.forall_mem_singleton,
      orderConstraint_holds_iff, and_comm, SignsHold, hunsigned]
    rfl
  rcases comparisonConstraints_forms h hF horient with ⟨x, y, hx, hy, rfl⟩ | ⟨hinexpressible, -⟩
  · rcases hplaces with ⟨rfl, rfl, htest⟩ | ⟨rfl, rfl, htest⟩
    · refine ⟨x, y, hx, hy, fun σ => ?_⟩
      rw [hholds, htest]
    · refine ⟨y, x, hy, hx, fun σ => ?_⟩
      rw [hholds, htest]
      exact and_congr_right fun _ => ⟨.symm, .symm⟩
  · rcases hplaces with ⟨rfl, rfl, -⟩ | ⟨rfl, rfl, -⟩
    · simp [ha, hb] at hinexpressible
    · simp [ha, hb] at hinexpressible

/-- Nothing is said about operands that cannot both be expressed. -/
theorem comparisonConstraints_inexpressible
    (h : Yields (sc.comparisonConstraints pred a b negated) s cs s')
    (hab : (sc.isExpressible a && sc.isExpressible b) = false) : cs = [] := by
  obtain ⟨⟨q, u, w⟩, horient⟩ : ∃ o, orient pred a b = o := ⟨_, rfl⟩
  rcases comparisonConstraints_forms h (.refl _) horient with ⟨x, y, hx, hy, -⟩ | ⟨-, hnil⟩
  · have hu := isExpressible_of_form? hx
    have hw := isExpressible_of_form? hy
    rcases (orient_spec horient).2 with ⟨rfl, rfl, -⟩ | ⟨rfl, rfl, -⟩
    · simp [hu, hw] at hab
    · simp [hu, hw] at hab
  · exact hnil

/-- The two outcomes only differ in the last constraint, which is negated. -/
theorem comparisonConstraints_negate
    (h : Yields (sc.comparisonConstraints pred a b false) s cs s') (hF : s'.supply.Extends F)
    (h' : Yields (sc.comparisonConstraints pred a b true) t ds t') (hF' : t'.supply.Extends F)
    (ha : sc.isExpressible a = true) (hb : sc.isExpressible b = true) :
    ∃ signs last, cs = signs ++ [last] ∧ ds = signs ++ [last.negate] := by
  obtain ⟨⟨q, u, w⟩, horient⟩ : ∃ o, orient pred a b = o := ⟨_, rfl⟩
  have hexpressible : (sc.isExpressible u && sc.isExpressible w) = true := by
    rcases (orient_spec horient).2 with ⟨rfl, rfl, -⟩ | ⟨rfl, rfl, -⟩
    · rw [ha, hb]
      rfl
    · rw [ha, hb]
      rfl
  rcases comparisonConstraints_forms h hF horient with ⟨x, y, hx, hy, rfl⟩ | ⟨hnot, -⟩
  swap
  · rw [hexpressible] at hnot
    cases hnot
  rcases comparisonConstraints_forms h' hF' horient with ⟨x', y', hx', hy', rfl⟩ | ⟨hnot, -⟩
  swap
  · rw [hexpressible] at hnot
    cases hnot
  obtain rfl := Option.some.inj (hx.symm.trans hx')
  obtain rfl := Option.some.inj (hy.symm.trans hy')
  exact ⟨_, _, rfl, by rw [orderConstraint_negate]⟩

/-- From every session, the constraints of a comparison of operands that can be expressed are found,
and they hold just where the comparison has the outcome that is asked for and no operand of an
unsigned comparison that is a variable is negative. For the two outcomes, whenever they are asked
for, the last constraint is one and its negation, and the others are the same. Nothing is found for
operands that cannot be expressed. -/
theorem comparisonConstraints_exact (sc : Scope) (pred : Predicate) (a b : Value) :
    (sc.isExpressible a = true → sc.isExpressible b = true →
      (∀ negated s, ∃ cs s', Yields (sc.comparisonConstraints pred a b negated) s cs s' ∧
        ∀ F, s'.supply.Extends F →
          ∃ x y, sc.form? F a = some x ∧ sc.form? F b = some y ∧ ∀ σ : Valuation,
            (∀ c ∈ cs, c.Holds σ) ↔ pred.test (x.eval σ) (y.eval σ) = (!negated) ∧
              (pred.isUnsigned = true → ∀ e ∈ [x, y], e.isVar = true → 0 ≤ e.eval σ)) ∧
      ∀ F s cs s' t ds t', Yields (sc.comparisonConstraints pred a b false) s cs s' →
        Yields (sc.comparisonConstraints pred a b true) t ds t' → s'.supply.Extends F →
        t'.supply.Extends F → ∃ signs last, cs = signs ++ [last] ∧ ds = signs ++ [last.negate]) ∧
    ((sc.isExpressible a && sc.isExpressible b) = false → Answered (sc.tracks a) →
      Answered (sc.tracks b) → ∀ negated s, ∃ s',
        Yields (sc.comparisonConstraints pred a b negated) s [] s') := by
  refine ⟨fun ha hb => ⟨fun negated s => ?_, ?_⟩, fun hab ha hb negated s => ?_⟩
  · have hsafe := comparisonConstraints_safe_of_answered pred negated
      (answered_of_isExpressible ha) (answered_of_isExpressible hb)
    obtain ⟨cs, s', h⟩ := (hsafe.ok_iff s).2 rfl
    exact ⟨cs, s', h, fun F hF => comparisonConstraints_holds_iff h hF ha hb⟩
  · intro F s cs s' t ds t' h h' hF hF'
    exact comparisonConstraints_negate h hF h' hF' ha hb
  · have hsafe := comparisonConstraints_safe_of_answered pred negated ha hb
    obtain ⟨cs, s', h⟩ := (hsafe.ok_iff s).2 rfl
    obtain rfl := comparisonConstraints_inexpressible h hab
    exact ⟨s', h⟩

/-- A function of two numbers. -/
def pairBody : Body := Body.ofListing [⟨"entry", [], .ret none⟩]

def pair : Function where
  name := "pair"
  params := [⟨"m", .int 32⟩, ⟨"n", .int 32⟩]
  ret := .void
  body := some pairBody

def pairScope : Scope := ⟨{ funcs := #[pair] }, ⟨0⟩, pair, pairBody, .silent, {}⟩

/-- An unsigned comparison of two variables, for both outcomes, and one with an undefined
operand. -/
theorem comparisonConstraints_exact_pair :
    pairScope.isExpressible (.arg 0) = true ∧ pairScope.isExpressible (.arg 1) = true ∧
    (∃ cs s' ds t' signs last m n,
      Yields (pairScope.comparisonConstraints .ugt (.arg 0) (.arg 1) false) {} cs s' ∧
      Yields (pairScope.comparisonConstraints .ugt (.arg 0) (.arg 1) true) s' ds t' ∧
      cs = signs ++ [last] ∧ ds = signs ++ [last.negate] ∧
      pairScope.form? t'.supply (.arg 0) = some (.ofVar m) ∧
      pairScope.form? t'.supply (.arg 1) = some (.ofVar n) ∧
      ∀ σ : Valuation, (∀ c ∈ ds, c.Holds σ) ↔ σ m ≤ σ n ∧ 0 ≤ σ m ∧ 0 ≤ σ n) ∧
    ∃ s', Yields (pairScope.comparisonConstraints .ugt (.arg 0) (.undef (some 32)) false) {} []
      s' := by
  have hm : pairScope.isExpressible (.arg 0) = true := rfl
  have hn : pairScope.isExpressible (.arg 1) = true := rfl
  obtain ⟨htotal, hboth⟩ := (comparisonConstraints_exact pairScope .ugt (.arg 0) (.arg 1)).1 hm hn
  obtain ⟨cs, s', hcs, -⟩ := htotal false {}
  obtain ⟨ds, t', hds, hexact⟩ := htotal true s'
  obtain ⟨signs, last, hsigns, hnegate⟩ :=
    hboth t'.supply {} cs s' s' ds t' hcs hds (comparisonConstraints_grows _ _ _ _ _ _ _ _ hds)
      (.refl _)
  obtain ⟨x, y, hx, hy, hiff⟩ := hexact t'.supply (.refl _)
  obtain ⟨m, -, rfl⟩ := Option.map_eq_some_iff.1 hx
  obtain ⟨n, -, rfl⟩ := Option.map_eq_some_iff.1 hy
  refine ⟨hm, hn, ⟨cs, s', ds, t', signs, last, m, n, hcs, hds, hsigns, hnegate, hx, hy, ?_⟩, ?_⟩
  · intro σ
    have hvar : ∀ v, (AffineForm.ofVar v).isVar = true := fun _ => rfl
    rw [hiff]
    simp [Predicate.test, Predicate.isUnsigned, hvar]
  · exact (comparisonConstraints_exact pairScope .ugt (.arg 0) (.undef (some 32))).2 rfl ⟨_, rfl⟩
      ⟨_, rfl⟩ false {}

end Scope

end AffineFlow
