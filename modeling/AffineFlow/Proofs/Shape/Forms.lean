import AffineFlow.Proofs.Forms.Canonical
import AffineFlow.Lowering.Condition
import Mathlib.Algebra.Ring.Int.Defs

/-!
# The forms that statements are made of

Statements outside constraints work on a variable or on a constant, and a
constraint is the difference of two such forms, off by one at most. Where the
constants of the two fit in 64 bits, the constant of the difference has at most
one bit more.
-/
namespace AffineFlow

open Ssa

namespace AffineForm

/-- One variable and nothing else, or a constant. -/
inductive Simple : AffineForm → Prop
  | var (v : Var) : Simple (ofVar v)
  | const (c : Int) : Simple (const c)

/-- One variable and nothing else, or a constant of 64 bits. -/
inductive Narrow : AffineForm → Prop
  | var (v : Var) : Narrow (ofVar v)
  | const (c : Int) (ge : -2 ^ 63 ≤ c) (lt : c < 2 ^ 63) : Narrow (const c)

theorem Narrow.simple {e : AffineForm} (h : e.Narrow) : e.Simple := by
  cases h with
  | var v => exact .var v
  | const c _ _ => exact .const c

/-- At most two terms, each with coefficient one or minus one, and not twice the same. -/
structure UnitTerms (terms : List Term) : Prop where
  length_le : terms.length ≤ 2
  unit : ∀ t ∈ terms, t.2 = 1 ∨ t.2 = -1
  opposite : ∀ s t, terms = [s, t] → t.2 = -s.2

namespace UnitTerms

theorem nil : UnitTerms [] := ⟨by simp, by simp, by simp⟩

theorem plus (v : Var) : UnitTerms [(v, 1)] := ⟨by simp, by simp, by simp⟩

theorem minus (v : Var) : UnitTerms [(v, -1)] := ⟨by simp, by simp, by simp⟩

theorem plus_minus (v w : Var) : UnitTerms [(v, 1), (w, -1)] :=
  ⟨by simp, by simp, by rintro s t ⟨⟩; rfl⟩

theorem minus_plus (v w : Var) : UnitTerms [(v, -1), (w, 1)] :=
  ⟨by simp, by simp, by rintro s t ⟨⟩; rfl⟩

end UnitTerms

variable {a b : AffineForm}

theorem addConst_zero (e : AffineForm) : e.addConst 0 = e :=
  ext_eval fun ρ => by rw [eval_addConst, Int.add_zero]

theorem constant_sub (a b : AffineForm) : (a - b).constant = a.constant - b.constant := by
  rw [← eval_zero, eval_sub, eval_zero, eval_zero]

/-- A difference of simple forms, up to constants. -/
theorem Simple.sub_unitTerms (ha : a.Simple) (hb : b.Simple) (j k : Int) :
    UnitTerms (a.addConst j - b.addConst k).terms := by
  cases ha with
  | const c =>
      cases hb with
      | const d => exact .nil
      | var w => exact .minus w
  | var v =>
      cases hb with
      | const d => exact .plus v
      | var w =>
          show UnitTerms (insertTerm w (-1) [(v, 1)])
          unfold insertTerm
          split
          · exact .plus v
          split
          · exact .minus_plus w v
          split
          · split
            · exact .nil
            next h => exact absurd rfl h
          · exact .plus_minus v w

theorem Narrow.constant_bounds (h : a.Narrow) : -2 ^ 63 ≤ a.constant ∧ a.constant < 2 ^ 63 := by
  cases h with
  | var v => exact ⟨Int.neg_nonpos_of_nonneg (by decide), Int.pow_pos (by decide)⟩
  | const c ge lt => exact ⟨ge, lt⟩

end AffineForm

/-- What the constraints of a graph look like: two simple forms compared, with a constant of at
most one bit more than 64. -/
structure Constraint.Difference (c : Constraint) : Prop where
  terms : AffineForm.UnitTerms c.form.terms
  constant_ge : -2 ^ 64 ≤ c.form.constant
  constant_le : c.form.constant ≤ 2 ^ 64

namespace AffineForm.Narrow

variable {a b : AffineForm} (ha : a.Narrow) (hb : b.Narrow)
include ha hb

/-- Narrow forms stay within the bounds if the constants added to them differ by one at most. -/
theorem difference (j k : Int) (kind : Constraint.Kind) (hle : j - k ≤ 1) (hge : k - j ≤ 1) :
    Constraint.Difference ⟨a.addConst j - b.addConst k, kind⟩ := by
  obtain ⟨ha₁, ha₂⟩ := ha.constant_bounds
  obtain ⟨hb₁, hb₂⟩ := hb.constant_bounds
  have hconst : (a.addConst j - b.addConst k).constant = (a.constant + j) - (b.constant + k) :=
    constant_sub _ _
  refine ⟨ha.simple.sub_unitTerms hb.simple j k, ?_, ?_⟩ <;>
    · simp only [hconst]
      omega

theorem difference_of_kind (kind : Constraint.Kind) :
    Constraint.Difference ⟨a - b, kind⟩ := by
  have h := ha.difference hb 0 0 kind (by decide) (by decide)
  rwa [addConst_zero, addConst_zero] at h

theorem orderConstraint (pred : Predicate) (negated : Bool) :
    (AffineFlow.orderConstraint pred negated a b).Difference := by
  have hab := ha.difference_of_kind hb
  have hba := hb.difference_of_kind ha
  have below : (Constraint.le a (b.addConst (-1))).Difference := by
    have h := ha.difference hb 0 (-1) .le (by decide) (by decide)
    rwa [addConst_zero] at h
  have beneath : (Constraint.le b (a.addConst (-1))).Difference := by
    have h := hb.difference ha 0 (-1) .le (by decide) (by decide)
    rwa [addConst_zero] at h
  have above : (Constraint.ge a (b.addConst 1)).Difference := by
    have h := hb.difference ha 1 0 .le (by decide) (by decide)
    rwa [addConst_zero] at h
  have beyond : (Constraint.ge b (a.addConst 1)).Difference := by
    have h := ha.difference hb 1 0 .le (by decide) (by decide)
    rwa [addConst_zero] at h
  unfold AffineFlow.orderConstraint
  split
  · exact hab .eq
  · exact hab .eq
  · exact hab .ne
  · exact hab .ne
  · exact below
  · exact below
  · exact hba .le
  · exact hba .le
  · exact hab .le
  · exact hab .le
  · exact above
  · exact above
  · exact beneath
  · exact beneath
  · exact hab .le
  · exact hab .le
  · exact hba .le
  · exact hba .le
  · exact beyond
  · exact beyond

omit ha hb in
theorem zero : (AffineForm.const 0).Narrow := .const 0 (by decide) (by decide)

theorem signConstraints (pred : Predicate) :
    ∀ c ∈ AffineFlow.signConstraints pred a b, c.Difference := by
  intro c hc
  unfold AffineFlow.signConstraints at hc
  split at hc
  next =>
    obtain ⟨e, he, rfl⟩ := List.mem_map.1 hc
    have hnarrow : e.Narrow := by
      rcases List.mem_pair.1 (List.mem_filter.1 he).1 with rfl | rfl
      · exact ha
      · exact hb
    exact zero.difference_of_kind hnarrow .le
  next => cases hc

end AffineForm.Narrow

namespace Stmt

/-- The forms outside constraints. -/
def forms : Stmt → List AffineForm
  | assign _ rhs => [rhs]
  | arith _ _ a b => [a, b]
  | bitwise _ _ a b => [a, b]
  | select _ _ onTrue onFalse => [onTrue, onFalse]
  | arrayLoad _ _ index _ => [index]
  | arrayStore _ index value _ => [index, value]
  | _ => []

def constraints : Stmt → List Constraint
  | assume c => [c]
  | select _ (.constraint c) _ _ => [c]
  | _ => []

/-- The statement is made of simple forms and of differences of them. -/
structure Regular (stmt : Stmt) : Prop where
  forms : ∀ e ∈ stmt.forms, e.Simple
  constraints : ∀ c ∈ stmt.constraints, c.Difference

end Stmt

end AffineFlow
