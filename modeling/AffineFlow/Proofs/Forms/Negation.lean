import AffineFlow.Constraint
import AffineFlow.Proofs.Forms.Canonical

/-!
# Negated constraints

The value of a form is an integer, so "not at most zero" is "at least one", and
the three kinds of constraints are closed under negation. Negating twice scales
and shifts the form twice. The result denotes the same function as before, so it
is the same form.
-/
namespace AffineFlow.Constraint

variable {c : Constraint} {a b : AffineForm} {ρ : Var → Int}

/-- What a constraint of the kind says of the value of its form. -/
def Kind.Compares : Kind → Int → Prop
  | .eq, value => value = 0
  | .ne, value => value ≠ 0
  | .le, value => value ≤ 0

theorem Kind.test_iff {kind : Kind} {value : Int} :
    kind.test value = true ↔ kind.Compares value := by
  cases kind <;> simp [test, Compares]

theorem holds_iff : c.Holds ρ ↔ c.kind.Compares (c.form.eval ρ) := Kind.test_iff

instance : Decidable (c.Holds ρ) := inferInstanceAs (Decidable (_ = true))

theorem decide_holds : decide (c.Holds ρ) = c.kind.test (c.form.eval ρ) :=
  Bool.eq_iff_iff.2 decide_eq_true_iff

theorem holds_eq_iff : (eq a b).Holds ρ ↔ a.eval ρ = b.eval ρ := by
  simp only [holds_iff, eq, Kind.Compares, AffineForm.eval_sub]
  omega

theorem holds_ne_iff : (ne a b).Holds ρ ↔ a.eval ρ ≠ b.eval ρ := by
  simp only [holds_iff, ne, Kind.Compares, AffineForm.eval_sub]
  omega

theorem holds_le_iff : (le a b).Holds ρ ↔ a.eval ρ ≤ b.eval ρ := by
  simp only [holds_iff, le, Kind.Compares, AffineForm.eval_sub]
  omega

theorem holds_ge_iff : (ge a b).Holds ρ ↔ b.eval ρ ≤ a.eval ρ := holds_le_iff

theorem holds_negate_iff : c.negate.Holds ρ ↔ ¬c.Holds ρ := by
  obtain ⟨form, kind⟩ := c
  rw [holds_iff, holds_iff]
  cases kind with
  | eq => exact Iff.rfl
  | ne => exact not_not.symm
  | le =>
      simp only [negate, Kind.Compares, AffineForm.eval_addConst, AffineForm.eval_neg]
      omega

theorem negate_negate (c : Constraint) : c.negate.negate = c := by
  obtain ⟨form, kind⟩ := c
  cases kind with
  | eq => rfl
  | ne => rfl
  | le =>
      have hform : (-(-form).addConst 1).addConst 1 = form := by
        refine AffineForm.ext_eval fun ρ => ?_
        simp only [AffineForm.eval_addConst, AffineForm.eval_neg]
        omega
      exact congrArg (Constraint.mk · .le) hform

/-- The truth of a constraint is known where its form is a constant, whatever the variables are. -/
theorem truth?_eq (c : Constraint) (ρ : Var → Int) :
    c.truth? = if c.form.terms = [] then some (decide (c.Holds ρ)) else none := by
  unfold truth? AffineForm.toConst?
  by_cases hterms : c.form.terms = []
  · have hconst : c.form.isConst = true := by rw [AffineForm.isConst, hterms]; rfl
    have heval : c.form.eval ρ = c.form.constant := by simp [AffineForm.eval, hterms]
    rw [if_pos hconst, if_pos hterms, Option.map_some, decide_holds, heval]
  · have hconst : ¬c.form.isConst = true := by simpa [AffineForm.isConst] using hterms
    rw [if_neg hconst, if_neg hterms, Option.map_none]

/-- A constraint compares the value of its form with zero, and the constraint between two forms
compares their values. The negation holds where the constraint does not, and the negation of the
negation is the constraint. The truth of a constraint is given just if it has no variables, and is
then its truth wherever one looks. -/
theorem negate_exact (c : Constraint) (a b : AffineForm) (ρ : Var → Int) :
    (c.Holds ρ ↔ c.kind.Compares (c.form.eval ρ)) ∧ (c.negate.Holds ρ ↔ ¬c.Holds ρ) ∧
      c.negate.negate = c ∧
      c.truth? = (if c.form.terms = [] then some (decide (c.Holds ρ)) else none) ∧
      ((eq a b).Holds ρ ↔ a.eval ρ = b.eval ρ) ∧ ((ne a b).Holds ρ ↔ a.eval ρ ≠ b.eval ρ) ∧
      ((le a b).Holds ρ ↔ a.eval ρ ≤ b.eval ρ) ∧ ((ge a b).Holds ρ ↔ b.eval ρ ≤ a.eval ρ) :=
  ⟨holds_iff, holds_negate_iff, c.negate_negate, c.truth?_eq ρ, holds_eq_iff, holds_ne_iff,
    holds_le_iff, holds_ge_iff⟩

example : (le (.ofVar ⟨0⟩) ((AffineForm.ofVar ⟨1⟩).addConst (-1))).negate =
    ge (.ofVar ⟨0⟩) (.ofVar ⟨1⟩) := by
  decide

end AffineFlow.Constraint
