import AffineFlow.Proofs.Forms.Canonical

/-!
# Expressions over affine forms

Forms are put together with a few operations, in any nesting. Whatever the
nesting, the form denotes what the expression means as arithmetic on integers,
and because forms are canonical, every question about that function that can be
asked of the form is answered by looking at the form: whether two expressions
mean the same, whether one is a constant and which, and whether one is a
variable and which.

Integers are exact here. What the operations do within a fixed width is a
question about the forms that the lowering puts together.
-/
namespace AffineFlow

/-- The ways of putting an affine form together. -/
inductive Expression where
  | const (c : Int)
  | var (v : Var)
  | add (x y : Expression)
  | sub (x y : Expression)
  | neg (x : Expression)
  | scale (x : Expression) (k : Int)
  | addConst (x : Expression) (k : Int)
  | subConst (x : Expression) (k : Int)

namespace Expression

/-- The form that the operations compute. -/
def form : Expression → AffineForm
  | const c => .const c
  | var v => .ofVar v
  | add x y => x.form + y.form
  | sub x y => x.form - y.form
  | neg x => -x.form
  | scale x k => x.form.scale k
  | addConst x k => x.form.addConst k
  | subConst x k => x.form.addConst (-k)

/-- What the expression means when the variables have the values `ρ`. -/
def value (ρ : Var → Int) : Expression → Int
  | const c => c
  | var v => ρ v
  | add x y => x.value ρ + y.value ρ
  | sub x y => x.value ρ - y.value ρ
  | neg x => -x.value ρ
  | scale x k => x.value ρ * k
  | addConst x k => x.value ρ + k
  | subConst x k => x.value ρ - k

variable (x y : Expression)

theorem eval_form (ρ : Var → Int) : x.form.eval ρ = x.value ρ := by
  induction x with
  | const c => exact AffineForm.eval_const ρ c
  | var v => exact AffineForm.eval_ofVar ρ v
  | add x y ihx ihy => simp only [form, value, AffineForm.eval_add, ihx, ihy]
  | sub x y ihx ihy => simp only [form, value, AffineForm.eval_sub, ihx, ihy]
  | neg x ih => simp only [form, value, AffineForm.eval_neg, ih]
  | scale x k ih => simp only [form, value, AffineForm.eval_scale, ih, Int.mul_comm]
  | addConst x k ih => simp only [form, value, AffineForm.eval_addConst, ih]
  | subConst x k ih => simp only [form, value, AffineForm.eval_addConst, ih, Int.sub_eq_add_neg]

theorem form_eq_iff (e : AffineForm) : x.form = e ↔ ∀ ρ, x.value ρ = e.eval ρ := by
  simp only [AffineForm.eq_iff_eval, eval_form]

theorem isConst_form_iff : x.form.isConst = true ↔ ∃ c, ∀ ρ, x.value ρ = c := by
  rw [AffineForm.isConst_iff, form_eq_iff]
  simp only [AffineForm.eval_const]
  constructor
  · intro h
    exact ⟨_, h⟩
  · rintro ⟨c, h⟩ ρ
    rw [h, ← AffineForm.eval_zero, eval_form, h]

theorem isVar_form_iff : x.form.isVar = true ↔ ∃ v, ∀ ρ, x.value ρ = ρ v := by
  simp only [AffineForm.isVar_iff, form_eq_iff, AffineForm.eval_ofVar]

/-- The form of an expression is canonical: it has the value of the expression, its terms are in
strictly increasing order without zero coefficients, it is the form of exactly those expressions
that mean the same, and its tests for constants and variables are tests of what the expression
means. -/
theorem form_canonical :
    (∀ ρ, x.form.eval ρ = x.value ρ) ∧
      (∀ t ∈ x.form.terms, t.2 ≠ 0) ∧
      TermsOrdered x.form.terms ∧
      (x.form = y.form ↔ ∀ ρ, x.value ρ = y.value ρ) ∧
      (x.form.isConst = true ↔ ∃ c, ∀ ρ, x.value ρ = c) ∧
      (∀ c, x.form.toConst? = some c ↔ ∀ ρ, x.value ρ = c) ∧
      (∀ v, x.form.toVar? = some v ↔ ∀ ρ, x.value ρ = ρ v) ∧
      (x.form.isVar = true ↔ ∃ v, ∀ ρ, x.value ρ = ρ v) := by
  have hequal : x.form = y.form ↔ ∀ ρ, x.value ρ = y.value ρ := by
    simp only [form_eq_iff, eval_form]
  have hconst (c : Int) : x.form.toConst? = some c ↔ ∀ ρ, x.value ρ = c := by
    simp only [AffineForm.toConst?_eq_some_iff, form_eq_iff, AffineForm.eval_const]
  have hvar (v : Var) : x.form.toVar? = some v ↔ ∀ ρ, x.value ρ = ρ v := by
    simp only [AffineForm.toVar?_eq_some_iff, form_eq_iff, AffineForm.eval_ofVar]
  exact ⟨x.eval_form, x.form.nonzero, x.form.ordered, hequal, x.isConst_form_iff, hconst, hvar,
    x.isVar_form_iff⟩

end Expression

end AffineFlow
