import AffineFlow.AffineForm.Basic

/-!
# Values of affine forms

`eval` is the function that a form denotes. Each operation on forms is that
operation on the functions; a coefficient that cancels leaves the function as it
is.
-/
namespace AffineFlow

/-- The value of a sum of terms when the variables have the values `ρ`. -/
def termsValue (ρ : Var → Int) : List Term → Int
  | [] => 0
  | t :: terms => t.2 * ρ t.1 + termsValue ρ terms

@[simp] theorem termsValue_nil (ρ : Var → Int) : termsValue ρ [] = 0 := rfl

@[simp] theorem termsValue_cons (ρ : Var → Int) (t : Term) (terms : List Term) :
    termsValue ρ (t :: terms) = t.2 * ρ t.1 + termsValue ρ terms := rfl

namespace AffineForm

/-- The value of the form when the variables have the values `ρ`. -/
def eval (ρ : Var → Int) (e : AffineForm) : Int := termsValue ρ e.terms + e.constant

theorem termsValue_insertTerm (ρ : Var → Int) (v : Var) (c : Int) (terms : List Term) :
    termsValue ρ (insertTerm v c terms) = termsValue ρ terms + c * ρ v := by
  induction terms with
  | nil =>
      unfold insertTerm
      split <;> simp_all
  | cons t rest ih =>
      obtain ⟨w, d⟩ := t
      unfold insertTerm
      split
      next hc => simp [hc]
      split
      next => simp only [termsValue_cons]; omega
      split
      next hid =>
        obtain rfl : v = w := by cases v; cases w; simpa using hid
        split
        next hd =>
          have : d * ρ v + c * ρ v = 0 := by rw [← Int.add_mul, hd, Int.zero_mul]
          simp only [termsValue_cons]; omega
        next => simp only [termsValue_cons, Int.add_mul]; omega
      next => simp only [termsValue_cons, ih]; omega

theorem termsValue_scaled (ρ : Var → Int) (k : Int) (terms : List Term) :
    termsValue ρ (terms.map fun t => (t.1, t.2 * k)) = k * termsValue ρ terms := by
  induction terms with
  | nil => simp
  | cons t rest ih =>
      simp only [List.map_cons, termsValue_cons, ih, Int.mul_add]
      rw [Int.mul_comm t.2 k, Int.mul_assoc]

@[simp] theorem eval_const (ρ : Var → Int) (c : Int) : (const c).eval ρ = c := by
  simp [eval, const]

@[simp] theorem eval_ofVar (ρ : Var → Int) (v : Var) : (ofVar v).eval ρ = ρ v := by
  simp [eval, ofVar]

@[simp] theorem eval_addConst (ρ : Var → Int) (e : AffineForm) (c : Int) :
    (e.addConst c).eval ρ = e.eval ρ + c := by
  simp only [eval, addConst]; omega

@[simp] theorem eval_addTerm (ρ : Var → Int) (e : AffineForm) (t : Term) :
    (e.addTerm t).eval ρ = e.eval ρ + t.2 * ρ t.1 := by
  simp only [eval, addTerm, termsValue_insertTerm]; omega

theorem eval_foldl_addTerm (ρ : Var → Int) (terms : List Term) (e : AffineForm) :
    (terms.foldl addTerm e).eval ρ = e.eval ρ + termsValue ρ terms := by
  induction terms generalizing e with
  | nil => simp
  | cons t rest ih => simp only [List.foldl_cons, ih, eval_addTerm, termsValue_cons]; omega

@[simp] theorem eval_add (ρ : Var → Int) (a b : AffineForm) :
    (a + b).eval ρ = a.eval ρ + b.eval ρ := by
  show (a.add b).eval ρ = _
  simp only [add, eval_addConst, eval_foldl_addTerm]
  simp only [eval]; omega

@[simp] theorem eval_scale (ρ : Var → Int) (k : Int) (e : AffineForm) :
    (e.scale k).eval ρ = k * e.eval ρ := by
  unfold scale
  split
  next hk => simp [hk]
  next => simp only [eval, termsValue_scaled, Int.mul_add, Int.mul_comm e.constant k]

@[simp] theorem eval_neg (ρ : Var → Int) (e : AffineForm) : (-e).eval ρ = -e.eval ρ := by
  show (e.scale (-1)).eval ρ = _
  rw [eval_scale]; omega

@[simp] theorem eval_sub (ρ : Var → Int) (a b : AffineForm) :
    (a - b).eval ρ = a.eval ρ - b.eval ρ := by
  show (a + -b).eval ρ = _
  rw [eval_add, eval_neg]; omega

end AffineForm

end AffineFlow
