import AffineFlow.AffineForm.Eval
import AffineFlow.AffineForm.Text

/-!
# Affine constraints

A form compared with zero. Over the integers the three kinds are closed under
negation, because `e > 0` is `-e + 1 ≤ 0`.
-/
namespace AffineFlow

namespace Constraint

inductive Kind where
  | eq
  | ne
  | le
  deriving DecidableEq, Repr

end Constraint

/-- `form = 0`, `form ≠ 0` or `form ≤ 0`. -/
structure Constraint where
  form : AffineForm
  kind : Constraint.Kind
  deriving DecidableEq

namespace Constraint

def eq (a b : AffineForm) : Constraint := ⟨a - b, .eq⟩

def ne (a b : AffineForm) : Constraint := ⟨a - b, .ne⟩

def le (a b : AffineForm) : Constraint := ⟨a - b, .le⟩

def ge (a b : AffineForm) : Constraint := le b a

/-- The constraint that holds exactly where this one does not. -/
def negate (c : Constraint) : Constraint :=
  match c.kind with
  | .eq => ⟨c.form, .ne⟩
  | .ne => ⟨c.form, .eq⟩
  | .le => ⟨(-c.form).addConst 1, .le⟩

/-- Whether zero compares with `value` as the kind says. -/
def Kind.test (kind : Kind) (value : Int) : Bool :=
  match kind with
  | .eq => value == 0
  | .ne => value != 0
  | .le => decide (value ≤ 0)

/-- The constraint is true where the variables have the values `ρ`. -/
def Holds (ρ : Var → Int) (c : Constraint) : Prop := c.kind.test (c.form.eval ρ)

/-- The truth of a constraint without variables. -/
def truth? (c : Constraint) : Option Bool := c.form.toConst?.map c.kind.test

def Kind.text : Kind → String
  | .eq => "="
  | .ne => "!="
  | .le => "<="

/-- The terms on the left, the constant with its sign changed on the right. -/
def text (names : Naming) (c : Constraint) : String :=
  (if c.form.isConst then "0" else AffineForm.termsText names c.form.terms) ++
    " " ++ c.kind.text ++ " " ++ decimal (-c.form.constant)

end Constraint

end AffineFlow
