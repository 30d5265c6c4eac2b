import AffineFlow.AffineForm.Basic

/-!
# Written affine forms

Terms in order, joined by their signs; a coefficient of magnitude one is not
written, and neither is a zero constant beside terms.
-/
namespace AffineFlow

/-- Decimal digits, after a minus sign if the number is negative. -/
def decimal (n : Int) : String :=
  if n < 0 then "-" ++ Nat.repr n.natAbs else Nat.repr n.natAbs

namespace AffineForm

/-- The magnitude of a term: its variable after a coefficient other than one. -/
def magnitudeText (names : Naming) (t : Term) : String :=
  if t.2.natAbs = 1 then names t.1 else Nat.repr t.2.natAbs ++ "*" ++ names t.1

def leadingText (names : Naming) (t : Term) : String :=
  (if t.2 < 0 then "-" else "") ++ magnitudeText names t

def followingText (names : Naming) (t : Term) : String :=
  (if t.2 < 0 then " - " else " + ") ++ magnitudeText names t

def termsText (names : Naming) : List Term → String
  | [] => ""
  | t :: rest => rest.foldl (fun s u => s ++ followingText names u) (leadingText names t)

def text (names : Naming) (e : AffineForm) : String :=
  if e.isConst then decimal e.constant
  else
    termsText names e.terms ++
      (if e.constant > 0 then " + " ++ Nat.repr e.constant.natAbs
       else if e.constant < 0 then " - " ++ Nat.repr e.constant.natAbs
       else "")

end AffineForm

end AffineFlow
