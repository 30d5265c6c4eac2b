/-!
# Symbolic variables

A variable is its number. Names exist for printing only, so whoever prints
supplies them, and two variables of one name stay two variables.
-/
namespace AffineFlow

structure Var where
  id : Nat
  deriving DecidableEq, Repr, Inhabited, Hashable

/-- How variables are called in printed text. -/
abbrev Naming := Var → String

end AffineFlow
