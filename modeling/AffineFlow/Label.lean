/-!
# Block labels

Labels are claimed one after the other and never given back. A label that was
never claimed is granted as it is; otherwise it gets the next numeric suffix
that makes it new, and the count of suffixes goes on from there the next time.
-/
namespace AffineFlow

structure LabelCounts where
  /-- The labels claimed so far, each with the last suffix that a claim of it used. Of several
  entries for a label the first one counts. -/
  counts : List (String × Nat) := []

namespace LabelCounts

variable (l : LabelCounts)

def taken (label : String) : Bool := l.counts.any (·.1 == label)

def suffixed (base : String) (k : Nat) : String := base ++ "." ++ Nat.repr k

/-- The first suffix after `k` whose label is not taken; at most `fuel` of them are. -/
def nextSuffix (base : String) : Nat → Nat → Nat
  | 0, k => k + 1
  | fuel + 1, k =>
      if l.taken (suffixed base (k + 1)) then nextSuffix base fuel (k + 1) else k + 1

/-- The label that a claim for `base` is granted, and the counts after it. -/
def claim (base : String) : String × LabelCounts :=
  match l.counts.lookup base with
  | none => (base, ⟨(base, 0) :: l.counts⟩)
  | some count =>
      let k := l.nextSuffix base l.counts.length count
      (suffixed base k, ⟨(suffixed base k, 0) :: (base, k) :: l.counts⟩)

end LabelCounts

end AffineFlow
