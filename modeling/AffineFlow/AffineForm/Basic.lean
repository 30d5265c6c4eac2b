import AffineFlow.Variable

/-!
# Affine forms

`c₁·x₁ + … + cₙ·xₙ + c` over exact integers. The terms are kept in increasing
variable order without zero coefficients, so a form is determined by the
function that it denotes, and equality of forms is equality of functions.
-/
namespace AffineFlow

abbrev Term := Var × Int

/-- The order of the terms of a form: strictly increasing variables. -/
abbrev TermsOrdered (terms : List Term) : Prop :=
  terms.Pairwise fun s t => s.1.id < t.1.id

structure AffineForm where
  terms : List Term
  constant : Int
  ordered : TermsOrdered terms
  nonzero : ∀ t ∈ terms, t.2 ≠ 0
  deriving DecidableEq

namespace AffineForm

/-- Adds `c·v` to an ordered sum; a coefficient that becomes zero disappears. -/
def insertTerm (v : Var) (c : Int) : List Term → List Term
  | [] => if c = 0 then [] else [(v, c)]
  | (w, d) :: rest =>
      if c = 0 then (w, d) :: rest
      else if v.id < w.id then (v, c) :: (w, d) :: rest
      else if v.id = w.id then
        if d + c = 0 then rest else (w, d + c) :: rest
      else (w, d) :: insertTerm v c rest

theorem id_mem_insertTerm {v : Var} {c : Int} {terms : List Term} {t : Term}
    (h : t ∈ insertTerm v c terms) : t.1.id = v.id ∨ ∃ s ∈ terms, t.1.id = s.1.id := by
  induction terms with
  | nil =>
      unfold insertTerm at h
      split at h <;> simp_all
  | cons s rest ih =>
      obtain ⟨w, d⟩ := s
      unfold insertTerm at h
      split at h
      · exact .inr ⟨t, h, rfl⟩
      split at h
      · rcases List.mem_cons.1 h with rfl | h
        · exact .inl rfl
        · exact .inr ⟨t, h, rfl⟩
      split at h
      · split at h
        · exact .inr ⟨t, List.mem_cons_of_mem _ h, rfl⟩
        · rcases List.mem_cons.1 h with rfl | h
          · exact .inr ⟨_, List.mem_cons_self, rfl⟩
          · exact .inr ⟨t, List.mem_cons_of_mem _ h, rfl⟩
      · rcases List.mem_cons.1 h with rfl | h
        · exact .inr ⟨_, List.mem_cons_self, rfl⟩
        · rcases ih h with h | ⟨s, hs, he⟩
          · exact .inl h
          · exact .inr ⟨s, List.mem_cons_of_mem _ hs, he⟩

theorem insertTerm_ordered {terms : List Term} (v : Var) (c : Int) (h : TermsOrdered terms) :
    TermsOrdered (insertTerm v c terms) := by
  induction terms with
  | nil =>
      unfold insertTerm
      split <;> simp
  | cons s rest ih =>
      obtain ⟨w, d⟩ := s
      obtain ⟨hw, hrest⟩ := List.pairwise_cons.1 h
      unfold insertTerm
      split
      · exact h
      split
      next hlt =>
        refine List.pairwise_cons.2 ⟨fun t ht => ?_, h⟩
        rcases List.mem_cons.1 ht with rfl | ht
        · exact hlt
        · exact Nat.lt_trans hlt (hw t ht)
      split
      · split
        · exact hrest
        · exact List.pairwise_cons.2 ⟨hw, hrest⟩
      next hle hne =>
        refine List.pairwise_cons.2 ⟨fun t ht => ?_, ih hrest⟩
        rcases id_mem_insertTerm ht with ht | ⟨s, hs, he⟩
        · exact ht ▸ show w.id < v.id by omega
        · rw [he]; exact hw s hs

theorem insertTerm_nonzero {terms : List Term} (v : Var) (c : Int)
    (h : ∀ t ∈ terms, t.2 ≠ 0) : ∀ t ∈ insertTerm v c terms, t.2 ≠ 0 := by
  induction terms with
  | nil =>
      unfold insertTerm
      split <;> simp_all
  | cons s rest ih =>
      obtain ⟨w, d⟩ := s
      rw [List.forall_mem_cons] at h
      unfold insertTerm
      split
      · exact List.forall_mem_cons.2 h
      next hc =>
      split
      · exact List.forall_mem_cons.2 ⟨hc, List.forall_mem_cons.2 h⟩
      split
      · split
        next => exact h.2
        next hd => exact List.forall_mem_cons.2 ⟨hd, h.2⟩
      · exact List.forall_mem_cons.2 ⟨h.1, ih h.2⟩

def const (c : Int) : AffineForm := ⟨[], c, .nil, by simp⟩

def ofVar (v : Var) : AffineForm := ⟨[(v, 1)], 0, by simp, by simp⟩

instance : Inhabited AffineForm := ⟨const 0⟩

def addTerm (e : AffineForm) (t : Term) : AffineForm :=
  ⟨insertTerm t.1 t.2 e.terms, e.constant, insertTerm_ordered _ _ e.ordered,
    insertTerm_nonzero _ _ e.nonzero⟩

def addConst (e : AffineForm) (c : Int) : AffineForm := { e with constant := e.constant + c }

def add (a b : AffineForm) : AffineForm := (b.terms.foldl addTerm a).addConst b.constant

/-- Every coefficient and the constant times `k`. -/
def scale (k : Int) (e : AffineForm) : AffineForm :=
  if hk : k = 0 then const 0
  else
    { terms := e.terms.map fun t => (t.1, t.2 * k)
      constant := e.constant * k
      ordered := List.pairwise_map.2 e.ordered
      nonzero := by
        intro t ht
        obtain ⟨s, hs, rfl⟩ := List.mem_map.1 ht
        exact Int.mul_ne_zero (e.nonzero s hs) hk }

def neg (e : AffineForm) : AffineForm := e.scale (-1)

def sub (a b : AffineForm) : AffineForm := a.add b.neg

instance : Add AffineForm := ⟨add⟩
instance : Neg AffineForm := ⟨neg⟩
instance : Sub AffineForm := ⟨sub⟩

def isConst (e : AffineForm) : Bool := e.terms.isEmpty

def toConst? (e : AffineForm) : Option Int := if e.isConst then some e.constant else none

/-- The variable, if the form is one variable and nothing else. -/
def toVar? (e : AffineForm) : Option Var :=
  match e.terms, e.constant with
  | [(v, 1)], 0 => some v
  | _, _ => none

def isVar (e : AffineForm) : Bool := e.toVar?.isSome

/-- A constant or a single variable. -/
def isAtomic (e : AffineForm) : Bool := e.isConst || e.isVar

end AffineForm

end AffineFlow
