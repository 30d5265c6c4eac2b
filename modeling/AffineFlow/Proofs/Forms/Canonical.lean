import AffineFlow.AffineForm.Eval
import Mathlib.Data.List.Perm.Basic

/-!
# Affine forms are canonical

The coefficient of a variable is what a form loses and gains when that variable
alone changes from zero to one, so the terms of a form can be read off the
function that it denotes. Forms that denote one function are equal, and whether
a form is a constant or a single variable is a question about its function.
-/
namespace AffineFlow

/-- One variable is one, all others are zero. -/
def unitValuation (v : Var) : Var → Int := fun w => if w = v then 1 else 0

theorem termsValue_zero (terms : List Term) : termsValue (fun _ => 0) terms = 0 := by
  induction terms with
  | nil => rfl
  | cons t rest ih => simp [ih]

theorem termsValue_unit_of_forall_ne {v : Var} {terms : List Term} (h : ∀ t ∈ terms, t.1 ≠ v) :
    termsValue (unitValuation v) terms = 0 := by
  induction terms with
  | nil => rfl
  | cons t rest ih =>
      obtain ⟨ht, hrest⟩ := List.forall_mem_cons.1 h
      simp [ih hrest, unitValuation, ht]

theorem termsValue_unit_of_mem {v : Var} {c : Int} {terms : List Term} (ho : TermsOrdered terms)
    (h : (v, c) ∈ terms) : termsValue (unitValuation v) terms = c := by
  induction terms with
  | nil => cases h
  | cons t rest ih =>
      obtain ⟨ht, hrest⟩ := List.pairwise_cons.1 ho
      rcases List.mem_cons.1 h with rfl | h
      · have hother : ∀ u ∈ rest, u.1 ≠ v := by
          intro u hu he
          exact absurd (ht u hu) (by simp [he])
        simp [termsValue_unit_of_forall_ne hother, unitValuation]
      · have hne : t.1 ≠ v := by
          intro he
          exact absurd (ht _ h) (by simp [he])
        simp [ih hrest h, unitValuation, hne]

namespace AffineForm

variable {a b e : AffineForm} {v : Var} {c : Int}

theorem eval_zero (e : AffineForm) : e.eval (fun _ => 0) = e.constant := by
  simp [eval, termsValue_zero]

/-- The terms of a form are the coefficients that its function shows. -/
theorem mem_terms_iff : (v, c) ∈ e.terms ↔ c ≠ 0 ∧ e.eval (unitValuation v) = c + e.constant := by
  constructor
  · intro h
    refine ⟨e.nonzero _ h, ?_⟩
    rw [eval, termsValue_unit_of_mem e.ordered h]
  · intro h
    obtain ⟨hc, he⟩ := h
    have hv : termsValue (unitValuation v) e.terms = c := by
      unfold eval at he
      omega
    by_cases hm : ∀ t ∈ e.terms, t.1 ≠ v
    · rw [termsValue_unit_of_forall_ne hm] at hv
      exact absurd hv.symm hc
    · push Not at hm
      obtain ⟨⟨w, d⟩, ht, rfl⟩ := hm
      rw [termsValue_unit_of_mem e.ordered ht] at hv
      rw [← hv]
      exact ht

def coefficient (e : AffineForm) (v : Var) : Int := (e.terms.lookup v).getD 0

/-- What the form gains when the variable alone changes from zero to one. -/
theorem coefficient_eq : e.coefficient v = e.eval (unitValuation v) - e.eval fun _ => 0 := by
  rw [eval_zero, coefficient]
  cases hlookup : e.terms.lookup v with
  | none =>
      have hne : ∀ t ∈ e.terms, t.1 ≠ v := by
        intro t ht he
        simpa [he] using List.lookup_eq_none_iff.1 hlookup t ht
      rw [eval, termsValue_unit_of_forall_ne hne]
      simp
  | some c =>
      obtain ⟨l₁, l₂, hterms, -⟩ := List.lookup_eq_some_iff.1 hlookup
      have hmem : (v, c) ∈ e.terms := by simp [hterms]
      rw [(mem_terms_iff.1 hmem).2, Option.getD_some, Int.add_sub_cancel]

/-- A form has the variables on which it depends. -/
theorem coefficient_ne_zero_iff : e.coefficient v ≠ 0 ↔ ∃ t ∈ e.terms, t.1 = v := by
  rw [coefficient_eq, eval_zero]
  constructor
  · intro h
    exact ⟨(v, _), mem_terms_iff.2 ⟨h, (Int.sub_add_cancel _ _).symm⟩, rfl⟩
  · intro h
    obtain ⟨⟨v, c⟩, ht, rfl⟩ := h
    obtain ⟨hc, he⟩ := mem_terms_iff.1 ht
    rwa [he, Int.add_sub_cancel]

theorem coefficient_const : (const c).coefficient v = 0 := rfl

theorem coefficient_ofVar : (ofVar v).coefficient v = 1 := by
  simp [coefficient_eq, unitValuation]

theorem coefficient_addConst : (a.addConst c).coefficient v = a.coefficient v := rfl

theorem coefficient_sub : (a - b).coefficient v = a.coefficient v - b.coefficient v := by
  simp only [coefficient_eq, eval_sub]
  omega

theorem terms_nodup (e : AffineForm) : e.terms.Nodup := by
  refine e.ordered.imp fun h he => ?_
  rw [he] at h
  exact Nat.lt_irrefl _ h

theorem ext_iff : a = b ↔ a.terms = b.terms ∧ a.constant = b.constant := by
  cases a
  cases b
  simp

/-- Forms with the same values are equal. -/
theorem ext_eval (h : ∀ ρ, a.eval ρ = b.eval ρ) : a = b := by
  have hconst : a.constant = b.constant := by rw [← eval_zero, h, eval_zero]
  have hmem : ∀ t, t ∈ a.terms ↔ t ∈ b.terms := fun ⟨v, c⟩ => by
    rw [mem_terms_iff, mem_terms_iff, h, hconst]
  have hperm := (List.perm_ext_iff_of_nodup a.terms_nodup b.terms_nodup).2 hmem
  refine ext_iff.2 ⟨hperm.eq_of_pairwise ?_ a.ordered b.ordered, hconst⟩
  intro s t _ _ hst hts
  exact absurd hts (Nat.lt_asymm hst)

theorem eq_iff_eval : a = b ↔ ∀ ρ, a.eval ρ = b.eval ρ :=
  ⟨fun h _ => h ▸ rfl, ext_eval⟩

theorem isConst_iff : e.isConst = true ↔ e = const e.constant := by
  rw [isConst, List.isEmpty_iff, ext_iff]
  simp [const]

theorem isVar_iff : e.isVar = true ↔ ∃ v, e = ofVar v := by
  unfold isVar toVar?
  constructor
  · intro h
    split at h
    next v ht hc =>
      refine ⟨v, ext_iff.2 ⟨ht, hc⟩⟩
    next => cases h
  · intro h
    obtain ⟨v, rfl⟩ := h
    rfl

theorem toConst?_eq_some_iff : e.toConst? = some c ↔ e = const c := by
  unfold toConst?
  constructor
  · intro h
    split at h
    next hconst =>
      obtain rfl := Option.some.inj h
      exact isConst_iff.1 hconst
    next => cases h
  · rintro rfl
    rfl

theorem toVar?_eq_some_iff : e.toVar? = some v ↔ e = ofVar v := by
  constructor
  · intro h
    obtain ⟨w, rfl⟩ := isVar_iff.1 (Option.isSome_iff_exists.2 ⟨v, h⟩)
    obtain rfl := Option.some.inj h
    rfl
  · rintro rfl
    rfl

end AffineForm

end AffineFlow
