import AffineFlow.Proofs.Acceptance.Instructions
import AffineFlow.Proofs.Supply.Lowering

/-!
# The forms of operands

Which form an operand is expressed by does not depend on when it is asked for,
once the supply is large enough: it is the literal, or the variable of the
value. Whether there is a form does not depend on the supply at all.
-/
namespace AffineFlow

open Ssa Lowering

namespace Scope

variable {sc : Scope} {F : VarSupply} {s s' : Session} {v : Value} {e : AffineForm} {x : Var}

/-- The form that denotes a value in a supply: the literal, or the variable. -/
def form? (sc : Scope) (F : VarSupply) (v : Value) : Option AffineForm :=
  match v with
  | .int bits n => if bits = 1 then some (.const (if n = 0 then 0 else 1)) else (fit64 n).map .const
  | .null => if sc.modelsMemory then some (.const 0) else none
  | .undef _ => none
  | _ => if isYes (sc.tracks v) then ((sc.referent? v).bind F.find?).map .ofVar else none

theorem express_form {e? : Option AffineForm} (h : Yields (sc.express v) s e? s')
    (hF : s'.supply.Extends F) : e? = sc.form? F v ∧ e?.isSome = sc.isExpressible v := by
  have asked : ∀ s, Yields (do
      if ← Lowering.ofExcept (sc.tracks v) then return some (.ofVar (← sc.variableOf v))
      else return none) s e? s' →
      e? = (if isYes (sc.tracks v) then ((sc.referent? v).bind F.find?).map .ofVar else none) ∧
        e?.isSome = isYes (sc.tracks v) := by
    intro s h
    simp only [yields_bind, yields_ofExcept] at h
    obtain ⟨tracked, _, ⟨htracked, rfl⟩, h⟩ := h
    rw [isYes_of_eq htracked]
    cases tracked with
    | false =>
        obtain ⟨rfl, -⟩ := yields_pure.1 h
        exact ⟨rfl, rfl⟩
    | true =>
        simp only [if_true, yields_bind, yields_pure] at h
        obtain ⟨x, _, hx, rfl, rfl⟩ := h
        obtain ⟨-, r, hr, hfind⟩ := variableOf_spec hx hF
        exact ⟨by simp [hr, hfind], rfl⟩
  cases v with
  | int bits n =>
      simp only [express] at h
      simp only [form?, isExpressible]
      split at h
      next hb =>
        obtain ⟨rfl, -⟩ := yields_pure.1 h
        simp [hb]
      next hb =>
        obtain ⟨rfl, -⟩ := yields_pure.1 h
        simp [hb]
  | null =>
      obtain ⟨rfl, -⟩ := yields_pure.1 h
      refine ⟨rfl, ?_⟩
      show (if sc.modelsMemory = true then _ else _ : Option AffineForm).isSome = sc.modelsMemory
      cases sc.modelsMemory <;> rfl
  | undef bits =>
      obtain ⟨rfl, -⟩ := yields_pure.1 h
      exact ⟨rfl, rfl⟩
  | inst id => exact asked s h
  | arg i => exact asked s h
  | global id => exact asked s h
  | func id => exact asked s h

/-- What is no literal has its variable as its form, if it is tracked. -/
theorem form?_eq_some_iff (hv : v.isLiteral = false) :
    sc.form? F v = some e ↔ sc.tracks v = .ok true ∧ ∃ x, sc.Denotes F v x ∧ e = .ofVar x := by
  have hform : sc.form? F v =
      if isYes (sc.tracks v) then ((sc.referent? v).bind F.find?).map .ofVar else none := by
    cases v with
    | inst id => rfl
    | arg i => rfl
    | global id => rfl
    | func id => rfl
    | int bits n => cases hv
    | null => cases hv
    | undef bits => cases hv
  rw [hform]
  constructor
  · intro h
    split at h
    next htracked =>
      obtain ⟨x, hx, rfl⟩ := Option.map_eq_some_iff.1 h
      obtain ⟨r, hr, hfind⟩ := Option.bind_eq_some_iff.1 hx
      exact ⟨isYes_iff.1 htracked, x, ⟨r, hr, hfind⟩, rfl⟩
    next => cases h
  · intro h
    obtain ⟨htracks, x, ⟨r, hr, hfind⟩, rfl⟩ := h
    rw [isYes_of_eq htracks, if_pos rfl, hr, Option.bind_some, hfind, Option.map_some]

/-- The form of a literal is a number. -/
theorem exists_const_of_form? (hv : v.isLiteral = true) (he : sc.form? F v = some e) :
    ∃ n, e = .const n := by
  cases v with
  | int bits n =>
      simp only [form?] at he
      split at he
      next => exact ⟨_, (Option.some.inj he).symm⟩
      next =>
        obtain ⟨m, -, rfl⟩ := Option.map_eq_some_iff.1 he
        exact ⟨m, rfl⟩
  | null =>
      simp only [form?] at he
      split at he
      next => exact ⟨0, (Option.some.inj he).symm⟩
      next => cases he
  | undef bits => cases he
  | inst id => cases hv
  | arg i => cases hv
  | global id => cases hv
  | func id => cases hv

/-- A form has no variable but that of the value, which is tracked. -/
theorem form?_denotes (he : sc.form? F v = some e) {t : Term} (ht : t ∈ e.terms) :
    sc.tracks v = .ok true ∧ sc.Denotes F v t.1 := by
  cases hv : v.isLiteral with
  | true =>
      obtain ⟨n, rfl⟩ := exists_const_of_form? hv he
      cases ht
  | false =>
      obtain ⟨htracks, x, hx, rfl⟩ := (form?_eq_some_iff hv).1 he
      obtain rfl := List.mem_singleton.1 ht
      exact ⟨htracks, hx⟩

/-- An operand with a form can be expressed. -/
theorem isExpressible_of_form? (he : sc.form? F v = some e) : sc.isExpressible v = true := by
  cases v with
  | int bits n =>
      simp only [form?] at he
      unfold isExpressible
      split at he
      next hb => simp [hb]
      next =>
        obtain ⟨m, hm, -⟩ := Option.map_eq_some_iff.1 he
        simp [hm]
  | null =>
      simp only [form?] at he
      split at he
      next hmemory => exact hmemory
      next => cases he
  | undef bits => cases he
  | inst id => exact isYes_iff.2 ((form?_eq_some_iff rfl).1 he).1
  | arg i => exact isYes_iff.2 ((form?_eq_some_iff rfl).1 he).1
  | global id => exact isYes_iff.2 ((form?_eq_some_iff rfl).1 he).1
  | func id => exact isYes_iff.2 ((form?_eq_some_iff rfl).1 he).1

/-- A value that can be expressed has a form in every supply that is large enough. -/
theorem express_of_isExpressible {e? : Option AffineForm} (h : Yields (sc.express v) s e? s')
    (hF : s'.supply.Extends F) (hv : sc.isExpressible v = true) :
    ∃ e, e? = some e ∧ sc.form? F v = some e := by
  obtain ⟨hform, hsome⟩ := express_form h hF
  obtain ⟨e, he⟩ := Option.isSome_iff_exists.1 (hsome.trans hv)
  exact ⟨e, he, hform.symm.trans he⟩

theorem Denotes.not_literal (hx : sc.Denotes F v x) : v.isLiteral = false := by
  obtain ⟨r, hr, -⟩ := hx
  cases v with
  | inst id => rfl
  | arg i => rfl
  | global id => rfl
  | func id => rfl
  | int bits n => cases hr
  | null => cases hr
  | undef bits => cases hr

/-- The form of a tracked value that has a variable is the variable. -/
theorem form?_of_denotes (htracks : sc.tracks v = .ok true) (hx : sc.Denotes F v x) :
    sc.form? F v = some (.ofVar x) :=
  (form?_eq_some_iff hx.not_literal).2 ⟨htracks, x, hx, rfl⟩

end Scope

end AffineFlow
