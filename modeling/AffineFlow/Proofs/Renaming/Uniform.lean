import AffineFlow.Proofs.Renaming.Worlds

/-!
# Computations that run alike

From supplies that have grown alike, two computations run alike if both end well,
with supplies that again have grown alike and with results that are the same up
to renaming, or if both fail for the same reason. There is one rule per way of
building a computation; under the rule for sequences, the second part may use
that its two inputs are alike.
-/
namespace AffineFlow

open Ssa

variable {s₀ t₀ : VarSupply} {W W' : World s₀ t₀} {α β γ : Type}

namespace Alike

section Values

variable [Renamable α] [Renamable β] [Renamable γ] {a a' : α} {b b' : β} {l m : List α}

theorem exists_renaming (h : Alike W a a') : ∃ π, Function.Injective π ∧ a' = rename π a := by
  obtain ⟨π, hπ⟩ := W.exists_renaming
  exact ⟨π, hπ.injective, h π hπ⟩

/-- What commutes with renaming keeps values alike. -/
theorem map {f : α → β} (hf : ∀ π, Function.Injective π → ∀ a, rename π (f a) = f (rename π a))
    (h : Alike W a a') : Alike W (f a) (f a') := by
  intro π hπ
  rw [h π hπ, hf π hπ.injective]

theorem map₂ {f : α → β → γ}
    (hf : ∀ π, Function.Injective π → ∀ a b, rename π (f a b) = f (rename π a) (rename π b))
    (ha : Alike W a a') (hb : Alike W b b') : Alike W (f a b) (f a' b') := by
  intro π hπ
  rw [ha π hπ, hb π hπ, hf π hπ.injective]

theorem refl [Renamable.Fixed α] (a : α) : Alike W a a :=
  fun π _ => (Renamable.Fixed.rename_eq π a).symm

/-- What has no variables is alike only if it is equal. -/
theorem eq_of_fixed [Renamable.Fixed α] (h : Alike W a a') : a' = a := by
  obtain ⟨π, -, ha⟩ := h.exists_renaming
  rw [ha, Renamable.Fixed.rename_eq]

theorem nil : Alike W ([] : List α) [] := fun _ _ => rfl

theorem cons (ha : Alike W a a') (hl : Alike W l m) : Alike W (a :: l) (a' :: m) :=
  ha.map₂ (fun _ _ _ _ => rfl) hl

theorem append (hl : Alike W l m) {l' m' : List α} (hl' : Alike W l' m') :
    Alike W (l ++ l') (m ++ m') :=
  hl.map₂ (fun π _ => rename_append π) hl'

theorem singleton (ha : Alike W a a') : Alike W [a] [a'] := ha.cons nil

theorem none : Alike W (none : Option α) none := fun _ _ => rfl

theorem some (ha : Alike W a a') : Alike W (some a) (some a') := ha.map fun _ _ _ => rfl

theorem pair (ha : Alike W a a') (hb : Alike W b b') : Alike W (a, b) (a', b') :=
  ha.map₂ (fun _ _ _ _ => rfl) hb

theorem fst {p q : α × β} (h : Alike W p q) : Alike W p.1 q.1 := h.map fun _ _ _ => rfl

theorem snd {p q : α × β} (h : Alike W p q) : Alike W p.2 q.2 := h.map fun _ _ _ => rfl

theorem option_cases {x y : Option α} (h : Alike W x y) :
    x = .none ∧ y = .none ∨ ∃ a a', x = .some a ∧ y = .some a' ∧ Alike W a a' := by
  obtain ⟨π, -, hy⟩ := h.exists_renaming
  cases x with
  | none => exact .inl ⟨rfl, hy⟩
  | some a =>
      refine .inr ⟨a, rename π a, rfl, hy, fun π' hπ' => ?_⟩
      exact Option.some.inj (hy.symm.trans (h π' hπ'))

theorem list_cases (h : Alike W l m) :
    l = [] ∧ m = [] ∨ ∃ a l' a' m', l = a :: l' ∧ m = a' :: m' ∧ Alike W a a' ∧ Alike W l' m' := by
  obtain ⟨π, -, hm⟩ := h.exists_renaming
  cases l with
  | nil => exact .inl ⟨rfl, hm⟩
  | cons a l =>
      refine .inr ⟨a, l, rename π a, rename π l, rfl, hm, fun π' hπ' => ?_, fun π' hπ' => ?_⟩
      · exact (List.cons.inj (hm.symm.trans (h π' hπ'))).1
      · exact (List.cons.inj (hm.symm.trans (h π' hπ'))).2

end Values

section Forms

variable {x y : Var} {a a' b b' : AffineForm} {c c' : Constraint}

theorem ofVar (h : Alike W x y) : Alike W (AffineForm.ofVar x) (.ofVar y) :=
  h.map fun π _ => AffineForm.rename_ofVar π

theorem const (c : Int) : Alike W (AffineForm.const c) (.const c) :=
  fun π _ => (AffineForm.rename_const π c).symm

theorem isConst_eq (h : Alike W a a') : a'.isConst = a.isConst := by
  obtain ⟨π, hπ, rfl⟩ := h.exists_renaming
  exact AffineForm.isConst_rename hπ a

theorem toConst?_eq (h : Alike W a a') : a'.toConst? = a.toConst? := by
  obtain ⟨π, hπ, rfl⟩ := h.exists_renaming
  exact AffineForm.toConst?_rename hπ a

end Forms

end Alike

/-- The outcomes of two runs from the given point: both are failures for the same reason, or both
are results that are alike at a later point. -/
inductive OutcomesAlike [Renamable α] (W : World s₀ t₀) :
    EStateM.Result Failure Session α → EStateM.Result Failure Session α → Prop
  | ok {a b : α} {s t : Session} (W' : World s₀ t₀) : W.Extends W' → s.supply = W'.left →
      t.supply = W'.right → Alike W' a b → OutcomesAlike W (.ok a s) (.ok b t)
  | error (e : Failure) (s t : Session) : OutcomesAlike W (.error e s) (.error e t)

theorem OutcomesAlike.earlier [Renamable α] {W₁ W₂ : World s₀ t₀} (hle : W₁.Extends W₂)
    {x y : EStateM.Result Failure Session α} (h : OutcomesAlike W₂ x y) : OutcomesAlike W₁ x y := by
  cases h with
  | ok W' hW' hs ht hab => exact .ok W' (hle.trans hW') hs ht hab
  | error e s t => exact .error e s t

namespace Lowering

/-- From supplies at the given point, the two computations run alike. -/
def Uniform [Renamable α] (W : World s₀ t₀) (c d : Lowering α) : Prop :=
  ∀ s t : Session, s.supply = W.left → t.supply = W.right → OutcomesAlike W (c s) (d t)

namespace Uniform

variable [Renamable α] [Renamable β] {c d : Lowering α}

theorem pure {a b : α} (h : Alike W a b) : Uniform W (pure a) (pure b) :=
  fun _ _ hs ht => .ok W (.refl W) hs ht h

theorem reject (reason : Rejection) : Uniform W (reject reason : Lowering α) (reject reason) :=
  fun s t _ _ => .error (.rejected reason) s t

theorem fault (f : Fault) : Uniform W (fault f : Lowering α) (fault f) :=
  fun s t _ _ => .error (.faulted f) s t

theorem bind {f g : α → Lowering β} (hc : Uniform W c d)
    (hf : ∀ W' a b, W.Extends W' → Alike W' a b → Uniform W' (f a) (g b)) :
    Uniform W (c >>= f) (d >>= g) := by
  intro s t hs ht
  have hcd := hc s t hs ht
  show OutcomesAlike W (EStateM.bind c f s) (EStateM.bind d g t)
  unfold EStateM.bind
  generalize c s = x at hcd
  generalize d t = y at hcd
  cases hcd with
  | ok W' hle hs' ht' hab => exact (hf W' _ _ hle hab _ _ hs' ht').earlier hle
  | error e s' t' => exact .error e s' t'

/-- A condition that only decides about the first of two steps. -/
theorem ite_bind {p : Prop} [Decidable p] {c₁ c₂ d₁ d₂ : Lowering α} {f g : α → Lowering β}
    (h₁ : Uniform W c₁ d₁) (h₂ : Uniform W c₂ d₂)
    (hf : ∀ W' a b, W.Extends W' → Alike W' a b → Uniform W' (f a) (g b)) :
    Uniform W (if p then c₁ >>= f else c₂ >>= f) (if p then d₁ >>= g else d₂ >>= g) := by
  split
  · exact h₁.bind hf
  · exact h₂.bind hf

/-- A question about the source has one answer, which may be a failure. -/
theorem ofExcept_bind {x : Except Fault γ} {f g : γ → Lowering β}
    (h : ∀ a, Uniform W (f a) (g a)) : Uniform W (ofExcept x >>= f) (ofExcept x >>= g) := by
  cases x with
  | ok a => exact h a
  | error e => exact fun s t _ _ => .error (.faulted e) s t

/-- Notes do not matter. -/
theorem tell_bind {n m : Note} (h : Uniform W c d) :
    Uniform W (tell n >>= fun _ => c) (tell m >>= fun _ => d) :=
  fun s t hs ht => h { s with notes := s.notes ++ [n] } { t with notes := t.notes ++ [m] } hs ht

theorem get_bind {f g : Session → Lowering β} (h : ∀ s t, Uniform W (f s) (g t)) :
    Uniform W (get >>= f) (get >>= g) :=
  fun s t hs ht => h s t s t hs ht

theorem onlyIf {condition : Except Fault Bool} {c d : Lowering (List β)} (h : Uniform W c d) :
    Uniform W (onlyIf condition c) (onlyIf condition d) := by
  refine ofExcept_bind fun wanted => ?_
  cases wanted with
  | true => exact h
  | false => exact pure .nil

theorem temporary (W : World s₀ t₀) : Uniform W temporary temporary := by
  intro s t hs ht
  refine .ok W.mintTemporary World.extends_mintTemporary ?_ ?_ ?_
  · exact congrArg VarSupply.mintTemporary hs
  · exact congrArg VarSupply.mintTemporary ht
  · rw [hs, ht]
    intro π hπ
    have htemps := hπ.temporaries
    simp only [World.mintTemporary, VarSupply.temporariesSince_mintTemporary W.left_extends,
      VarSupply.temporariesSince_mintTemporary W.right_extends, List.map_append] at htemps
    have hlast := (List.append_inj' htemps rfl).2
    exact (List.singleton_inj.1 hlast).symm

theorem request (W : World s₀ t₀) (r : Referent) (name : Option String) :
    Uniform W (request r name) (request r name) := by
  intro s t hs ht
  refine .ok (W.request r name) (World.extends_request r name) ?_ ?_ ?_
  · exact congrArg (fun s => (VarSupply.request s r name).2) hs
  · exact congrArg (fun s => (VarSupply.request s r name).2) ht
  · rw [hs, ht]
    intro π hπ
    exact (hπ.referents r _ _ (VarSupply.find?_request r name)
      (VarSupply.find?_request r name)).symm

theorem cellVariable (W : World s₀ t₀) (c : Cell) :
    Uniform W (cellVariable c) (cellVariable c) :=
  request W _ _

end Uniform

end Lowering

end AffineFlow
