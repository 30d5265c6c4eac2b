import AffineFlow.Lowering.Basic

/-!
# Outcomes of computations

`Yields c s a s'` says that a computation started in `s` ends well, with result
`a` in state `s'`. There is one equation per way of building a computation, so a
run of a compound computation is taken apart into the runs of its parts, and put
together from them, without looking at how failures travel.
-/
namespace AffineFlow

variable {ε σ α β : Type}

def Yields (c : EStateM ε σ α) (s : σ) (a : α) (s' : σ) : Prop := c s = .ok a s'

theorem yields_bind {c : EStateM ε σ α} {f : α → EStateM ε σ β} {s s'' : σ} {b : β} :
    Yields (c >>= f) s b s'' ↔ ∃ a s', Yields c s a s' ∧ Yields (f a) s' b s'' := by
  show EStateM.bind c f s = _ ↔ _
  unfold EStateM.bind Yields
  cases c s with
  | ok a s' =>
      constructor
      · intro h
        exact ⟨a, s', rfl, h⟩
      · intro hparts
        obtain ⟨_, _, h, k⟩ := hparts
        cases h
        exact k
  | error e s' => simp

/-- A condition that only decides about the first of two steps. -/
theorem yields_ite_bind {p : Prop} [Decidable p] {c d : EStateM ε σ α} {f : α → EStateM ε σ β}
    {s s'' : σ} {b : β} : Yields (if p then c >>= f else d >>= f) s b s'' ↔
      ∃ a s', Yields (if p then c else d) s a s' ∧ Yields (f a) s' b s'' := by
  split
  · exact yields_bind
  · exact yields_bind

@[simp] theorem yields_pure {a b : α} {s s' : σ} :
    Yields (pure a : EStateM ε σ α) s b s' ↔ b = a ∧ s' = s := by
  show EStateM.Result.ok a s = .ok b s' ↔ _
  simp [eq_comm]

@[simp] theorem not_yields_throw {e : ε} {a : α} {s s' : σ} :
    ¬Yields (throw e : EStateM ε σ α) s a s' := by
  show ¬EStateM.Result.error e s = .ok a s'
  simp

@[simp] theorem yields_get {s t s' : σ} :
    Yields (get : EStateM ε σ σ) s t s' ↔ t = s ∧ s' = s := by
  show EStateM.Result.ok s s = .ok t s' ↔ _
  simp [eq_comm]

/-- What a computation ends with can be found out by carrying it out. -/
theorem exists_of_check {c : EStateM ε σ α} {s : σ} {p : α → σ → Prop} [∀ a t, Decidable (p a t)]
    (h : (match c s with | .ok a s' => decide (p a s') | .error _ _ => false) = true) :
    ∃ a s', Yields c s a s' ∧ p a s' := by
  unfold Yields
  cases hc : c s with
  | ok a s' =>
      rw [hc] at h
      exact ⟨a, s', rfl, of_decide_eq_true h⟩
  | error e s' =>
      rw [hc] at h
      cases h

/-- Whether a computation ends well can be found out by carrying it out. -/
theorem exists_of_endsWell {c : EStateM ε σ α} {s : σ}
    (h : (match c s with | .ok _ _ => true | .error _ _ => false) = true) :
    ∃ a s', Yields c s a s' := by
  have hcheck : ∃ a s', Yields c s a s' ∧ True := exists_of_check h
  obtain ⟨a, s', hyields, -⟩ := hcheck
  exact ⟨a, s', hyields⟩

namespace Noted

@[simp] theorem yields_tell {n : Note} {s s' : List Note} {u : Unit} :
    Yields (tell n : Noted ε Unit) s u s' ↔ s' = s ++ [n] := by
  show EStateM.Result.ok () (s ++ [n]) = .ok u s' ↔ _
  simp [eq_comm]

@[simp] theorem yields_tellAll {ns s s' : List Note} {u : Unit} :
    Yields (tellAll ns : Noted ε Unit) s u s' ↔ s' = s ++ ns := by
  show EStateM.Result.ok () (s ++ ns) = .ok u s' ↔ _
  simp [eq_comm]

@[simp] theorem yields_ofExcept {x : Except ε α} {a : α} {s s' : List Note} :
    Yields (ofExcept x) s a s' ↔ x = .ok a ∧ s' = s := by
  cases x with
  | ok b => simp [ofExcept, eq_comm]
  | error e => simp [ofExcept]

end Noted

namespace Lowering

variable {s s' : Session}

@[simp] theorem yields_tell {n : Note} {u : Unit} :
    Yields (tell n) s u s' ↔ s' = { s with notes := s.notes ++ [n] } := by
  show EStateM.Result.ok () { s with notes := s.notes ++ [n] } = .ok u s' ↔ _
  simp [eq_comm]

@[simp] theorem not_yields_reject {reason : Rejection} {a : α} :
    ¬Yields (reject reason) s a s' :=
  not_yields_throw

@[simp] theorem not_yields_fault {f : Fault} {a : α} : ¬Yields (fault f) s a s' :=
  not_yields_throw

@[simp] theorem yields_ofExcept {x : Except Fault α} {a : α} :
    Yields (ofExcept x) s a s' ↔ x = .ok a ∧ s' = s := by
  cases x with
  | ok b => simp [ofExcept, eq_comm]
  | error e => simp [ofExcept]

theorem yields_temporary {v : Var} : Yields temporary s v s' ↔
    v = s.supply.next ∧ s' = { s with supply := s.supply.mintTemporary } := by
  show EStateM.Result.ok s.supply.next { s with supply := s.supply.mintTemporary } = .ok v s' ↔ _
  simp [eq_comm]

theorem yields_request {r : Referent} {name : Option String} {v : Var} :
    Yields (request r name) s v s' ↔ v = (s.supply.request r name).1 ∧
      s' = { s with supply := (s.supply.request r name).2 } := by
  show EStateM.Result.ok (s.supply.request r name).1
    { s with supply := (s.supply.request r name).2 } = .ok v s' ↔ _
  simp [eq_comm]

theorem yields_onlyIf {condition : Except Fault Bool} {code : Lowering (List β)} {l : List β} :
    Yields (onlyIf condition code) s l s' ↔
      condition = .ok true ∧ Yields code s l s' ∨ condition = .ok false ∧ l = [] ∧ s' = s := by
  simp only [onlyIf, yields_bind, yields_ofExcept]
  constructor
  · intro hparts
    obtain ⟨b, s₁, ⟨hc, rfl⟩, h⟩ := hparts
    cases b with
    | true => exact .inl ⟨hc, h⟩
    | false => exact .inr ⟨hc, by simpa using h⟩
  · rintro (⟨hc, h⟩ | ⟨hc, rfl, rfl⟩)
    · exact ⟨true, s, ⟨hc, rfl⟩, h⟩
    · exact ⟨false, s', ⟨hc, rfl⟩, by simp⟩

theorem yields_ofNoted {c : Noted Dangling α} {a : α} :
    Yields (ofNoted c) s a s' ↔ ∃ notes, Yields c s.notes a notes ∧ s' = { s with notes } := by
  unfold Yields ofNoted
  cases c s.notes with
  | ok b notes =>
      simp only [EStateM.Result.ok.injEq]
      constructor
      · intro h
        obtain ⟨rfl, rfl⟩ := h
        exact ⟨notes, ⟨rfl, rfl⟩, rfl⟩
      · intro h
        obtain ⟨notes', ⟨rfl, rfl⟩, rfl⟩ := h
        exact ⟨rfl, rfl⟩
  | error e notes => simp

/-- Whenever the computation ends well, its result has the property. -/
def Ensures (Q : α → Prop) (c : Lowering α) : Prop := ∀ s a s', Yields c s a s' → Q a

namespace Ensures

variable {β : Type} {Q : α → Prop} {R : β → Prop}

theorem pure {a : α} (ha : Q a) : Ensures Q (pure a) := by
  intro s b s' h
  obtain ⟨rfl, -⟩ := yields_pure.1 h
  exact ha

theorem reject (reason : Rejection) : Ensures Q (reject reason) :=
  fun _ _ _ h => absurd h not_yields_reject

theorem fault (f : Fault) : Ensures Q (fault f) := fun _ _ _ h => absurd h not_yields_fault

/-- The second part may rely on what the first part ensures. -/
theorem bind {c : Lowering β} {f : β → Lowering α} (hc : Ensures R c)
    (hf : ∀ b, R b → Ensures Q (f b)) : Ensures Q (c >>= f) := by
  intro s a s'' h
  obtain ⟨b, s', hcb, hfb⟩ := yields_bind.1 h
  exact hf b (hc s b s' hcb) s' a s'' hfb

theorem after {c : Lowering β} {f : β → Lowering α} (hf : ∀ b, Ensures Q (f b)) :
    Ensures Q (c >>= f) := by
  intro s a s'' h
  obtain ⟨b, s', -, hfb⟩ := yields_bind.1 h
  exact hf b s' a s'' hfb

/-- Continuations matter only on results that come up. -/
theorem bind_congr {c : Lowering β} {f g : β → Lowering α} (hc : Ensures R c)
    (h : ∀ b, R b → f b = g b) : c >>= f = c >>= g := by
  funext s
  show EStateM.bind c f s = EStateM.bind c g s
  unfold EStateM.bind
  cases hcs : c s with
  | ok b s' => exact congrFun (h b (hc s b s' hcs)) s'
  | error e s' => rfl

theorem onlyIf {Q : List β → Prop} {condition : Except Fault Bool} {code : Lowering (List β)}
    (hnil : Q []) (hc : Ensures Q code) : Ensures Q (onlyIf condition code) := by
  intro s l s' h
  rcases yields_onlyIf.1 h with ⟨-, h⟩ | ⟨-, rfl, -⟩
  · exact hc s l s' h
  · exact hnil

end Ensures

end Lowering

end AffineFlow
