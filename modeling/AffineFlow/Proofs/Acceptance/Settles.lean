import AffineFlow.Proofs.Outcome

/-!
# Computations with a settled outcome

What a lowering computation mints depends on the session that it starts from,
but often whether it fails, and how, does not. `Settles Q failure? c` says so of
`c`, and what is known about its result otherwise. Of two steps in a row, the
failure is that of the first one that fails.
-/
namespace AffineFlow

/-- The question has an answer. -/
def Answered {α : Type} (x : Except Fault α) : Prop := ∃ a, x = .ok a

namespace Answered

variable {α β : Type}

theorem ok (a : α) : Answered (.ok a) := ⟨a, rfl⟩

theorem map {x : Except Fault α} (hx : Answered x) (f : α → β) : Answered (x.map f) := by
  obtain ⟨a, rfl⟩ := hx
  exact .ok (f a)

theorem bind {x : Except Fault α} {f : α → Except Fault β} (hx : Answered x)
    (hf : ∀ a, Answered (f a)) : Answered (x >>= f) := by
  obtain ⟨a, rfl⟩ := hx
  exact hf a

theorem ite {p : Prop} [Decidable p] {x y : Except Fault α} (hx : Answered x) (hy : Answered y) :
    Answered (if p then x else y) := by
  split
  · exact hx
  · exact hy

theorem allM {f : β → Except Fault Bool} {l : List β} (hf : ∀ b ∈ l, Answered (f b)) :
    Answered (l.allM f) := by
  induction l with
  | nil => exact .ok true
  | cons b rest ih =>
      obtain ⟨hb, hrest⟩ := List.forall_mem_cons.1 hf
      rw [List.allM_cons]
      refine hb.bind fun holds => ?_
      cases holds with
      | true => exact ih hrest
      | false => exact .ok false

end Answered

/-- The question is answered with yes. -/
def isYes (x : Except Fault Bool) : Bool := x matches .ok true

theorem isYes_of_eq {x : Except Fault Bool} {b : Bool} (hx : x = .ok b) : isYes x = b := by
  subst hx
  cases b <;> rfl

theorem isYes_iff {x : Except Fault Bool} : isYes x = true ↔ x = .ok true := by
  constructor
  · intro h
    unfold isYes at h
    split at h
    next => rfl
    next => cases h
  · exact isYes_of_eq

/-- A first question has been answered with yes if two in a row have. -/
theorem yes_of_both {x y : Except Fault Bool}
    (h : (do if ← x then y else return false) = .ok true) : x = .ok true ∧ y = .ok true := by
  cases x with
  | error f => cases h
  | ok b =>
      cases b with
      | true => exact ⟨rfl, h⟩
      | false => cases h

namespace Lowering

variable {α β : Type} {Q Q' : α → Prop} {R : β → Prop} {o o' : Option Failure}
  {c : Lowering α} {f : α → Lowering β} {s s' : Session}

/-- From every session, the computation ends with the failure if there is one, and else well with a
result that has the property. -/
def Settles (Q : α → Prop) (failure? : Option Failure) (c : Lowering α) : Prop :=
  ∀ s, match c s with
    | .ok a _ => failure? = none ∧ Q a
    | .error e _ => failure? = some e

namespace Settles

theorem ok_iff (h : Settles Q o c) (s : Session) : (∃ a s', Yields c s a s') ↔ o = none := by
  have hs := h s
  constructor
  · intro hok
    obtain ⟨a, s', ha⟩ := hok
    rw [show c s = .ok a s' from ha] at hs
    exact hs.1
  · intro ho
    cases hc : c s with
    | ok a s' => exact ⟨a, s', hc⟩
    | error e s' =>
        rw [hc, ho] at hs
        cases hs

theorem error_iff (h : Settles Q o c) (s : Session) {e : Failure} :
    (∃ s', c s = .error e s') ↔ o = some e := by
  have hs := h s
  constructor
  · intro herror
    obtain ⟨s', he⟩ := herror
    rw [he] at hs
    exact hs
  · intro ho
    cases hc : c s with
    | ok a s' =>
        rw [hc, ho] at hs
        cases hs.1
    | error e' s' =>
        rw [hc, ho] at hs
        obtain rfl := Option.some.inj hs
        exact ⟨s', rfl⟩

theorem imp (h : Settles Q o c) (hq : ∀ a, Q a → Q' a) : Settles Q' o c := by
  intro s
  have hs := h s
  cases hc : c s with
  | ok a s' =>
      rw [hc] at hs
      exact ⟨hs.1, hq a hs.2⟩
  | error e s' =>
      rw [hc] at hs
      exact hs

/-- What is known about every result is known here too. -/
theorem ensures {R : α → Prop} (h : Settles Q o c) (hc : Ensures R c) :
    Settles (fun a => Q a ∧ R a) o c := by
  intro s
  have hs := h s
  cases hr : c s with
  | ok a s' =>
      rw [hr] at hs
      exact ⟨hs.1, hs.2, hc s a s' hr⟩
  | error e s' =>
      rw [hr] at hs
      exact hs

theorem pure {a : α} (ha : Q a) : Settles Q none (pure a) := fun _ => ⟨rfl, ha⟩

theorem reject (reason : Rejection) :
    Settles Q (some (.rejected reason)) (reject reason) := fun _ => rfl

theorem fault (f : Fault) : Settles Q (some (.faulted f)) (fault f) := fun _ => rfl

/-- A question whose answer is known. -/
theorem ask {x : Except Fault β} {b : β} {f : β → Lowering α} (hx : x = .ok b)
    (hf : Settles Q o (f b)) : Settles Q o (ofExcept x >>= f) := by
  subst hx
  exact hf

/-- The second step only counts if the first one ends well. -/
theorem bind (hc : Settles Q o c) (hf : ∀ a, Q a → Settles R o' (f a)) :
    Settles R (o.or o') (c >>= f) := by
  intro s
  have hs := hc s
  show match EStateM.bind c f s with
    | .ok b _ => o.or o' = none ∧ R b
    | .error e _ => o.or o' = some e
  unfold EStateM.bind
  cases h : c s with
  | ok a s' =>
      rw [h] at hs
      obtain ⟨rfl, ha⟩ := hs
      exact hf a ha s'
  | error e s' =>
      rw [h] at hs
      rw [hs]
      rfl

/-- A first step that ends well. -/
theorem after (hc : Settles Q none c) (hf : ∀ a, Q a → Settles R o (f a)) :
    Settles R o (c >>= f) := by
  have h := hc.bind hf
  rwa [Option.none_or] at h

/-- A second step that ends well. -/
theorem finish (hc : Settles Q o c) (hf : ∀ a, Q a → Settles R none (f a)) :
    Settles R o (c >>= f) := by
  have h := hc.bind hf
  rwa [Option.or_none] at h

theorem onlyIf {code : Lowering (List β)} {condition : Except Fault Bool} {b : Bool}
    {Q : List β → Prop} (hb : condition = .ok b) (hnil : b = false → Q [])
    (hcode : b = true → Settles Q o code) :
    Settles Q (if b then o else none) (onlyIf condition code) := by
  refine ask hb ?_
  cases b with
  | true => exact hcode rfl
  | false => exact .pure (hnil rfl)

end Settles

/-- From every session, the computation ends well. -/
def Safe (c : Lowering α) : Prop := Settles (fun _ => True) none c

theorem Settles.safe (h : Settles Q none c) : Safe c := h.imp fun _ _ => trivial

namespace Safe

theorem pure (a : α) : Safe (pure a) := Settles.pure trivial

theorem bind (hc : Safe c) (hf : ∀ a, Safe (f a)) : Safe (c >>= f) := hc.after fun a _ => hf a

/-- What follows a step that ends well. -/
theorem andThen (hc : Safe c) (hf : ∀ a, Settles R o (f a)) : Settles R o (c >>= f) :=
  hc.after fun a _ => hf a

theorem ask {x : Except Fault β} {b : β} {f : β → Lowering α} (hx : x = .ok b)
    (hf : Safe (f b)) : Safe (ofExcept x >>= f) := Settles.ask hx hf

theorem onlyIf {code : Lowering (List β)} {condition : Except Fault Bool} {b : Bool}
    (hb : condition = .ok b) (hcode : b = true → Safe code) : Safe (onlyIf condition code) := by
  have h := Settles.onlyIf hb (fun _ => trivial) hcode
  rwa [ite_self] at h

/-- A condition that only decides about the first of two steps. -/
theorem ite_bind {p : Prop} [Decidable p] {c d : Lowering α} {f : α → Lowering β} (hc : Safe c)
    (hd : Safe d) (hf : ∀ a, Safe (f a)) : Safe (if p then c >>= f else d >>= f) := by
  split
  · exact hc.bind hf
  · exact hd.bind hf

theorem tell (n : Note) : Safe (tell n) := fun _ => ⟨rfl, trivial⟩

theorem temporary : Safe temporary := fun _ => ⟨rfl, trivial⟩

theorem request (r : Referent) (name : Option String) : Safe (request r name) :=
  fun _ => ⟨rfl, trivial⟩

end Safe

theorem cellVariable_safe (c : Cell) : Safe (cellVariable c) := .request _ _

/-- The first failure of a list of steps. -/
theorem findSome?_cons_or {γ : Type} (g : γ → Option Failure) (x : γ) (l : List γ) :
    (x :: l).findSome? g = (g x).or (l.findSome? g) := by
  rw [List.findSome?_cons]
  cases g x <;> rfl

end Lowering

end AffineFlow
