import AffineFlow.Proofs.Outcome
import Mathlib.Data.List.Nodup

/-!
# Growing supplies

A supply only grows: variables are added, and what has a variable keeps it. The
variable of a referent is either as old as the referent's first mention or newer
than everything minted before, so a temporary never becomes the variable of
anything. A computation that mints through the supply only makes it grow.
-/
namespace AffineFlow

namespace VarSupply

variable {s s' s'' : VarSupply} {r r' : Referent} {v : Var}

theorem mem_of_find? (h : s.find? r = some v) : (r, v) ∈ s.bound := by
  obtain ⟨l₁, l₂, he, -⟩ := List.lookup_eq_some_iff.1 h
  rw [he]
  exact List.mem_append_right _ List.mem_cons_self

theorem find?_lt (h : s.find? r = some v) : v.id < s.size :=
  s.bound_lt _ (mem_of_find? h)

/-- No variable stands for two things. -/
theorem find?_injective (h : s.find? r = some v) (h' : s.find? r' = some v) : r = r' := by
  have he := List.inj_on_of_nodup_map s.bound_nodup (mem_of_find? h) (mem_of_find? h') rfl
  exact (Prod.mk.inj he).1

/-- The variable stands for nothing in the source. -/
def Spare (s : VarSupply) (v : Var) : Prop := ∀ r, s.find? r ≠ some v

/-- The later supply has every variable of the earlier one, for the same referent. -/
structure Extends (s s' : VarSupply) : Prop where
  size_le : s.size ≤ s'.size
  keeps : ∀ r v, s.find? r = some v → s'.find? r = some v
  new : ∀ r v, s'.find? r = some v → s.find? r = some v ∨ s.size ≤ v.id

namespace Extends

theorem refl (s : VarSupply) : s.Extends s := ⟨Nat.le_refl _, fun _ _ h => h, fun _ _ h => .inl h⟩

theorem trans (h : s.Extends s') (h' : s'.Extends s'') : s.Extends s'' := by
  refine ⟨Nat.le_trans h.size_le h'.size_le, fun r v hv => h'.keeps r v (h.keeps r v hv), ?_⟩
  intro r v hv
  rcases h'.new r v hv with hv | hv
  · exact h.new r v hv
  · exact .inr (Nat.le_trans h.size_le hv)

end Extends

theorem size_mint (name : String) : (s.mint name).size = s.size + 1 := by
  simp [size, mint]

theorem extends_mintTemporary : s.Extends s.mintTemporary := by
  refine ⟨?_, fun _ _ h => h, fun _ _ h => .inl h⟩
  rw [mintTemporary, size_mint]
  exact Nat.le_succ _

/-- A temporary is the variable of nothing, then or later. -/
theorem spare_next (h : s.mintTemporary.Extends s') : s'.Spare s.next := by
  intro r hr
  have hsize : s.mintTemporary.size = s.size + 1 := size_mint _
  rcases h.new r _ hr with hold | hnew
  · have : s.size < s.size := find?_lt (s := s) hold
    omega
  · have : s.mintTemporary.size ≤ s.size := hnew
    omega

theorem find?_mintFor (name : Option String) :
    (s.mintFor r name).find? r' = if r' = r then some s.next else s.find? r' := by
  simp only [find?, mintFor, List.lookup_cons]
  by_cases he : r' = r
  · simp [he]
  · simp [he, beq_eq_false_iff_ne.2 he]

theorem find?_request (r : Referent) (name : Option String) :
    (s.request r name).2.find? r = some (s.request r name).1 := by
  unfold request
  split
  next v hv => exact hv
  next => simp [find?_mintFor]

theorem extends_request (r : Referent) (name : Option String) :
    s.Extends (s.request r name).2 := by
  unfold request
  split
  next => exact .refl s
  next hnone =>
    refine ⟨?_, fun r' v hv => ?_, fun r' v hv => ?_⟩
    · simp [size, mintFor, mint]
    · have hne : r' ≠ r := by
        intro he
        subst he
        cases hnone.symm.trans hv
      rw [find?_mintFor, if_neg hne, hv]
    · rw [find?_mintFor] at hv
      split at hv
      next =>
        obtain rfl := Option.some.inj hv
        exact .inr (Nat.le_refl _)
      next => exact .inl hv

end VarSupply

namespace Lowering

variable {α β : Type}

/-- Whenever the computation ends well, the supply has grown. -/
def Grows (c : Lowering α) : Prop :=
  ∀ s a s', Yields c s a s' → s.supply.Extends s'.supply

namespace Grows

theorem pure (a : α) : Grows (pure a) := by
  intro s b s' h
  obtain ⟨-, rfl⟩ := yields_pure.1 h
  exact .refl _

theorem bind {c : Lowering α} {f : α → Lowering β} (hc : Grows c) (hf : ∀ a, Grows (f a)) :
    Grows (c >>= f) := by
  intro s b s'' h
  obtain ⟨a, s', hca, hfa⟩ := yields_bind.1 h
  exact (hc s a s' hca).trans (hf a s' b s'' hfa)

theorem tell (n : Note) : Grows (tell n) := by
  intro s u s' h
  rw [yields_tell.1 h]
  exact .refl _

theorem reject (reason : Rejection) : Grows (reject reason : Lowering α) :=
  fun _ _ _ h => absurd h not_yields_reject

theorem fault (f : Fault) : Grows (fault f : Lowering α) :=
  fun _ _ _ h => absurd h not_yields_fault

theorem ofExcept (x : Except Fault α) : Grows (ofExcept x) := by
  intro s a s' h
  obtain ⟨-, rfl⟩ := yields_ofExcept.1 h
  exact .refl _

theorem temporary : Grows temporary := by
  intro s v s' h
  obtain ⟨-, rfl⟩ := yields_temporary.1 h
  exact VarSupply.extends_mintTemporary

theorem request (r : Referent) (name : Option String) : Grows (request r name) := by
  intro s v s' h
  obtain ⟨-, rfl⟩ := yields_request.1 h
  exact VarSupply.extends_request r name

theorem onlyIf {condition : Except Fault Bool} {code : Lowering (List β)} (hc : Grows code) :
    Grows (onlyIf condition code) := by
  intro s l s' h
  rcases yields_onlyIf.1 h with ⟨-, h⟩ | ⟨-, -, rfl⟩
  · exact hc s l s' h
  · exact .refl _

end Grows

theorem cellVariable_grows (c : Cell) : Grows (cellVariable c) := .request _ _

/-- The variable of a referent, in the supply at hand and in all later ones. -/
theorem request_spec {r : Referent} {name : Option String} {s s' : Session} {v : Var}
    (h : Yields (request r name) s v s') : s'.supply.find? r = some v := by
  obtain ⟨rfl, rfl⟩ := yields_request.1 h
  exact VarSupply.find?_request r name

variable {F : VarSupply} {s s' : Session} {v : Var}

theorem temporary_spec (h : Yields temporary s v s') (hF : s'.supply.Extends F) : F.Spare v := by
  obtain ⟨rfl, rfl⟩ := yields_temporary.1 h
  exact VarSupply.spare_next hF

theorem cellVariable_spec {c : Cell} (h : Yields (cellVariable c) s v s')
    (hF : s'.supply.Extends F) : F.find? (.cell c) = some v :=
  hF.keeps _ _ (request_spec h)

end Lowering

end AffineFlow
