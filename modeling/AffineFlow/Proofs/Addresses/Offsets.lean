import AffineFlow.Proofs.Acceptance.Defects
import Mathlib.Algebra.Ring.Int.Defs
import Mathlib.Data.List.Infix

/-!
# Where an address points

The distance of an address from its base, as the layout has it: a whole number of
objects for the first index, then one offset per index on the way down into the
type. The steps that the address computation is split into add up to this
distance, and the known ones are the offsets of the fields and the constants.
-/
namespace AffineFlow

open Ssa Lowering

/-- The number that a literal is, if it fits in 64 bits. -/
def Ssa.Value.number? (v : Value) : Option Int := v.toInt?.bind fit64

namespace Ssa.DataLayout

variable (dl : DataLayout) (count : Value → Int)

/-- The distance from an object to the part of it that the indices select, where `count` tells what
indices into arrays stand for. -/
def partOffset : Ty → List Value → Int
  | _, [] => 0
  | .struct fields, index :: rest =>
      match fieldIndex? index fields.length with
      | some field =>
          dl.fieldOffset fields field + partOffset (fields.getD field .blackbox) rest
      | none => 0
  | .array elem _, index :: rest => count index * dl.allocSize elem + partOffset elem rest
  | _, _ :: _ => 0

/-- The distance of an address from its base. -/
def addressOffset (sourceTy : Ty) : List Value → Int
  | [] => 0
  | first :: rest => count first * dl.allocSize sourceTy + dl.partOffset count sourceTy rest

/-- What a constant index over elements of a size adds. -/
def constantBytes (index : Value) (size : Nat) : List Int :=
  (index.number?.map fun n => n * (size : Int)).toList

/-- What fields and constant indices add on the way down into an object. -/
def partConstants : Ty → List Value → List Int
  | _, [] => []
  | .struct fields, index :: rest =>
      match fieldIndex? index fields.length with
      | some field =>
          dl.fieldOffset fields field :: partConstants (fields.getD field .blackbox) rest
      | none => []
  | .array elem _, index :: rest =>
      constantBytes index (dl.allocSize elem) ++ partConstants elem rest
  | _, _ :: _ => []

/-- The constant offsets of an address, in the order of the indices. -/
def addressConstants (sourceTy : Ty) : List Value → List Int
  | [] => []
  | first :: rest =>
      constantBytes first (dl.allocSize sourceTy) ++ dl.partConstants sourceTy rest

end Ssa.DataLayout

open Ssa.DataLayout

theorem fit128_eq_of_isSome {n : Int} (h : (fit128 n).isSome) : fit128 n = some n := by
  unfold fit128 at h ⊢
  split at h
  next hn => exact if_pos hn
  next => cases h

/-- Every number of the list and every sum of the first ones fits in 128 bits. -/
def AddUp128 (l : List Int) : Prop :=
  (∀ n ∈ l, (fit128 n).isSome) ∧ ∀ part ∈ l.inits, (fit128 part.sum).isSome

instance (l : List Int) : Decidable (AddUp128 l) :=
  inferInstanceAs (Decidable ((∀ n ∈ l, (fit128 n).isSome) ∧
    ∀ part ∈ l.inits, (fit128 part.sum).isSome))

namespace IndexStep

variable {count count' : Value → Int} {steps : List IndexStep} {index : Value} {size : Nat}
  {n : Int}

def known? : IndexStep → Option Int
  | offset bytes => some bytes
  | scaled _ _ => none

@[simp] theorem filterMap_known?_offset (n : Int) (steps : List IndexStep) :
    (offset n :: steps).filterMap known? = n :: steps.filterMap known? := rfl

@[simp] theorem filterMap_known?_scaled (index : Value) (size : Nat) (steps : List IndexStep) :
    (scaled index size :: steps).filterMap known? = steps.filterMap known? := rfl

/-- The number of bytes that the step adds. -/
def bytes (count : Value → Int) : IndexStep → Int
  | offset bytes => bytes
  | scaled index size => count index * size

/-- What the steps add that are not known. -/
def scaledBytes (count : Value → Int) : List IndexStep → Int
  | [] => 0
  | offset _ :: rest => scaledBytes count rest
  | scaled index size :: rest => count index * size + scaledBytes count rest

theorem ofIndex_of_number (hn : index.number? = some n) (hfit : (fit128 (n * size)).isSome) :
    ofIndex index size = offset (n * size) := by
  unfold ofIndex
  rw [show index.toInt?.bind fit64 = some n from hn, Option.bind_some, fit128_eq_of_isSome hfit]

theorem ofIndex_of_none (hn : index.number? = none) : ofIndex index size = scaled index size := by
  unfold ofIndex
  rw [show index.toInt?.bind fit64 = none from hn]
  rfl

/-- All steps together add what is known and what is not. -/
theorem sum_bytes (count : Value → Int) (steps : List IndexStep) :
    (steps.map (bytes count)).sum = (steps.filterMap known?).sum + scaledBytes count steps := by
  induction steps with
  | nil => rfl
  | cons step rest ih =>
      rw [List.map_cons, List.sum_cons, ih]
      cases step with
      | offset n =>
          rw [filterMap_known?_offset, List.sum_cons, bytes, scaledBytes]
          omega
      | scaled index size =>
          rw [filterMap_known?_scaled, bytes, scaledBytes]
          omega

theorem scaledBytes_congr
    (h : ∀ index size, scaled index size ∈ steps → count index = count' index) :
    scaledBytes count steps = scaledBytes count' steps := by
  induction steps with
  | nil => rfl
  | cons step rest ih =>
      have hrest := ih fun index size hm => h index size (.tail _ hm)
      cases step with
      | offset n => exact hrest
      | scaled index size => rw [scaledBytes, scaledBytes, h index size (.head _), hrest]

theorem scaledBytes_of_known (h : steps.all (·.isKnown) = true) : scaledBytes count steps = 0 := by
  induction steps with
  | nil => rfl
  | cons step rest ih =>
      obtain ⟨hstep, hrest⟩ := Bool.and_eq_true_iff.1 ((List.all_cons ..).symm.trans h)
      cases step with
      | offset n => exact ih hrest
      | scaled index size => cases hstep

end IndexStep

open IndexStep

/-- The known offsets are summed up if no sum on the way is too large. -/
theorem knownOffset_eq {steps : List IndexStep} {acc : Int}
    (h : ∀ part ∈ (steps.filterMap known?).inits, (fit128 (acc + part.sum)).isSome) :
    knownOffset acc steps = some (acc + (steps.filterMap known?).sum) := by
  induction steps generalizing acc with
  | nil => simp [knownOffset]
  | cons step rest ih =>
      cases step with
      | offset n =>
          rw [filterMap_known?_offset, List.inits_cons] at h
          obtain ⟨-, hrest⟩ := List.forall_mem_cons.1 h
          rw [List.forall_mem_map] at hrest
          have hfirst : fit128 (acc + n) = some (acc + n) := by
            have hn := hrest [] ((List.mem_inits _ _).2 List.nil_prefix)
            rw [List.sum_singleton] at hn
            exact fit128_eq_of_isSome hn
          have hsum := ih fun part hpart => by
            have hp := hrest part hpart
            rwa [List.sum_cons, ← Int.add_assoc] at hp
          simp only [knownOffset, hfirst]
          rw [hsum, filterMap_known?_offset, List.sum_cons, Int.add_assoc]
      | scaled index size =>
          rw [filterMap_known?_scaled] at h ⊢
          exact ih h

/-- Constants count as the numbers that they are. -/
def CountsNumbers (count : Value → Int) : Prop := ∀ v n, v.number? = some n → count v = n

/-- The steps add the constants and, all together, the distance; those that are not known are of
indices that are no constants. -/
structure Walks (steps : List IndexStep) (indices : List Value) (constants : List Int)
    (distance : (Value → Int) → Int) : Prop where
  known : steps.filterMap known? = constants
  total : ∀ count, CountsNumbers count → (steps.map (bytes count)).sum = distance count
  scaled : ∀ index size, .scaled index size ∈ steps → index ∈ indices ∧ index.number? = none

namespace Walks

variable {steps : List IndexStep} {indices : List Value} {constants : List Int}
  {distance : (Value → Int) → Int}

theorem nil : Walks [] [] [] fun _ => 0 := ⟨rfl, fun _ _ => rfl, fun _ _ hm => nomatch hm⟩

/-- A step to a field. -/
theorem field (h : Walks steps indices constants distance) (index : Value) (n : Int) :
    Walks (.offset n :: steps) (index :: indices) (n :: constants)
      fun count => n + distance count where
  known := by rw [filterMap_known?_offset, h.known]
  total count hcount := by rw [List.map_cons, List.sum_cons, h.total count hcount, bytes]
  scaled v size hm := by
    obtain ⟨hv, hnone⟩ := h.scaled v size (by simpa using hm)
    exact ⟨.tail _ hv, hnone⟩

/-- A step over elements. -/
theorem index (h : Walks steps indices constants distance) {v : Value} {size : Nat}
    (hfit : ∀ n ∈ constantBytes v size, (fit128 n).isSome) :
    Walks (.ofIndex v size :: steps) (v :: indices) (constantBytes v size ++ constants)
      fun count => count v * size + distance count := by
  cases hn : v.number? with
  | some n =>
      have hconstant : constantBytes v size = [n * size] := by rw [constantBytes, hn]; rfl
      rw [hconstant] at hfit ⊢
      rw [ofIndex_of_number hn (hfit _ (.head _))]
      have hstep := h.field v (n * size)
      exact ⟨hstep.known, fun count hcount => by rw [hstep.total count hcount, hcount v n hn],
        hstep.scaled⟩
  | none =>
      have hconstant : constantBytes v size = [] := by rw [constantBytes, hn]; rfl
      rw [hconstant, ofIndex_of_none hn]
      refine ⟨by rw [filterMap_known?_scaled, h.known, List.nil_append], ?_, ?_⟩
      · intro count hcount
        rw [List.map_cons, List.sum_cons, h.total count hcount, bytes]
      · intro w size' hm
        rcases List.mem_cons.1 hm with he | hm
        · cases he
          exact ⟨.head _, hn⟩
        · obtain ⟨hw, hnone⟩ := h.scaled w size' hm
          exact ⟨.tail _ hw, hnone⟩

end Walks

namespace Scope

variable {sc : Scope} {sourceTy : Ty} {indices : List Value}

/-- Indices that fit the type descend in steps that lead to the part. -/
theorem descend_walks (id : InstId)
    (hfits : sourceTy.misfit? (indices.map sc.beneathExtension) = none)
    (hfit : ∀ n ∈ sc.program.layout.partConstants sourceTy (indices.map sc.beneathExtension),
      (fit128 n).isSome) :
    ∃ steps, sc.descend id sourceTy indices = .ok steps ∧
      Walks steps (indices.map sc.beneathExtension)
        (sc.program.layout.partConstants sourceTy (indices.map sc.beneathExtension))
        fun count =>
          sc.program.layout.partOffset count sourceTy (indices.map sc.beneathExtension) := by
  induction indices generalizing sourceTy with
  | nil =>
      refine ⟨[], by unfold descend; rfl, ?_⟩
      simp only [List.map_nil, partConstants, partOffset]
      exact .nil
  | cons index rest ih =>
      rw [List.map_cons] at hfits hfit ⊢
      cases sourceTy with
      | struct fields =>
          simp only [Ty.misfit?] at hfits
          simp only [partConstants] at hfit ⊢
          simp only [descend, partOffset]
          cases hfield : fieldIndex? (sc.beneathExtension index) fields.length with
          | none =>
              rw [hfield] at hfits
              cases hfits
          | some field =>
              rw [hfield] at hfits hfit
              obtain ⟨-, hrest⟩ := List.forall_mem_cons.1 hfit
              obtain ⟨steps, hsteps, hwalks⟩ := ih hfits hrest
              simp only [hsteps]
              exact ⟨_, rfl, hwalks.field _ _⟩
      | array elem len =>
          simp only [Ty.misfit?] at hfits
          simp only [partConstants] at hfit ⊢
          simp only [descend, partOffset]
          obtain ⟨hfirst, hrest⟩ := List.forall_mem_append.1 hfit
          obtain ⟨steps, hsteps, hwalks⟩ := ih hfits hrest
          simp only [hsteps]
          exact ⟨_, rfl, hwalks.index hfirst⟩
      | void => simp [Ty.misfit?] at hfits
      | int bits => simp [Ty.misfit?] at hfits
      | float bits => simp [Ty.misfit?] at hfits
      | ptr => simp [Ty.misfit?] at hfits
      | blackbox => simp [Ty.misfit?] at hfits

/-- The steps of an address whose indices fit lead to where it points, and nothing is minted for
them. They are found unless the type cannot be measured. -/
theorem indexSteps_walks (id : InstId)
    (hfits : sourceTy.misfit? (indices.tail.map sc.beneathExtension) = none)
    (hfit : ∀ n ∈ sc.program.layout.addressConstants sourceTy (indices.map sc.beneathExtension),
      (fit128 n).isSome) :
    ∃ steps, (∀ s s' steps', Yields (sc.indexSteps id sourceTy indices) s steps' s' →
        steps' = steps ∧ s' = s) ∧
      (indices = [] ∨ sc.program.layout.measurable sourceTy = true →
        ∀ s, Yields (sc.indexSteps id sourceTy indices) s steps s) ∧
      Walks steps (indices.map sc.beneathExtension)
        (sc.program.layout.addressConstants sourceTy (indices.map sc.beneathExtension))
        fun count =>
          sc.program.layout.addressOffset count sourceTy (indices.map sc.beneathExtension) := by
  cases indices with
  | nil =>
      exact ⟨[], fun s s' steps' h => yields_pure.1 h, fun _ s => yields_pure.2 ⟨rfl, rfl⟩, .nil⟩
  | cons first rest =>
      rw [List.tail_cons] at hfits
      rw [List.map_cons, addressConstants] at hfit
      obtain ⟨hfirst, hrest⟩ := List.forall_mem_append.1 hfit
      obtain ⟨steps, hsteps, hwalks⟩ := descend_walks id hfits hrest
      refine ⟨.ofIndex (sc.beneathExtension first) (sc.program.layout.allocSize sourceTy) :: steps,
        fun s s' steps' h => ?_, fun hmeasurable s => ?_, hwalks.index hfirst⟩
      · simp only [indexSteps] at h
        split at h
        · rw [hsteps] at h
          exact yields_pure.1 h
        · exact absurd h not_yields_fault
      · simp only [indexSteps, hmeasurable.resolve_left (List.cons_ne_nil _ _), if_true, hsteps]
        exact yields_pure.2 ⟨rfl, rfl⟩

end Scope

end AffineFlow
