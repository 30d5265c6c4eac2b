/-!
# Arenas

A table of values whose handles stay valid while other values come and go. A
new value takes the most recently freed slot, or a new slot at the end. Every
value carries the number of its insertion, and so does its handle: a handle
outlives its value without ever referring to a later one in the same slot.
Values are listed by slot.

What is proved about graphs rests on the documented facts of a generational
arena, which `Arena.Lookup` proves of this one: a new value gets a handle that no
value had before, no operation changes what the other handles refer to, a removed
value's handle stays dead, and the live handles are listed once each, in slot
order. The births are not bounded. An arena that keeps a 32-bit version in each
slot does the same until a slot has been used so often that its version wraps.
-/
namespace AffineFlow

/-- A reference into an arena. -/
@[ext] structure Handle where
  slot : Nat
  /-- Which insertion the handle comes from, counted over the whole life of the arena. -/
  birth : Nat
  deriving DecidableEq, Repr, Inhabited

/-- The order of handles by slot, then by birth. -/
def Handle.before (a b : Handle) : Bool :=
  a.slot < b.slot || (a.slot == b.slot && a.birth < b.birth)

namespace Handle

theorem before_iff {a b : Handle} :
    a.before b = true ↔ a.slot < b.slot ∨ a.slot = b.slot ∧ a.birth < b.birth := by
  simp [before]

theorem before_trans {a b c : Handle} (hab : a.before b = true) (hbc : b.before c = true) :
    a.before c = true := by
  rw [before_iff] at *; omega

theorem before_of_not_before {a b : Handle} (hne : a ≠ b) (h : ¬a.before b = true) :
    b.before a = true := by
  rw [before_iff] at *
  rw [Ne, Handle.ext_iff] at hne
  omega

end Handle

structure Arena (α : Type) where
  /-- What each slot holds: a value and the number of its insertion. -/
  slots : List (Option (Nat × α))
  /-- The vacant slots, the most recently freed first. -/
  free : List Nat
  /-- The number of insertions so far. -/
  born : Nat
  free_nodup : free.Nodup
  free_vacant : ∀ s ∈ free, slots[s]? = some none
  birth_lt : ∀ p, some p ∈ slots → p.1 < born

namespace Arena

variable {α : Type}

def empty : Arena α := ⟨[], [], 0, .nil, by simp, by simp⟩

/-- The value in the slot of the handle, if it is the one that the handle was given for. -/
def get? (a : Arena α) (h : Handle) : Option α :=
  match a.slots[h.slot]? with
  | some (some (birth, x)) => if birth = h.birth then some x else none
  | _ => none

def contains (a : Arena α) (h : Handle) : Bool := (a.get? h).isSome

/-- The live handles with their values, by slot. -/
def entries (a : Arena α) : List (Handle × α) :=
  a.slots.zipIdx.filterMap fun p => p.1.map fun q => (⟨p.2, q.1⟩, q.2)

/-- The live handles by slot. -/
def handles (a : Arena α) : List Handle := a.entries.map (·.1)

def size (a : Arena α) : Nat := a.entries.length

/-- Where the next insertion goes. -/
def nextHandle (a : Arena α) : Handle := ⟨a.free.headD a.slots.length, a.born⟩

/-- The slots with room for one more value. -/
def room (a : Arena α) : List (Option (Nat × α)) :=
  if a.free.isEmpty then a.slots ++ [none] else a.slots

theorem mem_of_some_mem_room {a : Arena α} {p : Nat × α} (h : some p ∈ a.room) :
    some p ∈ a.slots := by
  unfold room at h
  split at h
  · simpa using h
  · exact h

theorem headD_ne_of_mem_tail {l : List Nat} {d s : Nat} (hn : l.Nodup) (hs : s ∈ l.tail) :
    l.headD d ≠ s := by
  cases l with
  | nil => simp at hs
  | cons t rest =>
      intro e
      exact (List.nodup_cons.1 hn).1 (show t ∈ rest from (show t = s from e) ▸ hs)

def insert (a : Arena α) (x : α) : Arena α where
  slots := a.room.set a.nextHandle.slot (some (a.born, x))
  free := a.free.tail
  born := a.born + 1
  free_nodup := a.free_nodup.sublist (List.tail_sublist _)
  free_vacant := by
    intro s hs
    have hm : s ∈ a.free := List.mem_of_mem_tail hs
    have hslot : a.nextHandle.slot ≠ s := headD_ne_of_mem_tail a.free_nodup hs
    rw [List.getElem?_set_ne hslot]
    have hne : a.free.isEmpty = false := by
      cases hf : a.free with
      | nil => simp [hf] at hm
      | cons => rfl
    simpa [room, hne] using a.free_vacant s hm
  birth_lt := by
    intro p hp
    rcases List.mem_or_eq_of_mem_set hp with hp | hp
    · exact Nat.lt_succ_of_lt (a.birth_lt p (mem_of_some_mem_room hp))
    · rw [Option.some.inj hp]
      exact Nat.lt_succ_self _

theorem slot_of_contains {a : Arena α} {h : Handle} (hc : a.contains h = true) :
    ∃ x, a.slots[h.slot]? = some (some (h.birth, x)) := by
  unfold contains get? at hc
  split at hc
  next birth x hg =>
    split at hc
    next hb => exact ⟨x, hb ▸ hg⟩
    next => simp at hc
  next => simp at hc

/-- Removes the value of a live handle and frees its slot. -/
def erase (a : Arena α) (h : Handle) : Arena α :=
  if hc : a.contains h = true then
    { slots := a.slots.set h.slot none
      free := h.slot :: a.free
      born := a.born
      free_nodup := by
        obtain ⟨x, hx⟩ := slot_of_contains hc
        refine List.nodup_cons.2 ⟨fun hm => ?_, a.free_nodup⟩
        rw [a.free_vacant _ hm] at hx
        exact nomatch hx
      free_vacant := by
        obtain ⟨x, hx⟩ := slot_of_contains hc
        have hlt := (List.getElem?_eq_some_iff.1 hx).1
        intro s hs
        by_cases he : h.slot = s
        · rw [← he, List.getElem?_set_self hlt]
        · rw [List.getElem?_set_ne he]
          rcases List.mem_cons.1 hs with rfl | hs
          · exact absurd rfl he
          · exact a.free_vacant s hs
      birth_lt := by
        intro p hp
        rcases List.mem_or_eq_of_mem_set hp with hp | hp
        · exact a.birth_lt p hp
        · exact nomatch hp }
  else a

/-- Changes a value if it is the one that the handle was given for. -/
def update (h : Handle) (f : α → α) (p : Nat × α) : Nat × α :=
  if p.1 = h.birth then (p.1, f p.2) else p

/-- Changes the value of a live handle. -/
def modify (a : Arena α) (h : Handle) (f : α → α) : Arena α where
  slots := a.slots.modify h.slot (Option.map (update h f))
  free := a.free
  born := a.born
  free_nodup := a.free_nodup
  free_vacant := by
    intro s hs
    rw [List.getElem?_modify, a.free_vacant s hs]
    by_cases he : h.slot = s <;> simp [he]
  birth_lt := by
    intro p hp
    obtain ⟨i, hi⟩ := List.mem_iff_getElem?.1 hp
    rw [List.getElem?_modify] at hi
    cases ho : a.slots[i]? with
    | none => rw [ho] at hi; exact nomatch hi
    | some o =>
        rw [ho] at hi
        have hm := List.mem_of_getElem? ho
        cases o with
        | none =>
            by_cases he : h.slot = i <;> simp [he] at hi
        | some q =>
            have hq := a.birth_lt q hm
            by_cases he : h.slot = i
            · by_cases hb : q.1 = h.birth
              · simp [he, update, hb] at hi
                rw [← hi]
                exact hb ▸ hq
              · simp [he, update, hb] at hi
                exact hi ▸ hq
            · simp [he] at hi
              exact hi ▸ hq

/-- Removes every value that `keep` rejects, by slot. -/
def retain (a : Arena α) (keep : Handle → Bool) : Arena α :=
  (a.handles.filter fun h => !keep h).foldl erase a

end Arena

end AffineFlow
