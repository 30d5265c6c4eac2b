import AffineFlow.Arena

/-!
# Looking values up in an arena

What each operation does to `get?`, for live and for dead handles alike: it acts
on one handle and leaves all others as they are. In particular a handle that is
dead stays dead when its slot is used again.
-/
namespace AffineFlow.Arena

variable {α : Type} (a : Arena α)

theorem get?_eq_some_iff {h : Handle} {x : α} :
    a.get? h = some x ↔ a.slots[h.slot]? = some (some (h.birth, x)) := by
  unfold get?
  rcases a.slots[h.slot]? with _ | _ | ⟨birth, y⟩
  · simp
  · simp
  · by_cases hb : birth = h.birth <;> simp [hb]

theorem get?_eq_none_of_birth_le {h : Handle} (hb : a.born ≤ h.birth) : a.get? h = none := by
  apply Option.eq_none_iff_forall_ne_some.2
  intro x hx
  have := a.birth_lt _ (List.mem_of_getElem? (a.get?_eq_some_iff.1 hx))
  exact absurd this (Nat.not_lt.2 hb)

@[simp] theorem get?_nextHandle : a.get? a.nextHandle = none :=
  a.get?_eq_none_of_birth_le (Nat.le_refl _)

theorem nextHandle_slot_lt_room : a.nextHandle.slot < a.room.length := by
  unfold nextHandle room
  cases hf : a.free with
  | nil => simp
  | cons s rest =>
      have := a.free_vacant s (by simp [hf])
      simpa using (List.getElem?_eq_some_iff.1 this).1

/-- No value is in the way of the next insertion. -/
theorem getElem?_nextHandle_slot (p : Nat × α) :
    a.slots[a.nextHandle.slot]? ≠ some (some p) := by
  unfold nextHandle
  cases hf : a.free with
  | nil => simp
  | cons s rest =>
      have := a.free_vacant s (by simp [hf])
      simp [this]

theorem getElem?_room (s : Nat) (p : Nat × α) :
    a.room[s]? = some (some p) ↔ a.slots[s]? = some (some p) := by
  unfold room
  split
  · rw [List.getElem?_append]
    split
    next => rfl
    next hs =>
      rw [List.getElem?_eq_none (Nat.not_lt.1 hs)]
      cases s - a.slots.length <;> simp
  · rfl

theorem get?_insert (x : α) (h : Handle) :
    (a.insert x).get? h = if h = a.nextHandle then some x else a.get? h := by
  apply Option.ext
  intro y
  rw [get?_eq_some_iff]
  simp only [insert]
  by_cases hs : a.nextHandle.slot = h.slot
  · rw [hs, List.getElem?_set_self (hs ▸ a.nextHandle_slot_lt_room)]
    have hdead : a.get? h ≠ some y := fun e =>
      a.getElem?_nextHandle_slot _ (hs ▸ a.get?_eq_some_iff.1 e)
    by_cases hb : a.born = h.birth
    · have he : h = a.nextHandle := by
        exact Handle.ext hs.symm hb.symm
      simp [hb, ← he]
    · have he : h ≠ a.nextHandle := fun e => hb (by rw [e]; rfl)
      simp [hb, he, hdead]
  · have he : h ≠ a.nextHandle := fun e => hs (by rw [e])
    rw [List.getElem?_set_ne hs, getElem?_room, if_neg he, get?_eq_some_iff]

theorem get?_modify (h k : Handle) (f : α → α) :
    (a.modify h f).get? k = if k = h then (a.get? k).map f else a.get? k := by
  simp only [get?, modify, List.getElem?_modify, Handle.ext_iff]
  rcases a.slots[k.slot]? with _ | _ | ⟨b, x⟩
  · simp
  · by_cases hs : h.slot = k.slot <;> simp [hs]
  · by_cases hs : h.slot = k.slot
    · by_cases hb : b = h.birth
      · by_cases hk : h.birth = k.birth <;> simp [hs, hb, hk, update, eq_comm]
      · by_cases hk : b = k.birth
        · simp [hs, hk, update, show k.birth ≠ h.birth from hk ▸ hb]
        · simp [hs, hb, hk, update]
    · simp [hs, eq_comm]

theorem contains_iff {h : Handle} : a.contains h = true ↔ ∃ x, a.get? h = some x :=
  Option.isSome_iff_exists

theorem get?_erase (h k : Handle) :
    (a.erase h).get? k = if k = h then none else a.get? k := by
  unfold erase
  split
  next hc =>
    obtain ⟨x, hx⟩ := slot_of_contains hc
    have hlt := (List.getElem?_eq_some_iff.1 hx).1
    apply Option.ext
    intro y
    rw [get?_eq_some_iff]
    by_cases hs : h.slot = k.slot
    · rw [show k.slot = h.slot from hs.symm, List.getElem?_set_self hlt]
      by_cases he : k = h
      · simp [he]
      · have hb : h.birth ≠ k.birth := fun hb => he (Handle.ext hs.symm hb.symm)
        simp [he, get?_eq_some_iff, ← hs, hx, hb]
    · have he : k ≠ h := fun e => hs (by rw [e])
      rw [List.getElem?_set_ne hs, if_neg he, get?_eq_some_iff]
  next hc =>
    by_cases he : k = h
    · subst he
      simpa [contains] using hc
    · rw [if_neg he]

theorem mem_entries_iff {h : Handle} {x : α} : (h, x) ∈ a.entries ↔ a.get? h = some x := by
  rw [get?_eq_some_iff]
  simp only [entries, List.mem_filterMap, Prod.exists, List.mem_zipIdx_iff_getElem?]
  constructor
  · intro hentry
    obtain ⟨o, s, ho, e⟩ := hentry
    cases o with
    | none => simp at e
    | some p =>
        obtain ⟨b, y⟩ := p
        simp only [Option.map_some, Option.some.injEq, Prod.mk.injEq] at e
        obtain ⟨rfl, rfl⟩ := e
        exact ho
  · intro ho
    exact ⟨_, _, ho, rfl⟩

theorem mem_handles_iff {h : Handle} : h ∈ a.handles ↔ a.contains h = true := by
  rw [contains_iff]
  simp only [handles, List.mem_map, Prod.exists, exists_and_right, exists_eq_right, mem_entries_iff]

theorem get?_foldl_erase (dead : List Handle) (a : Arena α) (k : Handle) :
    (dead.foldl erase a).get? k = if k ∈ dead then none else a.get? k := by
  induction dead generalizing a with
  | nil => simp
  | cons h rest ih =>
      rw [List.foldl_cons, ih, get?_erase]
      by_cases hr : k ∈ rest <;> by_cases he : k = h <;> simp [hr, he]

theorem get?_retain (keep : Handle → Bool) (k : Handle) :
    (a.retain keep).get? k = if keep k then a.get? k else none := by
  rw [retain, get?_foldl_erase]
  by_cases hk : keep k = true
  · simp [hk]
  · by_cases hm : k ∈ a.handles
    · simp [hk, hm]
    · have : a.get? k = none := by simpa [mem_handles_iff, contains] using hm
      simp [hk, this]

/-- The handles are listed by slot, each slot at most once. -/
theorem handles_pairwise : a.handles.Pairwise fun h k => h.slot < k.slot := by
  have base : (a.slots.zipIdx).Pairwise fun p q => p.2 < q.2 := by
    apply List.pairwise_map.1
    rw [List.zipIdx_map_snd]
    exact List.pairwise_lt_range'
  rw [handles, List.pairwise_map, entries, List.pairwise_filterMap]
  refine base.imp fun {p q} hlt u hu v hv => ?_
  obtain ⟨o, s⟩ := p
  obtain ⟨o', s'⟩ := q
  cases o <;> cases o' <;> simp at hu hv
  subst hu hv
  exact hlt

theorem handles_nodup : a.handles.Nodup := by
  refine a.handles_pairwise.imp fun {h k} hlt he => ?_
  rw [he] at hlt
  exact Nat.lt_irrefl _ hlt

end AffineFlow.Arena
