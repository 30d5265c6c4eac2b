import AffineFlow.Arena.Lookup

/-!
# Changing every value of an arena

`map` changes the values and leaves slots, births and vacancies alone, so handles
mean the same before and after it, and every operation on arenas commutes with
it.
-/
namespace AffineFlow.Arena

variable {α β : Type}

theorem ext_iff {a b : Arena α} :
    a = b ↔ a.slots = b.slots ∧ a.free = b.free ∧ a.born = b.born := by
  cases a
  cases b
  simp

/-- Changes every value. -/
def map (f : α → β) (a : Arena α) : Arena β where
  slots := a.slots.map (Option.map fun p => (p.1, f p.2))
  free := a.free
  born := a.born
  free_nodup := a.free_nodup
  free_vacant := by
    intro s hs
    rw [List.getElem?_map, a.free_vacant s hs]
    rfl
  birth_lt := by
    intro p hp
    obtain ⟨o, ho, he⟩ := List.mem_map.1 hp
    cases o with
    | none => cases he
    | some q =>
        obtain rfl := Option.some.inj he
        exact a.birth_lt q ho

variable (f : α → β) (a : Arena α)

@[simp] theorem get?_map (h : Handle) : (a.map f).get? h = (a.get? h).map f := by
  unfold get? map
  simp only [List.getElem?_map]
  rcases a.slots[h.slot]? with _ | _ | ⟨birth, x⟩
  · rfl
  · rfl
  · by_cases hb : birth = h.birth <;> simp [hb]

@[simp] theorem contains_map (h : Handle) : (a.map f).contains h = a.contains h := by
  rw [contains, get?_map, Option.isSome_map, contains]

@[simp] theorem nextHandle_map : (a.map f).nextHandle = a.nextHandle := by
  simp [nextHandle, map]

theorem entries_map : (a.map f).entries = a.entries.map fun p => (p.1, f p.2) := by
  simp only [entries, map, List.zipIdx_map, List.filterMap_map, List.map_filterMap]
  congr 1
  funext p
  obtain ⟨_ | q, i⟩ := p <;> rfl

@[simp] theorem handles_map : (a.map f).handles = a.handles := by
  simp [handles, entries_map]

@[simp] theorem size_map : (a.map f).size = a.size := by
  simp [size, entries_map]

theorem map_insert (x : α) : (a.insert x).map f = (a.map f).insert (f x) := by
  have hroom : (a.map f).room = a.room.map (Option.map fun p => (p.1, f p.2)) := by
    unfold room
    show (if a.free.isEmpty = true then _ else _) = _
    split <;> simp [map]
  refine ext_iff.2 ⟨?_, rfl, rfl⟩
  show List.map _ (a.room.set _ _) = (a.map f).room.set _ _
  rw [hroom, nextHandle_map, List.map_set]
  rfl

theorem map_erase (h : Handle) : (a.erase h).map f = (a.map f).erase h := by
  by_cases hc : a.contains h = true
  · have hc' : (a.map f).contains h = true := by rw [contains_map, hc]
    rw [erase, erase, dif_pos hc, dif_pos hc']
    refine ext_iff.2 ⟨?_, rfl, rfl⟩
    exact List.map_set ..
  · have hc' : ¬(a.map f).contains h = true := by rwa [contains_map]
    rw [erase, erase, dif_neg hc, dif_neg hc']

theorem map_modify (h : Handle) {u : α → α} {v : β → β} (huv : ∀ x, f (u x) = v (f x)) :
    (a.modify h u).map f = (a.map f).modify h v := by
  refine ext_iff.2 ⟨?_, rfl, rfl⟩
  apply List.ext_getElem?
  intro i
  simp only [map, modify, List.getElem?_map, List.getElem?_modify]
  rcases a.slots[i]? with _ | _ | ⟨birth, x⟩
  · rfl
  · by_cases hi : h.slot = i <;> simp [hi]
  · by_cases hi : h.slot = i <;> by_cases hb : birth = h.birth <;> simp [hi, update, hb, huv]

theorem map_retain (keep : Handle → Bool) : (a.retain keep).map f = (a.map f).retain keep := by
  rw [retain, retain, handles_map]
  induction a.handles.filter fun h => !keep h generalizing a with
  | nil => rfl
  | cons h rest ih => rw [List.foldl_cons, List.foldl_cons, ih, map_erase]

end AffineFlow.Arena
