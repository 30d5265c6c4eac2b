import AffineFlow.Ssa.Layout

/-!
# Alignment

With pointers of some width everything can be placed. Scalars align to powers of
two, so if pointers do as well then every type does. Of two powers of two the
smaller one divides the larger one, and an aggregate is aligned as strictly as
its strictest part: what is a multiple of its alignment is a multiple of that of
each part.
-/
namespace AffineFlow.Ssa.DataLayout

variable {dl : DataLayout} {ty : Ty} {fields : List Ty}

theorem scalarAlign_pos (bytes : Nat) : 0 < scalarAlign bytes := by
  unfold scalarAlign
  split
  · decide
  split
  · decide
  split
  · decide
  split
  · decide
  · decide

theorem align_pos (hp : 0 < dl.pointerBits) : ∀ ty : Ty, 0 < dl.align ty
  | .void => by simp [align]
  | .blackbox => by simp [align]
  | .int bits => by simpa [align] using scalarAlign_pos _
  | .float bits => by simpa [align] using scalarAlign_pos _
  | .ptr => by
      simp only [align, pointerSize, bytesFor]
      omega
  | .struct [] => by simp [align]
  | .struct (ty :: rest) => by
      rw [align]
      exact Nat.lt_of_lt_of_le (align_pos hp ty) (Nat.le_max_left _ _)
  | .array elem len => by
      rw [align]
      exact align_pos hp elem

mutual

theorem partsMeasurable_of_pos (hp : 0 < dl.pointerBits) : ∀ ty : Ty, dl.partsMeasurable ty = true
  | .void => by simp [partsMeasurable]
  | .blackbox => by simp [partsMeasurable]
  | .int bits => by simp [partsMeasurable]
  | .float bits => by simp [partsMeasurable]
  | .ptr => by simp [partsMeasurable]
  | .struct fields => by
      rw [partsMeasurable]
      exact allMeasurable_of_pos hp fields
  | .array elem len => by
      rw [partsMeasurable, partsMeasurable_of_pos hp elem, Bool.and_true]
      simpa using Nat.ne_of_gt (align_pos hp elem)

theorem allMeasurable_of_pos (hp : 0 < dl.pointerBits) :
    ∀ fields : List Ty, dl.allMeasurable fields = true
  | [] => by simp [allMeasurable]
  | ty :: rest => by
      rw [allMeasurable, partsMeasurable_of_pos hp ty, allMeasurable_of_pos hp rest]
      simpa using Nat.ne_of_gt (align_pos hp ty)

end

/-- With pointers of some width, everything can be placed. -/
theorem measurable_of_pos (hp : 0 < dl.pointerBits) (ty : Ty) : dl.measurable ty = true := by
  rw [measurable, partsMeasurable_of_pos hp, Bool.and_true]
  simpa using Nat.ne_of_gt (align_pos hp ty)

/-! ### Powers of two -/

theorem dvd_of_isPowerOfTwo {a b : Nat} (ha : a.isPowerOfTwo) (hb : b.isPowerOfTwo)
    (hle : a ≤ b) : a ∣ b := by
  obtain ⟨i, rfl⟩ := ha
  obtain ⟨j, rfl⟩ := hb
  exact Nat.pow_dvd_pow 2 ((Nat.pow_le_pow_iff_right (by decide)).1 hle)

theorem isPowerOfTwo_max {a b : Nat} (ha : a.isPowerOfTwo) (hb : b.isPowerOfTwo) :
    (max a b).isPowerOfTwo := by
  rw [Nat.max_def]
  split
  · exact hb
  · exact ha

theorem scalarAlign_isPowerOfTwo (bytes : Nat) : (scalarAlign bytes).isPowerOfTwo := by
  unfold scalarAlign
  split
  · exact ⟨0, rfl⟩
  split
  · exact ⟨1, rfl⟩
  split
  · exact ⟨2, rfl⟩
  split
  · exact ⟨3, rfl⟩
  · exact ⟨4, rfl⟩

/-- A struct that has fields is aligned as its strictest field. -/
theorem align_struct (hne : fields ≠ []) : dl.align (.struct fields) = dl.strictest fields := by
  cases fields with
  | nil => exact absurd rfl hne
  | cons ty rest => rw [align, strictest]

mutual

theorem align_isPowerOfTwo (hp : dl.pointerSize.isPowerOfTwo) :
    ∀ ty : Ty, (dl.align ty).isPowerOfTwo
  | .void => ⟨0, by rw [align]⟩
  | .blackbox => ⟨0, by rw [align]⟩
  | .int bits => by
      rw [align]
      exact scalarAlign_isPowerOfTwo _
  | .float bits => by
      rw [align]
      exact scalarAlign_isPowerOfTwo _
  | .ptr => by rwa [align]
  | .struct fields => by
      by_cases hne : fields = []
      · subst hne
        exact ⟨0, by rw [align]⟩
      · rw [align_struct hne]
        exact strictest_isPowerOfTwo hp fields hne
  | .array elem len => by
      rw [align]
      exact align_isPowerOfTwo hp elem

theorem strictest_isPowerOfTwo (hp : dl.pointerSize.isPowerOfTwo) :
    ∀ fields : List Ty, fields ≠ [] → (dl.strictest fields).isPowerOfTwo
  | [], hne => absurd rfl hne
  | ty :: rest, _ => by
      rw [strictest]
      by_cases hrest : rest = []
      · rw [hrest, strictest, Nat.max_eq_left (Nat.zero_le _)]
        exact align_isPowerOfTwo hp ty
      · exact isPowerOfTwo_max (align_isPowerOfTwo hp ty) (strictest_isPowerOfTwo hp rest hrest)

end

theorem align_le_strictest (hty : ty ∈ fields) : dl.align ty ≤ dl.strictest fields := by
  induction fields with
  | nil => cases hty
  | cons first rest ih =>
      rw [strictest]
      rcases List.mem_cons.1 hty with rfl | hty
      · exact Nat.le_max_left _ _
      · exact Nat.le_trans (ih hty) (Nat.le_max_right _ _)

theorem align_dvd_align_struct (hp : dl.pointerSize.isPowerOfTwo) (hty : ty ∈ fields) :
    dl.align ty ∣ dl.align (.struct fields) := by
  refine dvd_of_isPowerOfTwo (align_isPowerOfTwo hp ty) (align_isPowerOfTwo hp _) ?_
  rw [align_struct (List.ne_nil_of_mem hty)]
  exact align_le_strictest hty

/-- Pointers that align to a power of two have a width. -/
theorem pointerBits_pos (hp : dl.pointerSize.isPowerOfTwo) : 0 < dl.pointerBits := by
  obtain ⟨k, hk⟩ := hp
  have hpos : 0 < dl.pointerSize := hk ▸ Nat.two_pow_pos k
  unfold pointerSize bytesFor at hpos
  omega

end AffineFlow.Ssa.DataLayout
