import AffineFlow.Proofs.Layout.Alignment

/-!
# Where the parts of an object lie

A path of field numbers and indices leads from a type to a part of it, at a
distance that adds up on the way. If pointers align to a power of two, every part
lies inside the object and at a multiple of its own alignment, and two parts of
which neither contains the other do not overlap. Sizes and distances are exact
numbers; where the size of the whole type fits in a machine word, so does every
distance on the way, since the part that it leads to ends within that size.
-/
namespace AffineFlow.Ssa

def Ty.isAggregate : Ty → Bool
  | .struct _ => true
  | .array _ _ => true
  | _ => false

namespace DataLayout

variable {dl : DataLayout} {ty elem part part' : Ty} {fields : List Ty} {path path' : List Nat}
  {offset offset' i j : Nat}

/-- The path leads from the type to the part, which lies at the distance from the start. -/
inductive Part (dl : DataLayout) : Ty → List Nat → Nat → Ty → Prop
  | whole {ty : Ty} : Part dl ty [] 0 ty
  | field {fields : List Ty} {i : Nat} {ty part : Ty} {path : List Nat} {offset : Nat} :
      fields[i]? = some ty → Part dl ty path offset part →
      Part dl (.struct fields) (i :: path) (dl.fieldOffset fields i + offset) part
  | element {elem part : Ty} {len i : Nat} {path : List Nat} {offset : Nat} :
      i < len → Part dl elem path offset part →
      Part dl (.array elem len) (i :: path) (i * dl.allocSize elem + offset) part

/-! ### Sizes -/

theorem storeSize_le_allocSize (hp : 0 < dl.pointerBits) (ty : Ty) :
    dl.storeSize ty ≤ dl.allocSize ty :=
  le_alignTo _ (align_pos hp ty)

theorem align_dvd_allocSize (ty : Ty) : dl.align ty ∣ dl.allocSize ty := dvd_alignTo _ _

theorem align_dvd_storeSize (hty : ty.isAggregate = true) : dl.align ty ∣ dl.storeSize ty := by
  cases ty with
  | struct fields =>
      rw [storeSize]
      exact dvd_alignTo _ _
  | array elem len =>
      rw [storeSize, align]
      exact Nat.dvd_mul_left_of_dvd (align_dvd_allocSize elem) len
  | _ => cases hty

theorem allocSize_eq_storeSize (hp : 0 < dl.pointerBits) (hty : ty.isAggregate = true) :
    dl.allocSize ty = dl.storeSize ty :=
  Nat.le_antisymm (alignTo_le (align_dvd_storeSize hty) (Nat.le_refl _))
    (storeSize_le_allocSize hp ty)

/-! ### Fields -/

theorem align_dvd_fieldOffsetFrom (hi : fields[i]? = some ty) :
    dl.align ty ∣ dl.fieldOffsetFrom offset fields i := by
  induction fields generalizing offset i with
  | nil => simp at hi
  | cons first rest ih =>
      cases i with
      | zero =>
          obtain rfl := Option.some.inj hi
          rw [fieldOffsetFrom]
          exact dvd_alignTo _ _
      | succ i =>
          rw [fieldOffsetFrom]
          exact ih hi

theorem le_fieldOffsetFrom (hp : 0 < dl.pointerBits) (fields : List Ty) (offset i : Nat) :
    offset ≤ dl.fieldOffsetFrom offset fields i := by
  induction fields generalizing offset i with
  | nil => simp [fieldOffsetFrom]
  | cons first rest ih =>
      have halign := le_alignTo offset (align_pos hp first)
      cases i with
      | zero => rwa [fieldOffsetFrom]
      | succ i =>
          rw [fieldOffsetFrom]
          exact Nat.le_trans (Nat.le_trans halign (Nat.le_add_right _ _)) (ih _ _)

theorem le_fieldsEnd (hp : 0 < dl.pointerBits) (fields : List Ty) (offset : Nat) :
    offset ≤ dl.fieldsEnd offset fields := by
  induction fields generalizing offset with
  | nil => simp [fieldsEnd]
  | cons first rest ih =>
      have halign := le_alignTo offset (align_pos hp first)
      rw [fieldsEnd]
      exact Nat.le_trans (Nat.le_trans halign (Nat.le_add_right _ _)) (ih _)

/-- A field ends before the last one does. -/
theorem fieldOffsetFrom_add_le_fieldsEnd (hp : 0 < dl.pointerBits) (hi : fields[i]? = some ty) :
    dl.fieldOffsetFrom offset fields i + dl.allocSize ty ≤ dl.fieldsEnd offset fields := by
  induction fields generalizing offset i with
  | nil => simp at hi
  | cons first rest ih =>
      rw [fieldsEnd]
      cases i with
      | zero =>
          obtain rfl := Option.some.inj hi
          rw [fieldOffsetFrom]
          exact le_fieldsEnd hp rest _
      | succ i =>
          rw [fieldOffsetFrom]
          exact ih hi

/-- A field ends before a later one starts. -/
theorem fieldOffsetFrom_add_le (hp : 0 < dl.pointerBits) (hi : fields[i]? = some ty) (hij : i < j) :
    dl.fieldOffsetFrom offset fields i + dl.allocSize ty ≤ dl.fieldOffsetFrom offset fields j := by
  induction fields generalizing offset i j with
  | nil => simp at hi
  | cons first rest ih =>
      obtain ⟨j, rfl⟩ := Nat.exists_eq_add_of_lt hij
      cases i with
      | zero =>
          obtain rfl := Option.some.inj hi
          rw [fieldOffsetFrom, fieldOffsetFrom]
          exact le_fieldOffsetFrom hp rest _ _
      | succ i =>
          rw [fieldOffsetFrom, fieldOffsetFrom]
          exact ih hi (by omega)

theorem align_dvd_fieldOffset (hi : fields[i]? = some ty) :
    dl.align ty ∣ dl.fieldOffset fields i := align_dvd_fieldOffsetFrom hi

theorem fieldOffset_add_le (hp : 0 < dl.pointerBits) (hi : fields[i]? = some ty) (hij : i < j) :
    dl.fieldOffset fields i + dl.allocSize ty ≤ dl.fieldOffset fields j :=
  fieldOffsetFrom_add_le hp hi hij

theorem fieldOffset_add_allocSize_le (hp : 0 < dl.pointerBits) (hi : fields[i]? = some ty) :
    dl.fieldOffset fields i + dl.allocSize ty ≤ dl.storeSize (.struct fields) := by
  have hend : dl.fieldOffset fields i + dl.allocSize ty ≤ dl.fieldsEnd 0 fields :=
    fieldOffsetFrom_add_le_fieldsEnd hp hi
  rw [storeSize]
  exact Nat.le_trans hend (le_alignTo _ (align_pos hp _))

/-! ### Elements -/

/-- An element ends before a later one starts. -/
theorem mul_allocSize_add_le (dl : DataLayout) (elem : Ty) (hij : i < j) :
    i * dl.allocSize elem + dl.allocSize elem ≤ j * dl.allocSize elem := by
  rw [← Nat.succ_mul]
  exact Nat.mul_le_mul_right _ hij

/-! ### Parts -/

namespace Part

theorem align_dvd_align (h : dl.Part ty path offset part) (hp : dl.pointerSize.isPowerOfTwo) :
    dl.align part ∣ dl.align ty := by
  induction h with
  | whole => exact Nat.dvd_refl _
  | field hi _ ih => exact Nat.dvd_trans ih (align_dvd_align_struct hp (List.mem_of_getElem? hi))
  | element _ _ ih => rwa [align]

theorem align_dvd_offset (h : dl.Part ty path offset part) (hp : dl.pointerSize.isPowerOfTwo) :
    dl.align part ∣ offset := by
  induction h with
  | whole => exact Nat.dvd_zero _
  | field hi hpart ih =>
      have hstart := Nat.dvd_trans (hpart.align_dvd_align hp) (align_dvd_fieldOffset hi)
      exact Nat.dvd_add hstart ih
  | element _ hpart ih =>
      have hstart := Nat.dvd_trans (hpart.align_dvd_align hp) (align_dvd_allocSize _)
      exact Nat.dvd_add (Nat.dvd_mul_left_of_dvd hstart _) ih

theorem offset_add_storeSize_le (h : dl.Part ty path offset part) (hp : 0 < dl.pointerBits) :
    offset + dl.storeSize part ≤ dl.storeSize ty := by
  induction h with
  | whole => exact Nat.le_of_eq (Nat.zero_add _)
  | @field fields i ty part path offset hi _ ih =>
      have hsize := storeSize_le_allocSize hp ty
      have hend := fieldOffset_add_allocSize_le hp hi
      omega
  | @element elem part len i path offset hi _ ih =>
      have hsize := storeSize_le_allocSize hp elem
      have hend := mul_allocSize_add_le dl elem hi
      rw [storeSize, ← allocSize]
      omega

/-- What lies in one field or element ends before a later one starts. -/
theorem end_le_of_allocSize_le {start start' : Nat} (h : dl.Part ty path offset part)
    (hp : 0 < dl.pointerBits) (hstart : start + dl.allocSize ty ≤ start') (offset' : Nat) :
    start + offset + dl.storeSize part ≤ start' + offset' := by
  have hin := h.offset_add_storeSize_le hp
  have hsize := storeSize_le_allocSize hp ty
  omega

/-- The paths part at some field or index, and what they lead to from there lies in different
fields or elements. -/
theorem disjoint (h : dl.Part ty path offset part) (h' : dl.Part ty path' offset' part')
    (hp : 0 < dl.pointerBits) (hpath : ¬path <+: path') (hpath' : ¬path' <+: path) :
    offset + dl.storeSize part ≤ offset' ∨ offset' + dl.storeSize part' ≤ offset := by
  induction h generalizing path' offset' part' with
  | whole => exact absurd (List.nil_prefix) hpath
  | @field fields i ty part path offset hi hpart ih =>
      cases h' with
      | whole => exact absurd (List.nil_prefix) hpath'
      | @field _ j ty' _ path' offset' hj hpart' =>
          rcases Nat.lt_trichotomy i j with hij | rfl | hij
          · exact .inl (hpart.end_le_of_allocSize_le hp (fieldOffset_add_le hp hi hij) _)
          · obtain rfl := Option.some.inj (hi.symm.trans hj)
            have hrest := ih hpart' (fun hm => hpath (List.cons_prefix_cons.2 ⟨rfl, hm⟩))
              fun hm => hpath' (List.cons_prefix_cons.2 ⟨rfl, hm⟩)
            omega
          · exact .inr (hpart'.end_le_of_allocSize_le hp (fieldOffset_add_le hp hj hij) _)
  | @element elem part len i path offset hi hpart ih =>
      cases h' with
      | whole => exact absurd (List.nil_prefix) hpath'
      | @element _ _ _ j path' offset' hj hpart' =>
          rcases Nat.lt_trichotomy i j with hij | rfl | hij
          · exact .inl (hpart.end_le_of_allocSize_le hp (mul_allocSize_add_le dl elem hij) _)
          · have hrest := ih hpart' (fun hm => hpath (List.cons_prefix_cons.2 ⟨rfl, hm⟩))
              fun hm => hpath' (List.cons_prefix_cons.2 ⟨rfl, hm⟩)
            omega
          · exact .inr (hpart'.end_le_of_allocSize_le hp (mul_allocSize_add_le dl elem hij) _)

end Part

/-- If pointers align to a power of two, every type can be measured; each part of it, however deep,
lies at a multiple of its alignment and within the size of the type; of two parts of which neither
path continues the other, one ends before the other starts; and the size of an aggregate is a
multiple of its alignment and the distance between two of them in an array. -/
theorem parts_laid_out (hp : dl.pointerSize.isPowerOfTwo) (ty : Ty) :
    dl.measurable ty = true ∧
      (∀ path offset part, dl.Part ty path offset part →
        dl.align part ∣ offset ∧ offset + dl.storeSize part ≤ dl.storeSize ty) ∧
      (∀ path path' offset offset' part part', dl.Part ty path offset part →
        dl.Part ty path' offset' part' → ¬path <+: path' → ¬path' <+: path →
          offset + dl.storeSize part ≤ offset' ∨ offset' + dl.storeSize part' ≤ offset) ∧
      (ty.isAggregate = true →
        dl.storeSize ty = dl.allocSize ty ∧ dl.align ty ∣ dl.storeSize ty) := by
  have hpos := pointerBits_pos hp
  refine ⟨measurable_of_pos hpos ty, fun path offset part h => ?_, ?_, fun hty => ?_⟩
  · exact ⟨h.align_dvd_offset hp, h.offset_add_storeSize_le hpos⟩
  · intro path path' offset offset' part part' h h' hpath hpath'
    exact h.disjoint h' hpos hpath hpath'
  · exact ⟨(allocSize_eq_storeSize hpos hty).symm, align_dvd_storeSize hty⟩

/-- Records of a small struct that is followed by bits, with a pointer at the end. -/
def nestedRecords : Ty :=
  .array (.struct [.struct [.int 8, .int 24], .array (.int 1) 3, .ptr]) 5

/-- The second field of the struct in the third record, and the pointer of the same record. -/
theorem parts_laid_out_nestedRecords :
    ({} : DataLayout).pointerSize.isPowerOfTwo ∧
      ({} : DataLayout).Part nestedRecords [2, 0, 1] 52 (.int 24) ∧
      ({} : DataLayout).Part nestedRecords [2, 2] 64 .ptr ∧
      ({} : DataLayout).align (.int 24) ∣ 52 ∧
      (52 + ({} : DataLayout).storeSize (.int 24) ≤ 64 ∨
        64 + ({} : DataLayout).storeSize .ptr ≤ 52) ∧
      ({} : DataLayout).storeSize nestedRecords = ({} : DataLayout).allocSize nestedRecords := by
  have hp : ({} : DataLayout).pointerSize.isPowerOfTwo := ⟨3, rfl⟩
  have hbits : ({} : DataLayout).Part nestedRecords [2, 0, 1] _ (.int 24) :=
    .element (show 2 < 5 by decide) (.field rfl (.field rfl .whole))
  have hpointer : ({} : DataLayout).Part nestedRecords [2, 2] _ .ptr :=
    .element (show 2 < 5 by decide) (.field rfl .whole)
  obtain ⟨-, hinside, hapart, haggregate⟩ := parts_laid_out hp nestedRecords
  exact ⟨hp, hbits, hpointer, (hinside _ _ _ hbits).1,
    hapart _ _ _ _ _ _ hbits hpointer (by decide) (by decide), (haggregate rfl).1⟩

end DataLayout

end AffineFlow.Ssa
