import AffineFlow.Ssa.Ty

/-!
# Data layout

Sizes and alignments in bytes under natural alignment: a scalar aligns to its
size rounded up to a power of two, at most sixteen, an aggregate to its
strictest part. The only target parameter is the pointer width. A pointer of
width zero has alignment zero, and nothing can be placed at a multiple of zero;
`DataLayout.measurable` says which types avoid that, and the sizes of the
others are meaningless.
-/
namespace AffineFlow.Ssa

/-- The least multiple of `align` that is not below `value`. -/
def alignTo (value align : Nat) : Nat := (value + align - 1) / align * align

theorem dvd_alignTo (value align : Nat) : align ∣ alignTo value align := Nat.dvd_mul_left _ _

theorem le_alignTo {align : Nat} (value : Nat) (ha : 0 < align) :
    value ≤ alignTo value align := by
  have hr := Nat.mod_lt (value + align - 1) ha
  have hd := Nat.div_add_mod' (value + align - 1) align
  unfold alignTo
  omega

theorem alignTo_le {value align multiple : Nat} (hm : align ∣ multiple) (hv : value ≤ multiple) :
    alignTo value align ≤ multiple := by
  obtain ⟨k, rfl⟩ := hm
  rcases Nat.eq_zero_or_pos align with rfl | ha
  · simp [alignTo]
  · have hlt : (value + align - 1) / align < k + 1 := by
      rw [Nat.div_lt_iff_lt_mul ha, Nat.add_mul, Nat.mul_comm k align]
      omega
    unfold alignTo
    rw [Nat.mul_comm align k]
    exact Nat.mul_le_mul_right align (Nat.le_of_lt_succ hlt)

/-- The bytes that hold `bits` bits. -/
def bytesFor (bits : Nat) : Nat := (bits + 7) / 8

/-- The power of two not below `bytes`, capped at sixteen. -/
def scalarAlign (bytes : Nat) : Nat :=
  if bytes ≤ 1 then 1
  else if bytes ≤ 2 then 2
  else if bytes ≤ 4 then 4
  else if bytes ≤ 8 then 8
  else 16

structure DataLayout where
  pointerBits : Nat := 64

namespace DataLayout

variable (dl : DataLayout)

def pointerSize : Nat := bytesFor dl.pointerBits

mutual

def align : Ty → Nat
  | .void => 1
  | .blackbox => 1
  | .int bits => scalarAlign (bytesFor bits)
  | .float bits => scalarAlign (bytesFor bits)
  | .ptr => dl.pointerSize
  | .struct [] => 1
  | .struct (ty :: rest) => max (align ty) (strictest rest)
  | .array elem _ => align elem

/-- The largest alignment among the types, zero if there are none. -/
def strictest : List Ty → Nat
  | [] => 0
  | ty :: rest => max (align ty) (strictest rest)

end

mutual

/-- The bytes that a store of the type may overwrite. -/
def storeSize : Ty → Nat
  | .void => 0
  | .blackbox => 0
  | .int bits => bytesFor bits
  | .float bits => bytesFor bits
  | .ptr => dl.pointerSize
  | .struct fields => alignTo (fieldsEnd 0 fields) (dl.align (.struct fields))
  | .array elem len => len * alignTo (storeSize elem) (dl.align elem)

/-- The end of the last of the types when they are laid out one after the other from `offset`. -/
def fieldsEnd (offset : Nat) : List Ty → Nat
  | [] => offset
  | ty :: rest =>
      fieldsEnd (alignTo offset (dl.align ty) + alignTo (storeSize ty) (dl.align ty)) rest

end

/-- The distance between consecutive objects of the type in memory. -/
def allocSize (ty : Ty) : Nat := alignTo (dl.storeSize ty) (dl.align ty)

/-- Where the field with the given index starts when the fields are laid out from `offset`; past
the last field, where that one ends. -/
def fieldOffsetFrom (offset : Nat) : List Ty → Nat → Nat
  | [], _ => offset
  | ty :: _, 0 => alignTo offset (dl.align ty)
  | ty :: rest, index + 1 =>
      fieldOffsetFrom (alignTo offset (dl.align ty) + dl.allocSize ty) rest index

def fieldOffset (fields : List Ty) (index : Nat) : Nat := dl.fieldOffsetFrom 0 fields index

mutual

/-- No part of the type has to be placed at a multiple of zero. -/
def partsMeasurable : Ty → Bool
  | .struct fields => allMeasurable fields
  | .array elem _ => dl.align elem != 0 && partsMeasurable elem
  | _ => true

def allMeasurable : List Ty → Bool
  | [] => true
  | ty :: rest => dl.align ty != 0 && partsMeasurable ty && allMeasurable rest

end

/-- Neither the type nor any part of it has to be placed at a multiple of zero. -/
def measurable (ty : Ty) : Bool := dl.align ty != 0 && dl.partsMeasurable ty

end DataLayout

end AffineFlow.Ssa
