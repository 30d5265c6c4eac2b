import AffineFlow.Proofs.Renaming.Renamable
import AffineFlow.Proofs.Supply.Extension
import Mathlib.Data.List.Nodup
import Mathlib.Data.List.Range

/-!
# Supplies that grow alike

Two computations start from two supplies. Whenever both stand at the same point,
they have minted equally many temporaries since they started. A renaming fits
such a point if it takes the variable of each referent on the left to its
variable on the right, and the temporaries on the left to those on the right in
minting order. There always is one, and a renaming that fits a later point fits
every earlier one. So values are alike at a point if every renaming that fits it
takes the left one to the right one, and what is alike stays alike.
-/
namespace AffineFlow

namespace VarSupply

variable {s₀ t₀ s s' : VarSupply} {v : Var}

instance (s : VarSupply) (v : Var) : Decidable (s.Spare v) :=
  decidable_of_iff (∀ p ∈ s.bound, s.find? p.1 ≠ some v)
    ⟨fun h _ hr => h _ (mem_of_find? hr) hr, fun h p _ => h p.1⟩

/-- The variables that `s` has and `s₀` has not, and that stand for nothing, in minting order. -/
def temporariesSince (s₀ s : VarSupply) : List Var :=
  ((List.range s.size).map Var.mk).filter fun v => s₀.size ≤ v.id ∧ s.Spare v

theorem spare_iff_of_lt (h : s.Extends s') (hv : v.id < s.size) : s'.Spare v ↔ s.Spare v := by
  constructor
  · intro hs r hr
    exact hs r (h.keeps r v hr)
  · intro hs r hr
    rcases h.new r v hr with hr | hle
    · exact hs r hr
    · exact absurd hv (Nat.not_lt.2 hle)

theorem mem_temporariesSince :
    v ∈ temporariesSince s₀ s ↔ v.id < s.size ∧ s₀.size ≤ v.id ∧ s.Spare v := by
  simp only [temporariesSince, List.mem_filter, List.mem_map, List.mem_range, decide_eq_true_eq]
  refine and_congr_left fun _ => ⟨?_, fun h => ⟨v.id, h, rfl⟩⟩
  intro h
  obtain ⟨i, hi, rfl⟩ := h
  exact hi

theorem temporariesSince_nodup (s₀ s : VarSupply) : (temporariesSince s₀ s).Nodup := by
  refine (List.nodup_range.map ?_).filter _
  intro i j h
  exact congrArg Var.id h

theorem temporariesSince_self (s : VarSupply) : temporariesSince s s = [] := by
  refine List.eq_nil_iff_forall_not_mem.2 fun v hv => ?_
  obtain ⟨hlt, hle, -⟩ := mem_temporariesSince.1 hv
  exact absurd hlt (Nat.not_lt.2 hle)

theorem filter_spare_of_extends (h : s.Extends s') :
    (((List.range s.size).map Var.mk).filter fun v => s₀.size ≤ v.id ∧ s'.Spare v) =
      temporariesSince s₀ s := by
  apply List.filter_congr
  intro v hv
  obtain ⟨i, hi, rfl⟩ := List.mem_map.1 hv
  simp only [spare_iff_of_lt h (List.mem_range.1 hi)]

/-- Later temporaries come after the earlier ones. -/
theorem temporariesSince_grows (s₀ : VarSupply) (h : s.Extends s') :
    temporariesSince s₀ s <+: temporariesSince s₀ s' := by
  obtain ⟨k, hk⟩ := Nat.exists_eq_add_of_le h.size_le
  rw [temporariesSince.eq_1 s₀ s', hk, List.range_add, List.map_append, List.filter_append,
    filter_spare_of_extends h]
  exact List.prefix_append _ _

theorem temporariesSince_of_size_succ (h₀ : s₀.size ≤ s.size) (h : s.Extends s')
    (hsize : s'.size = s.size + 1) : temporariesSince s₀ s' =
      temporariesSince s₀ s ++ if s'.Spare s.next then [s.next] else [] := by
  rw [temporariesSince, hsize, List.range_succ, List.map_append, List.filter_append,
    filter_spare_of_extends h]
  by_cases hs : s'.Spare s.next <;> simp_all [next]

theorem temporariesSince_mintTemporary (h : s₀.Extends s) :
    temporariesSince s₀ s.mintTemporary = temporariesSince s₀ s ++ [s.next] := by
  rw [temporariesSince_of_size_succ h.size_le extends_mintTemporary (size_mint _),
    if_pos (spare_next (.refl _))]

/-- What a referent gets is no temporary. -/
theorem temporariesSince_request (h : s₀.Extends s) (r : Referent) (name : Option String) :
    temporariesSince s₀ (s.request r name).2 = temporariesSince s₀ s := by
  have hext := extends_request (s := s) r name
  have hfind := find?_request (s := s) r name
  cases hr : s.find? r with
  | some v => simp only [request, hr]
  | none =>
      simp only [request, hr] at hext hfind ⊢
      have hsize : (s.mintFor r name).size = s.size + 1 := by simp [size, mintFor, mint]
      rw [temporariesSince_of_size_succ h.size_le hext hsize, if_neg fun hs => hs r hfind,
        List.append_nil]

/-- An injective renaming that takes the variable of whatever has one in both `s` and `t` from the
one to the other, and the temporaries that `s` has minted since it was `s₀` to those that `t` has
minted since it was `t₀`, in minting order. -/
structure Renaming (s₀ s t₀ t : VarSupply) (π : Var → Var) : Prop where
  injective : Function.Injective π
  referents : ∀ r x y, s.find? r = some x → t.find? r = some y → π x = y
  temporaries : (temporariesSince s₀ s).map π = temporariesSince t₀ t

end VarSupply

open VarSupply

/-- The supplies of two computations at the same point. -/
structure World (s₀ t₀ : VarSupply) where
  left : VarSupply
  right : VarSupply
  left_extends : s₀.Extends left
  right_extends : t₀.Extends right
  inStep : (temporariesSince s₀ left).length = (temporariesSince t₀ right).length

namespace World

variable {s₀ t₀ : VarSupply} {W W₁ W₂ W₃ : World s₀ t₀} {x x' y y' : Var} {π : Var → Var}

/-- The point before the first step. -/
def start (s₀ t₀ : VarSupply) : World s₀ t₀ where
  left := s₀
  right := t₀
  left_extends := .refl s₀
  right_extends := .refl t₀
  inStep := by rw [temporariesSince_self, temporariesSince_self]

def flip (W : World s₀ t₀) : World t₀ s₀ where
  left := W.right
  right := W.left
  left_extends := W.right_extends
  right_extends := W.left_extends
  inStep := W.inStep.symm

/-- Both computations mint a temporary. -/
def mintTemporary (W : World s₀ t₀) : World s₀ t₀ where
  left := W.left.mintTemporary
  right := W.right.mintTemporary
  left_extends := W.left_extends.trans extends_mintTemporary
  right_extends := W.right_extends.trans extends_mintTemporary
  inStep := by
    rw [temporariesSince_mintTemporary W.left_extends,
      temporariesSince_mintTemporary W.right_extends, List.length_append, List.length_append,
      W.inStep]
    rfl

/-- Both computations ask for the variable of a referent. -/
def request (W : World s₀ t₀) (r : Referent) (name : Option String) : World s₀ t₀ where
  left := (W.left.request r name).2
  right := (W.right.request r name).2
  left_extends := W.left_extends.trans (extends_request r name)
  right_extends := W.right_extends.trans (extends_request r name)
  inStep := by
    rw [temporariesSince_request W.left_extends, temporariesSince_request W.right_extends,
      W.inStep]

/-- The second point comes after the first. -/
structure Extends (W₁ W₂ : World s₀ t₀) : Prop where
  left : W₁.left.Extends W₂.left
  right : W₁.right.Extends W₂.right

theorem Extends.refl (W : World s₀ t₀) : W.Extends W := ⟨.refl _, .refl _⟩

theorem Extends.trans (h : W₁.Extends W₂) (k : W₂.Extends W₃) : W₁.Extends W₃ :=
  ⟨h.left.trans k.left, h.right.trans k.right⟩

theorem extends_mintTemporary : W.Extends W.mintTemporary :=
  ⟨VarSupply.extends_mintTemporary, VarSupply.extends_mintTemporary⟩

theorem extends_request (r : Referent) (name : Option String) : W.Extends (W.request r name) :=
  ⟨VarSupply.extends_request r name, VarSupply.extends_request r name⟩

/-- The variables stand for the same referent, or are temporaries of the same number. -/
inductive Matched (W : World s₀ t₀) : Var → Var → Prop where
  | referent {x y : Var} (r : Referent) :
      W.left.find? r = some x → W.right.find? r = some y → Matched W x y
  | temporary {x y : Var} (k : Nat) :
      (temporariesSince s₀ W.left)[k]? = some x → (temporariesSince t₀ W.right)[k]? = some y →
        Matched W x y

namespace Matched

theorem flip (h : W.Matched x y) : W.flip.Matched y x := by
  cases h with
  | referent r hx hy => exact .referent r hy hx
  | temporary k hx hy => exact .temporary k hy hx

theorem not_temporary {r : Referent} {k : Nat} (hr : W.left.find? r = some x)
    (hk : (temporariesSince s₀ W.left)[k]? = some x) : False :=
  (mem_temporariesSince.1 (List.mem_of_getElem? hk)).2.2 r hr

theorem unique (h : W.Matched x y) (h' : W.Matched x y') : y = y' := by
  cases h with
  | referent r hx hy =>
      cases h' with
      | referent r' hx' hy' =>
          obtain rfl := find?_injective hx hx'
          exact Option.some.inj (hy.symm.trans hy')
      | temporary k hx' hy' => exact (not_temporary hx hx').elim
  | temporary k hx hy =>
      cases h' with
      | referent r hx' hy' => exact (not_temporary hx' hx).elim
      | temporary k' hx' hy' =>
          have hk := (List.getElem?_eq_some_iff.1 hx).1
          obtain rfl := (List.getElem?_inj hk (temporariesSince_nodup _ _)).1 (hx.trans hx'.symm)
          exact Option.some.inj (hy.symm.trans hy')

theorem injective (h : W.Matched x y) (h' : W.Matched x' y) : x = x' := h.flip.unique h'.flip

theorem lt (h : W.Matched x y) : y.id < W.right.size := by
  cases h with
  | referent r hx hy => exact find?_lt hy
  | temporary k hx hy => exact (mem_temporariesSince.1 (List.mem_of_getElem? hy)).1

end Matched

open Classical in
/-- The match of the variable. A variable without a match gets a new name beyond the supply. -/
noncomputable def partner (W : World s₀ t₀) (x : Var) : Var :=
  if h : ∃ y, W.Matched x y then h.choose else ⟨x.id + W.right.size⟩

theorem partner_of_matched (h : W.Matched x y) : W.partner x = y := by
  have hex : ∃ y, W.Matched x y := ⟨y, h⟩
  rw [partner, dif_pos hex]
  exact hex.choose_spec.unique h

theorem partner_of_unmatched (h : ¬∃ y, W.Matched x y) : W.partner x = ⟨x.id + W.right.size⟩ :=
  dif_neg h

/-- New names are not names of matches. -/
theorem partner_ne (hx : ∃ y, W.Matched x y) (hx' : ¬∃ y, W.Matched x' y) :
    W.partner x ≠ W.partner x' := by
  intro he
  obtain ⟨y, hy⟩ := hx
  have hlt := hy.lt
  rw [partner_of_matched hy, partner_of_unmatched hx'] at he
  rw [he] at hlt
  exact absurd hlt (Nat.not_lt.2 (Nat.le_add_left _ _))

theorem partner_injective (W : World s₀ t₀) : Function.Injective W.partner := by
  intro x x' he
  by_cases hx : ∃ y, W.Matched x y <;> by_cases hx' : ∃ y, W.Matched x' y
  · obtain ⟨y, hy⟩ := hx
    obtain ⟨y', hy'⟩ := hx'
    rw [partner_of_matched hy, partner_of_matched hy'] at he
    exact hy.injective (he ▸ hy')
  · exact absurd he (partner_ne hx hx')
  · exact absurd he.symm (partner_ne hx' hx)
  · rw [partner_of_unmatched hx, partner_of_unmatched hx'] at he
    have hid := congrArg Var.id he
    simp only [Nat.add_right_cancel_iff] at hid
    cases x
    cases x'
    exact congrArg Var.mk hid

theorem map_partner_temporaries (W : World s₀ t₀) :
    (temporariesSince s₀ W.left).map W.partner = temporariesSince t₀ W.right := by
  apply List.ext_getElem (by rw [List.length_map, W.inStep])
  intro k hk hk'
  rw [List.length_map] at hk
  rw [List.getElem_map]
  exact partner_of_matched
    (.temporary k (List.getElem?_eq_getElem hk) (List.getElem?_eq_getElem hk'))

/-- The renaming fits the point. -/
abbrev Renames (W : World s₀ t₀) (π : Var → Var) : Prop := Renaming s₀ W.left t₀ W.right π

theorem exists_renaming (W : World s₀ t₀) : ∃ π, W.Renames π :=
  ⟨W.partner, W.partner_injective, fun r _ _ hx hy => partner_of_matched (.referent r hx hy),
    W.map_partner_temporaries⟩

/-- A renaming that fits a later point fits an earlier one. -/
theorem Renames.before (hle : W₁.Extends W₂) (h : W₂.Renames π) : W₁.Renames π := by
  refine ⟨h.injective, fun r x y hx hy => ?_, ?_⟩
  · exact h.referents r x y (hle.left.keeps r x hx) (hle.right.keeps r y hy)
  · have hleft := (temporariesSince_grows s₀ hle.left).map π
    rw [h.temporaries] at hleft
    have hright := temporariesSince_grows t₀ hle.right
    refine List.IsPrefix.eq_of_length (List.prefix_of_prefix_length_le hleft hright ?_) ?_
    · rw [List.length_map, W₁.inStep]
    · rw [List.length_map, W₁.inStep]

end World

/-- Every renaming that fits the point takes the one value to the other. -/
def Alike {α : Type} [Renamable α] {s₀ t₀ : VarSupply} (W : World s₀ t₀) (a b : α) : Prop :=
  ∀ π, W.Renames π → b = rename π a

theorem Alike.later {α : Type} [Renamable α] {s₀ t₀ : VarSupply} {W₁ W₂ : World s₀ t₀} {a b : α}
    (h : Alike W₁ a b) (hle : W₁.Extends W₂) : Alike W₂ a b :=
  fun π hπ => h π (hπ.before hle)

end AffineFlow
