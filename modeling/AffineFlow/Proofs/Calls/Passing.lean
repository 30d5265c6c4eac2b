import AffineFlow.Proofs.Execution.Graph
import AffineFlow.Proofs.Supply.Lowering
import Mathlib.Data.List.Forall2

/-!
# What is passed and what is received

The argument list of a call site and the parameter list of a declaration, part
by part: the scalars that are passed or received, in order, then a copy of each
touched cell, then the cells themselves. Variables are those of the supply at
the end of the lowering, which has all earlier ones.
-/
namespace AffineFlow

open Ssa Lowering

/-- What stands at some place of a list is related to what stands there in the other one. -/
theorem exists_of_forall₂ {α β : Type} {R : α → β → Prop} {l : List α} {l' : List β}
    (h : List.Forall₂ R l l') {j : Nat} {x : α} (hx : l[j]? = some x) :
    ∃ y, l'[j]? = some y ∧ R x y := by
  induction h generalizing j with
  | nil => simp at hx
  | @cons x' y' l l' hxy _ ih =>
      cases j with
      | zero =>
          obtain rfl := Option.some.inj hx
          exact ⟨y', rfl, hxy⟩
      | succ j => exact ih hx

theorem exists_mem_of_forall₂ {α β : Type} {R : α → β → Prop} {l : List α} {l' : List β}
    (h : List.Forall₂ R l l') {x : α} (hx : x ∈ l) : ∃ y ∈ l', R x y := by
  obtain ⟨j, hj⟩ := List.mem_iff_getElem?.1 hx
  obtain ⟨y, hy, hxy⟩ := exists_of_forall₂ h hj
  exact ⟨y, List.mem_of_getElem? hy, hxy⟩

/-- Different keys stay different along a relation that tells them apart. -/
theorem nodup_of_forall₂ {A B C D : Type} {R : A → B → Prop} {f : A → C} {g : B → D} {l : List A}
    {l' : List B} (hR : ∀ a b a' b', R a b → R a' b' → g b = g b' → f a = f a')
    (hn : (l.map f).Nodup) (h : List.Forall₂ R l l') : (l'.map g).Nodup := by
  induction h with
  | nil => exact List.nodup_nil
  | @cons a b l l' hab hrest ih =>
      rw [List.map_cons, List.nodup_cons] at hn ⊢
      refine ⟨fun hm => hn.1 ?_, ih hn.2⟩
      obtain ⟨b', hb', he⟩ := List.mem_map.1 hm
      obtain ⟨a', ha', hab'⟩ := exists_mem_of_forall₂ hrest.flip hb'
      exact List.mem_map.2 ⟨a', ha', hR _ _ _ _ hab' hab he⟩

/-- The form of an integer literal, if it can be expressed. -/
def Ssa.Value.literalForm? : Value → Option AffineForm
  | .int bits n => if bits = 1 then some (.const (if n = 0 then 0 else 1)) else (fit64 n).map .const
  | _ => none

theorem literalForm?_const {a : Value} {e : AffineForm} (h : a.literalForm? = some e) :
    ∃ n, e = .const n := by
  cases a with
  | int bits n =>
      simp only [Value.literalForm?] at h
      split at h
      next => exact ⟨_, (Option.some.inj h).symm⟩
      next =>
        obtain ⟨m, -, rfl⟩ := Option.map_eq_some_iff.1 h
        exact ⟨m, rfl⟩
  | null | undef bits | inst id | arg index | global id | func id => cases h

/-- The elements that are picked, in order, each with its index; the first one of the list has
index `k`. -/
inductive Picks {α : Type} (P : α → Nat → Prop) : Nat → List α → List (α × Nat) → Prop
  | nil {k : Nat} : Picks P k [] []
  | take {k : Nat} {x : α} {xs : List α} {taken : List (α × Nat)} : P x k →
      Picks P (k + 1) xs taken → Picks P k (x :: xs) ((x, k) :: taken)
  | skip {k : Nat} {x : α} {xs : List α} {taken : List (α × Nat)} : ¬P x k →
      Picks P (k + 1) xs taken → Picks P k (x :: xs) taken

namespace Picks

variable {α β : Type} {P : α → Nat → Prop} {Q : β → Nat → Prop} {k : Nat} {xs : List α}
  {ys : List β} {taken : List (α × Nat)} {taken' : List (β × Nat)}

theorem mem_iff (h : Picks P k xs taken) {p : α × Nat} :
    p ∈ taken ↔ p ∈ xs.zipIdx k ∧ P p.1 p.2 := by
  induction h with
  | nil => simp
  | take hP _ ih =>
      rw [List.zipIdx_cons, List.mem_cons, List.mem_cons, ih]
      constructor
      · rintro (rfl | ⟨hp, hq⟩)
        · exact ⟨.inl rfl, hP⟩
        · exact ⟨.inr hp, hq⟩
      · rintro ⟨rfl | hp, hq⟩
        · exact .inl rfl
        · exact .inr ⟨hp, hq⟩
  | skip hP _ ih =>
      rw [List.zipIdx_cons, List.mem_cons, ih]
      constructor
      · intro hboth
        obtain ⟨hp, hq⟩ := hboth
        exact ⟨.inr hp, hq⟩
      · rintro ⟨rfl | hp, hq⟩
        · exact absurd hq hP
        · exact ⟨hp, hq⟩

theorem mem_indices_iff (h : Picks P 0 xs taken) {i : Nat} {x : α} (hx : xs[i]? = some x) :
    i ∈ taken.map (·.2) ↔ P x i := by
  constructor
  · intro hi
    obtain ⟨p, hp, rfl⟩ := List.mem_map.1 hi
    obtain ⟨hzip, hP⟩ := h.mem_iff.1 hp
    rw [Option.some.inj (hx.symm.trans (List.mem_zipIdx_iff_getElem?.1 hzip))]
    exact hP
  · intro hP
    have hp : (x, i) ∈ taken := h.mem_iff.2 ⟨List.mem_zipIdx_iff_getElem?.2 hx, hP⟩
    exact List.mem_map_of_mem hp

theorem nodup (h : Picks P k xs taken) : (taken.map (·.2)).Nodup := by
  induction h with
  | nil => exact List.nodup_nil
  | take _ hrest ih =>
      refine List.nodup_cons.2 ⟨fun hm => ?_, ih⟩
      obtain ⟨p, hp, he⟩ := List.mem_map.1 hm
      have hle := List.le_snd_of_mem_zipIdx (hrest.mem_iff.1 hp).1
      exact absurd (he ▸ hle) (Nat.not_succ_le_self _)
  | skip _ _ ih => exact ih

/-- Lists of the same length of which the same places are picked. -/
theorem indices_eq (h : Picks P k xs taken) (h' : Picks Q k ys taken')
    (hlen : xs.length = ys.length)
    (hsame : ∀ i x y, xs[i]? = some x → ys[i]? = some y → (P x (k + i) ↔ Q y (k + i))) :
    taken.map (·.2) = taken'.map (·.2) := by
  induction h generalizing ys taken' with
  | nil =>
      cases h' with
      | nil => rfl
      | take _ _ => simp at hlen
      | skip _ _ => simp at hlen
  | @take k x xs taken hP _ ih =>
      cases h' with
      | nil => simp at hlen
      | take _ hrest' =>
          have htail := ih hrest' (Nat.succ.inj hlen) fun i x y hx hy => by
            have := hsame (i + 1) x y hx hy
            rwa [← Nat.add_assoc, Nat.add_right_comm] at this
          rw [List.map_cons, List.map_cons, htail]
      | skip hQ _ => exact absurd ((hsame 0 x _ rfl rfl).1 hP) hQ
  | @skip k x xs taken hP _ ih =>
      cases h' with
      | nil => simp at hlen
      | take hQ _ => exact absurd ((hsame 0 x _ rfl rfl).2 hQ) hP
      | skip _ hrest' =>
          exact ih hrest' (Nat.succ.inj hlen) fun i x y hx hy => by
            have := hsame (i + 1) x y hx hy
            rwa [← Nat.add_assoc, Nat.add_right_comm] at this

end Picks

variable {F : VarSupply} {s s' : Session}

namespace VarSupply

/-- The array variable of a cell. -/
def IsCell (F : VarSupply) (c : Cell) (v : TypedVar) : Prop :=
  v.2 = .arr ∧ F.find? (.cell c) = some v.1

/-- An array variable of its own, to which the array of the cell is copied. -/
def CopiedFrom (F : VarSupply) (stmts : List Stmt) (c : Cell) (v : TypedVar) : Prop :=
  v.2 = .arr ∧ F.Spare v.1 ∧
    ∃ array, F.find? (.cell c) = some array ∧ .assign v.1 (.ofVar array) ∈ stmts

/-- An array variable of its own, from which the array of the cell is copied. -/
def CopiedTo (F : VarSupply) (stmts : List Stmt) (c : Cell) (v : TypedVar) : Prop :=
  v.2 = .arr ∧ F.Spare v.1 ∧
    ∃ array, F.find? (.cell c) = some array ∧ .assign array (.ofVar v.1) ∈ stmts

variable {stmts stmts' : List Stmt} {c : Cell} {v : TypedVar}

theorem CopiedFrom.mono (h : F.CopiedFrom stmts c v) (hsub : stmts ⊆ stmts') :
    F.CopiedFrom stmts' c v := by
  obtain ⟨hty, hspare, array, hfind, hmem⟩ := h
  exact ⟨hty, hspare, array, hfind, hsub hmem⟩

theorem CopiedTo.mono (h : F.CopiedTo stmts c v) (hsub : stmts ⊆ stmts') :
    F.CopiedTo stmts' c v := by
  obtain ⟨hty, hspare, array, hfind, hmem⟩ := h
  exact ⟨hty, hspare, array, hfind, hsub hmem⟩

end VarSupply

namespace Scope

variable {sc : Scope}

/-- What the variable of a passed argument is, or what the statements before the call make it. -/
def Carries (sc : Scope) (F : VarSupply) (stmts : List Stmt) (a : Value) (v : TypedVar) : Prop :=
  if a.isLiteral then
    F.Spare v.1 ∧ match a.literalForm? with
      | some e => .assign v.1 e ∈ stmts ∧ v.2 = .int
      | none => .havoc v.1 ∈ stmts ∧ v.2 = .unknown
  else sc.Denotes F a v.1 ∧ ∃ ty, sc.typeOf a = .ok ty ∧ v.2 = .ofTy ty

theorem Carries.mono {stmts stmts' : List Stmt} {a : Value} {v : TypedVar}
    (hc : sc.Carries F stmts a v) (hsub : stmts ⊆ stmts') : sc.Carries F stmts' a v := by
  unfold Carries at hc ⊢
  split at hc
  next hl =>
    rw [if_pos hl]
    refine ⟨hc.1, ?_⟩
    have hc' := hc.2
    cases hform : a.literalForm? with
    | some e =>
        rw [hform] at hc'
        exact ⟨hsub hc'.1, hc'.2⟩
    | none =>
        rw [hform] at hc'
        exact ⟨hsub hc'.1, hc'.2⟩
  next hl =>
    rw [if_neg hl]
    exact hc

/-- The temporary of a literal is set to its form. -/
theorem literalTemporary_spec {a : Value} {v : TypedVar} {stmts : List Stmt}
    (h : Yields (sc.literalTemporary a) s (v, stmts) s') (hF : s'.supply.Extends F) :
    F.Spare v.1 ∧ s.supply.size ≤ v.1.id ∧ stmts = [Write.stmt (v.1, a.literalForm?)] ∧
      v.2 = if a.literalForm?.isSome then .int else .unknown := by
  simp only [literalTemporary, yields_bind] at h
  obtain ⟨tmp, s₁, htmp, h⟩ := h
  have hid : s.supply.size ≤ tmp.id := by
    obtain ⟨rfl, -⟩ := yields_temporary.1 htmp
    exact Nat.le_refl _
  have hset : s' = s₁ ∧ v.1 = tmp ∧ stmts = [Write.stmt (tmp, a.literalForm?)] ∧
      v.2 = if a.literalForm?.isSome then .int else .unknown := by
    cases a with
    | int bits n =>
        simp only [Value.toInt?, Option.isSome_some, if_true, yields_bind] at h
        obtain ⟨e?, s₂, hexpress, h⟩ := h
        have hform : e? = (Value.int bits n).literalForm? ∧ s₂ = s₁ := by
          simp only [express] at hexpress
          simp only [Value.literalForm?]
          split at hexpress
          next hb => rw [if_pos hb]; exact yields_pure.1 hexpress
          next hb => rw [if_neg hb]; exact yields_pure.1 hexpress
        obtain ⟨rfl, rfl⟩ := hform
        cases hf : (Value.int bits n).literalForm? with
        | some e =>
            rw [hf] at h
            obtain ⟨he, rfl⟩ := yields_pure.1 h
            obtain ⟨rfl, rfl⟩ := Prod.mk.inj he
            exact ⟨rfl, rfl, rfl, rfl⟩
        | none =>
            rw [hf] at h
            obtain ⟨he, rfl⟩ := yields_pure.1 h
            obtain ⟨rfl, rfl⟩ := Prod.mk.inj he
            exact ⟨rfl, rfl, rfl, rfl⟩
    | null | undef bits | inst id | arg index | global id | func id =>
        obtain ⟨he, rfl⟩ := yields_pure.1 h
        obtain ⟨rfl, rfl⟩ := Prod.mk.inj he
        exact ⟨rfl, rfl, rfl, rfl⟩
  obtain ⟨rfl, rfl, hstmts, hty⟩ := hset
  exact ⟨temporary_spec htmp hF, hid, hstmts, hty⟩

theorem passed_spec {a : Value} {v : TypedVar} {stmts : List Stmt}
    (h : Yields (sc.passed a) s (v, stmts) s') (hF : s'.supply.Extends F) :
    sc.Carries F stmts a v := by
  unfold passed at h
  unfold Carries
  split at h
  next hl =>
    rw [if_pos hl]
    obtain ⟨hspare, -, rfl, hty⟩ := literalTemporary_spec h hF
    refine ⟨hspare, ?_⟩
    cases hform : a.literalForm? with
    | some e =>
        rw [hform] at hty
        exact ⟨List.mem_singleton_self _, hty⟩
    | none =>
        rw [hform] at hty
        exact ⟨List.mem_singleton_self _, hty⟩
  next hl =>
    rw [if_neg hl]
    simp only [yields_bind, yields_ofExcept, yields_pure] at h
    obtain ⟨ty, _, ⟨hty, rfl⟩, x, _, hx, he, rfl⟩ := h
    obtain ⟨rfl, rfl⟩ := Prod.mk.inj he
    exact ⟨(variableOf_spec hx hF).2, ty, hty, rfl⟩

/-- The scalars of a call site are the passed arguments, in order. -/
theorem passScalars_spec {args : List Value} {vs : List TypedVar} {stmts : List Stmt} (k : Nat)
    (h : Yields (sc.passScalars args) s (vs, stmts) s') (hF : s'.supply.Extends F) :
    ∃ taken, Picks (fun a _ => sc.isPassed a = .ok true) k args taken ∧
      List.Forall₂ (fun p v => sc.Carries F stmts p.1 v) taken vs := by
  induction args generalizing s vs stmts k with
  | nil =>
      obtain ⟨he, -⟩ := yields_pure.1 h
      obtain ⟨rfl, rfl⟩ := Prod.mk.inj he
      exact ⟨[], .nil, .nil⟩
  | cons arg rest ih =>
      simp only [passScalars, yields_bind, yields_ofExcept] at h
      obtain ⟨isPassed, _, ⟨hpassed, rfl⟩, h⟩ := h
      cases isPassed with
      | true =>
          simp only [if_true, yields_bind, yields_pure] at h
          obtain ⟨⟨v, setup⟩, s₁, hv, ⟨vs', stmts'⟩, s₂, hrest, he, rfl⟩ := h
          obtain ⟨rfl, rfl⟩ := Prod.mk.inj he
          obtain ⟨taken, hpicks, hall⟩ := ih (k + 1) hrest
          have hgrown := sc.passScalars_grows rest _ _ _ hrest
          have hcarries := passed_spec hv (hgrown.trans hF)
          refine ⟨(arg, k) :: taken, .take hpassed hpicks, .cons ?_ ?_⟩
          · exact hcarries.mono (List.subset_append_left _ _)
          · exact hall.imp fun p v hc => hc.mono (List.subset_append_right _ _)
      | false =>
          obtain ⟨taken, hpicks, hall⟩ := ih (k + 1) h
          exact ⟨taken, .skip (by simp [hpassed]) hpicks, hall⟩

/-- The scalars of a declaration are the received parameters, in order. -/
theorem scalarParams_spec {params : List Param} {vs : List TypedVar} {k : Nat}
    (h : Yields (sc.scalarParams k params) s vs s') (hF : s'.supply.Extends F) :
    ∃ taken, Picks (fun p i => sc.isParamReceived i p.ty = .ok true) k params taken ∧
      List.Forall₂ (fun p v => F.find? (.value sc.funcId (.arg p.2)) = some v.1 ∧
        v.2 = .ofTy p.1.ty) taken vs := by
  induction params generalizing s vs k with
  | nil =>
      obtain ⟨rfl, -⟩ := yields_pure.1 h
      exact ⟨[], .nil, .nil⟩
  | cons param rest ih =>
      simp only [scalarParams, yields_bind, yields_ofExcept] at h
      obtain ⟨received, _, ⟨hreceived, rfl⟩, h⟩ := h
      cases received with
      | true =>
          simp only [if_true, yields_bind, yields_pure] at h
          obtain ⟨v, s₁, hv, vs', s₂, hrest, rfl, rfl⟩ := h
          obtain ⟨taken, hpicks, hall⟩ := ih hrest
          have hgrown := sc.scalarParams_grows (k + 1) rest _ _ _ hrest
          obtain ⟨-, r, hr, hfind⟩ := variableOf_spec hv (hgrown.trans hF)
          obtain rfl := Option.some.inj hr
          exact ⟨(param, k) :: taken, .take hreceived hpicks, .cons ⟨hfind, rfl⟩ hall⟩
      | false =>
          obtain ⟨taken, hpicks, hall⟩ := ih h
          exact ⟨taken, .skip (by simp [hreceived]) hpicks, hall⟩

theorem cellVariables_spec {cells : List Cell} {vs : List TypedVar}
    (h : Yields (cellVariables cells) s vs s') (hF : s'.supply.Extends F) :
    List.Forall₂ (F.IsCell ·) cells vs := by
  induction cells generalizing s vs with
  | nil =>
      obtain ⟨rfl, -⟩ := yields_pure.1 h
      exact .nil
  | cons c rest ih =>
      simp only [cellVariables, yields_bind, yields_pure] at h
      obtain ⟨array, s₁, harray, vs', s₂, hrest, rfl, rfl⟩ := h
      have hgrown := cellVariables_grows rest _ _ _ hrest
      exact .cons ⟨rfl, cellVariable_spec harray (hgrown.trans hF)⟩ (ih hrest)

end Scope

/-- A copy of a cell, and the variable of the cell. -/
structure CellCopy where
  copy : Var
  array : Var

namespace CellCopy

def passed (p : CellCopy) : TypedVar := (p.copy, .arr)

/-- Copies the cell and gives it up. -/
def handOver (p : CellCopy) : List Stmt := [.assign p.copy (.ofVar p.array), .havoc p.array]

/-- Puts the copy into the cell. -/
def takeOver (p : CellCopy) : Stmt := .assign p.array (.ofVar p.copy)

end CellCopy

/-- The copies are those of the cells, in order. They are temporaries of their own, numbered from
`size` on. -/
structure VarSupply.Copies (F : VarSupply) (size : Nat) (cells : List Cell)
    (copies : List CellCopy) : Prop where
  ofCells : List.Forall₂ (fun c p => F.find? (.cell c) = some p.array) cells copies
  spare : ∀ p ∈ copies, F.Spare p.copy
  new : ∀ p ∈ copies, size ≤ p.copy.id
  nodup : (copies.map (·.copy)).Nodup

section Copies

variable {cells : List Cell} {copies : List CellCopy} {vs : List TypedVar} {stmts : List Stmt}
  {size : Nat}

namespace VarSupply.Copies

theorem nil : F.Copies size [] [] where
  ofCells := .nil
  spare := List.forall_mem_nil _
  new := List.forall_mem_nil _
  nodup := List.nodup_nil

/-- A cell and its copy before all the others. -/
theorem cons {c : Cell} {p : CellCopy} (h : F.Copies (p.copy.id + 1) cells copies)
    (hfind : F.find? (.cell c) = some p.array) (hspare : F.Spare p.copy)
    (hle : size ≤ p.copy.id) : F.Copies size (c :: cells) (p :: copies) where
  ofCells := .cons hfind h.ofCells
  spare := List.forall_mem_cons.2 ⟨hspare, h.spare⟩
  new := by
    refine List.forall_mem_cons.2 ⟨hle, fun q hq => ?_⟩
    exact Nat.le_trans hle (Nat.le_of_succ_le (h.new q hq))
  nodup := by
    refine List.nodup_cons.2 ⟨fun hm => ?_, h.nodup⟩
    obtain ⟨q, hq, he⟩ := List.mem_map.1 hm
    exact absurd (he ▸ h.new q hq) (Nat.not_succ_le_self _)

/-- What is true of the cells and their copies, knowing that the copies are among these. -/
theorem imp (h : F.Copies size cells copies) {R : Cell → CellCopy → Prop}
    (hR : ∀ c, ∀ p ∈ copies, F.find? (.cell c) = some p.array → R c p) :
    List.Forall₂ R cells copies := by
  have hmem := (List.forall₂_and_left copies cells).2 ⟨fun _ hp => hp, h.ofCells.flip⟩
  exact (hmem.imp fun p c hp => hR c p hp.1 hp.2).flip

end VarSupply.Copies

/-- A temporary for the copy of a cell. -/
theorem cellCopy_fresh {c : Cell} {array copy : Var} {s₁ s₂ : Session}
    (harray : Yields (cellVariable c) s array s₁) (hcopy : Yields temporary s₁ copy s₂)
    (hF : s₂.supply.Extends F) : F.find? (.cell c) = some array ∧ F.Spare copy ∧
      s.supply.size ≤ copy.id ∧ s₂.supply.size = copy.id + 1 := by
  refine ⟨cellVariable_spec harray ((Grows.temporary _ _ _ hcopy).trans hF),
    temporary_spec hcopy hF, ?_⟩
  have hle := (cellVariable_grows c _ _ _ harray).size_le
  obtain ⟨rfl, rfl⟩ := yields_temporary.1 hcopy
  exact ⟨hle, VarSupply.size_mint _⟩

theorem passCopies_laid (h : Yields (Scope.passCopies cells) s (vs, stmts) s')
    (hF : s'.supply.Extends F) : ∃ copies, F.Copies s.supply.size cells copies ∧
      vs = copies.map (·.passed) ∧ stmts = copies.flatMap (·.handOver) := by
  induction cells generalizing s vs stmts with
  | nil =>
      obtain ⟨he, -⟩ := yields_pure.1 h
      obtain ⟨rfl, rfl⟩ := Prod.mk.inj he
      exact ⟨[], .nil, rfl, rfl⟩
  | cons c rest ih =>
      simp only [Scope.passCopies, yields_bind, yields_pure] at h
      obtain ⟨array, s₁, harray, copy, s₂, hcopy, ⟨vs', stmts'⟩, s₃, hrest, he, rfl⟩ := h
      obtain ⟨rfl, rfl⟩ := Prod.mk.inj he
      have hgrown := (Scope.passCopies_grows rest _ _ _ hrest).trans hF
      obtain ⟨hfind, hspare, hle, hsize⟩ := cellCopy_fresh harray hcopy hgrown
      obtain ⟨copies, hcopies, rfl, rfl⟩ := ih hrest
      rw [hsize] at hcopies
      exact ⟨⟨copy, array⟩ :: copies, hcopies.cons hfind hspare hle, rfl, rfl⟩

theorem receiveCopies_laid (h : Yields (receiveCopies cells) s (vs, stmts) s')
    (hF : s'.supply.Extends F) : ∃ copies, F.Copies s.supply.size cells copies ∧
      vs = copies.map (·.passed) ∧ stmts = copies.map (·.takeOver) := by
  induction cells generalizing s vs stmts with
  | nil =>
      obtain ⟨he, -⟩ := yields_pure.1 h
      obtain ⟨rfl, rfl⟩ := Prod.mk.inj he
      exact ⟨[], .nil, rfl, rfl⟩
  | cons c rest ih =>
      simp only [receiveCopies, yields_bind, yields_pure] at h
      obtain ⟨array, s₁, harray, copy, s₂, hcopy, ⟨vs', stmts'⟩, s₃, hrest, he, rfl⟩ := h
      obtain ⟨rfl, rfl⟩ := Prod.mk.inj he
      have hgrown := (Scope.receiveCopies_grows rest _ _ _ hrest).trans hF
      obtain ⟨hfind, hspare, hle, hsize⟩ := cellCopy_fresh harray hcopy hgrown
      obtain ⟨copies, hcopies, rfl, rfl⟩ := ih hrest
      rw [hsize] at hcopies
      exact ⟨⟨copy, array⟩ :: copies, hcopies.cons hfind hspare hle, rfl, rfl⟩

theorem passCopies_spec (h : Yields (Scope.passCopies cells) s (vs, stmts) s')
    (hF : s'.supply.Extends F) : List.Forall₂ (F.CopiedFrom stmts ·) cells vs := by
  obtain ⟨copies, hcopies, rfl, rfl⟩ := passCopies_laid h hF
  refine List.forall₂_map_right_iff.2 (hcopies.imp fun c p hp hfind => ?_)
  exact ⟨rfl, hcopies.spare p hp, p.array, hfind,
    List.mem_flatMap.2 ⟨p, hp, List.mem_cons_self⟩⟩

theorem receiveCopies_spec (h : Yields (receiveCopies cells) s (vs, stmts) s')
    (hF : s'.supply.Extends F) : List.Forall₂ (F.CopiedTo stmts ·) cells vs := by
  obtain ⟨copies, hcopies, rfl, rfl⟩ := receiveCopies_laid h hF
  refine List.forall₂_map_right_iff.2 (hcopies.imp fun c p hp hfind => ?_)
  exact ⟨rfl, hcopies.spare p hp, p.array, hfind, List.mem_map_of_mem hp⟩

end Copies

end AffineFlow
