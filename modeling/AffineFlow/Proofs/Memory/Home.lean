import AffineFlow.Proofs.Supply.Lowering

/-!
# Where the contents of a cell are

A cell that stands for a single tracked object has its contents in the variable
of that object, any other cell in its array. Loads read the contents there.
-/
namespace AffineFlow

open Ssa Lowering

namespace Scope

variable {sc : Scope} {F : VarSupply} {s s' : Session} {c : Cell} {o o' : Value} {x y : Var}
  {code : List Stmt}

/-- The object is the only one in the cell, and it has a variable. -/
structure HeldBy (sc : Scope) (c : Cell) (o : Value) : Prop where
  singleton : sc.oracle.singleton? c = some o
  not_literal : o.isLiteral = false
  tracked : sc.tracks o = .ok true

theorem HeldBy.unique (h : sc.HeldBy c o) (h' : sc.HeldBy c o') : o = o' :=
  Option.some.inj (h.singleton.symm.trans h'.singleton)

/-- The variable that has the contents of the cell. -/
inductive Home (sc : Scope) (F : VarSupply) (c : Cell) : Var → Prop
  | object {o : Value} {x : Var} : sc.HeldBy c o → sc.Denotes F o x → Home sc F c x
  | array {x : Var} : (∀ o, ¬sc.HeldBy c o) → F.find? (.cell c) = some x → Home sc F c x

theorem Denotes.unique (h : sc.Denotes F o x) (h' : sc.Denotes F o y) : x = y := by
  obtain ⟨r, hr, hx⟩ := h
  obtain ⟨r', hr', hy⟩ := h'
  obtain rfl := Option.some.inj (hr.symm.trans hr')
  exact Option.some.inj (hx.symm.trans hy)

/-- The contents of a cell are in one place. -/
theorem Home.unique (h : sc.Home F c x) (h' : sc.Home F c y) : x = y := by
  cases h with
  | object hheld hx =>
      cases h' with
      | object hheld' hy => exact hx.unique (hheld.unique hheld' ▸ hy)
      | array hnone _ => exact absurd hheld (hnone _)
  | array hnone hx =>
      cases h' with
      | object hheld _ => exact absurd hheld (hnone _)
      | array _ hy => exact Option.some.inj (hx.symm.trans hy)

/-- What an object holds is in the variable of the object. -/
theorem Home.denotes (h : sc.Home F c x) (hheld : sc.HeldBy c o) : sc.Denotes F o x := by
  cases h with
  | object hheld' hx => exact hheld.unique hheld' ▸ hx
  | array hnone _ => exact absurd hheld (hnone o)

/-- Different values have different variables. -/
theorem referent?_injective {r : Referent} (h : sc.referent? o = some r)
    (h' : sc.referent? o' = some r) : o = o' := by
  cases o with
  | inst id => cases o' <;> grind [referent?]
  | arg index => cases o' <;> grind [referent?]
  | global id => cases o' <;> grind [referent?]
  | func id => cases o' <;> grind [referent?]
  | int bits n => cases h
  | null => cases h
  | undef bits => cases h

/-- Two values that have the same variable are the same value. -/
theorem Denotes.value_unique (h : sc.Denotes F o x)
    (h' : sc.Denotes F o' x) : o = o' := by
  obtain ⟨r, hr, hx⟩ := h
  obtain ⟨r', hr', hx'⟩ := h'
  obtain rfl := VarSupply.find?_injective hx hx'
  exact referent?_injective hr hr'

/-- No value stands for the array of a cell. -/
theorem referent?_ne_cell (o : Value) (c : Cell) : sc.referent? o ≠ some (.cell c) := by
  cases o <;> simp [referent?]

theorem Denotes.ne_cell (h : sc.Denotes F o x) (hy : F.find? (.cell c) = some y) : x ≠ y := by
  intro he
  obtain ⟨r, hr, hx⟩ := h
  obtain rfl := VarSupply.find?_injective hx (he ▸ hy)
  exact referent?_ne_cell o c hr

theorem Denotes.ne_spare (h : sc.Denotes F o x) (hy : F.Spare y) : x ≠ y := by
  intro he
  obtain ⟨r, -, hx⟩ := h
  exact hy r (he ▸ hx)

theorem objectVariable?_spec {object? : Option Var} (h : Yields (sc.objectVariable? c) s object? s')
    (hF : s'.supply.Extends F) :
    (∃ o x, object? = some x ∧ sc.HeldBy c o ∧ sc.Denotes F o x) ∨
      object? = none ∧ ∀ o, ¬sc.HeldBy c o := by
  unfold objectVariable? at h
  split at h
  next hnone =>
    obtain ⟨rfl, -⟩ := yields_pure.1 h
    exact .inr ⟨rfl, fun o ho => nomatch hnone.symm.trans ho.singleton⟩
  next object hobject =>
  have hsame : ∀ o, sc.HeldBy c o → o = object := fun o ho =>
    Option.some.inj (ho.singleton.symm.trans hobject)
  split at h
  next hliteral =>
    obtain ⟨rfl, -⟩ := yields_pure.1 h
    refine .inr ⟨rfl, fun o ho => ?_⟩
    obtain rfl := hsame o ho
    cases hliteral.symm.trans ho.not_literal
  next hliteral =>
  simp only [yields_bind, yields_ofExcept] at h
  obtain ⟨tracked, _, ⟨htracked, rfl⟩, h⟩ := h
  cases tracked with
  | true =>
      simp only [if_true, yields_bind, yields_pure] at h
      obtain ⟨x, _, hx, rfl, rfl⟩ := h
      exact .inl ⟨object, x, rfl, ⟨hobject, Bool.eq_false_iff.2 hliteral, htracked⟩,
        (variableOf_spec hx hF).2⟩
  | false =>
      obtain ⟨rfl, -⟩ := yields_pure.1 h
      refine .inr ⟨rfl, fun o ho => ?_⟩
      obtain rfl := hsame o ho
      cases htracked.symm.trans ho.tracked

/-- The statement takes the value of a variable from the contents at `x`. -/
def ReadsAt (dst x : Var) (stmt : Stmt) : Prop :=
  stmt = .assign dst (.ofVar x) ∨ ∃ index size, stmt = .arrayLoad dst x index size

/-- A statement on a cell is about its object, where that has the contents, and about the array of
the cell otherwise. -/
theorem accessCode_spec (onObject onArray : Var → Stmt)
    (h : Yields (do
      match ← sc.objectVariable? c with
      | some object => return [onObject object]
      | none => return [onArray (← Lowering.cellVariable c)]) s code s')
    (hF : s'.supply.Extends F) : ∃ x, sc.Home F c x ∧
      ((∃ o, sc.HeldBy c o) ∧ code = [onObject x] ∨
        (∀ o, ¬sc.HeldBy c o) ∧ code = [onArray x]) := by
  simp only [yields_bind] at h
  obtain ⟨object?, s₁, hobject, h⟩ := h
  cases object? with
  | some x =>
      obtain ⟨rfl, rfl⟩ := yields_pure.1 h
      rcases objectVariable?_spec hobject hF with ⟨o, x', he, hheld, hx⟩ | ⟨he, -⟩
      · obtain rfl := Option.some.inj he
        exact ⟨x, .object hheld hx, .inl ⟨⟨o, hheld⟩, rfl⟩⟩
      · cases he
  | none =>
      simp only [yields_bind, yields_pure] at h
      obtain ⟨array, _, harray, rfl, rfl⟩ := h
      have hgrown := (cellVariable_grows c _ _ _ harray).trans hF
      rcases objectVariable?_spec hobject hgrown with ⟨o, x, he, -⟩ | ⟨-, hnone⟩
      · cases he
      · exact ⟨array, .array hnone (cellVariable_spec harray hF), .inr ⟨hnone, rfl⟩⟩

theorem readCode_spec {dst : Var} {index : AffineForm} {size : Nat}
    (h : Yields (sc.readCode dst c index size) s code s') (hF : s'.supply.Extends F) :
    ∃ x stmt, sc.Home F c x ∧ code = [stmt] ∧ ReadsAt dst x stmt := by
  obtain ⟨x, hhome, ⟨-, rfl⟩ | ⟨-, rfl⟩⟩ :=
    accessCode_spec (fun x => .assign dst (.ofVar x)) (fun x => .arrayLoad dst x index size) h hF
  · exact ⟨x, _, hhome, rfl, .inl rfl⟩
  · exact ⟨x, _, hhome, rfl, .inr ⟨index, size, rfl⟩⟩

/-- A load whose address can be expressed reads the contents of its cell; any other one does not
read at all. -/
theorem loadCode_spec {id : InstId} {ty : Ty} {ptr : Value}
    (h : Yields (sc.loadCode id ty ptr) s code s') (hF : s'.supply.Extends F) :
    (∃ c dst x stmt, sc.cellAt? ptr = some c ∧ sc.Home F c x ∧ code = [stmt] ∧
      ReadsAt dst x stmt) ∨ ∀ stmt ∈ code, ∃ v, stmt = .havoc v := by
  have forgets : ∀ t t', Yields (sc.forgetResult id) t code t' →
      ∀ stmt ∈ code, ∃ v, stmt = .havoc v := by
    intro t t' h stmt hs
    rcases yields_onlyIf.1 h with ⟨-, h⟩ | ⟨-, rfl, -⟩
    · simp only [yields_bind, yields_pure] at h
      obtain ⟨v, _, -, rfl, rfl⟩ := h
      unfold forget at hs
      split at hs
      · exact ⟨v, List.mem_singleton.1 hs⟩
      · cases hs
    · cases hs
  unfold loadCode at h
  split at h
  next =>
    simp only [yields_bind] at h
    obtain ⟨index, s₁, hindex, h⟩ := h
    split at h
    next c index hc =>
      simp only [yields_bind] at h
      obtain ⟨dst, s₂, -, h⟩ := h
      obtain ⟨x, stmt, hhome, hcode, hreads⟩ := readCode_spec h hF
      exact .inl ⟨c, dst, x, stmt, hc, hhome, hcode, hreads⟩
    next => exact .inr (forgets _ _ h)
  next => exact .inr (forgets _ _ h)

end Scope

end AffineFlow
