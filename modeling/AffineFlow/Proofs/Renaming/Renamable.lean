import AffineFlow.Proofs.Forms.Canonical
import AffineFlow.Lowering.Assembly
import Mathlib.Logic.Function.Basic

/-!
# Renaming variables

`rename π x` is `x` with every variable replaced as `π` says. On affine forms an
injective renaming is read off the functions: the value of the renamed form is
the value of the form where every variable has the value of its new name. So
whatever is computed from the function of a form commutes with renaming.
-/
namespace AffineFlow

open Ssa

/-- What is made from variables. -/
class Renamable (α : Type) where
  rename : (Var → Var) → α → α

export Renamable (rename)

namespace Renamable

/-- Without variables, nothing is renamed. -/
@[reducible] def fixed {α : Type} : Renamable α := ⟨fun _ a => a⟩

instance : Renamable Bool := fixed
instance : Renamable Value := fixed
instance : Renamable VarType := fixed
instance : Renamable IndexStep := fixed
instance : Renamable Block := fixed

instance : Renamable Var := ⟨fun π v => π v⟩

instance {α β : Type} [Renamable α] [Renamable β] : Renamable (α × β) :=
  ⟨fun π p => (rename π p.1, rename π p.2)⟩

instance {α : Type} [Renamable α] : Renamable (Option α) := ⟨fun π => Option.map (rename π)⟩

instance {α : Type} [Renamable α] : Renamable (List α) := ⟨fun π => List.map (rename π)⟩

/-- The renamed terms are put in order again. -/
instance : Renamable AffineForm :=
  ⟨fun π e => (e.terms.map fun t => (π t.1, t.2)).foldl .addTerm (.const e.constant)⟩

instance : Renamable Constraint := ⟨fun π c => ⟨rename π c.form, c.kind⟩⟩

instance : Renamable Guard where
  rename π
    | .constraint c => .constraint (rename π c)
    | .var v => .var (π v)

instance : Renamable CallSite :=
  ⟨fun π site => ⟨rename π site.ret, π site.func, rename π site.args⟩⟩

instance : Renamable Stmt where
  rename π
    | .assign lhs rhs => .assign (π lhs) (rename π rhs)
    | .havoc v => .havoc (π v)
    | .assume c => .assume (rename π c)
    | .arith op lhs a b => .arith op (π lhs) (rename π a) (rename π b)
    | .bitwise op lhs a b => .bitwise op (π lhs) (rename π a) (rename π b)
    | .select lhs guard onTrue onFalse =>
        .select (π lhs) (rename π guard) (rename π onTrue) (rename π onFalse)
    | .arrayLoad lhs array index elemSize =>
        .arrayLoad (π lhs) (π array) (rename π index) elemSize
    | .arrayStore array index value elemSize =>
        .arrayStore (π array) (rename π index) (rename π value) elemSize
    | .arrayInit array values => .arrayInit (π array) values
    | .assumeArray array value => .assumeArray (π array) value
    | .call site => .call (rename π site)
    | .ret v type => .ret (π v) type
    | .unreachable => .unreachable

instance : Renamable Declaration :=
  ⟨fun π decl => ⟨π decl.name, decl.ret, rename π decl.params⟩⟩

instance : Renamable EdgeCode := ⟨fun π edge => { edge with stmts := rename π edge.stmts }⟩

instance : Renamable Leaving where
  rename π
    | .returns => .returns
    | .stuck => .stuck
    | .jumps target => .jumps target
    | .branches edges => .branches (rename π edges)

instance : Renamable BlockCode :=
  ⟨fun π code => ⟨code.source, rename π code.stmts, rename π code.leaving⟩⟩

end Renamable

/-- Renaming leaves the values as they are. -/
class Renamable.Fixed (α : Type) [Renamable α] : Prop where
  rename_eq : ∀ π (a : α), rename π a = a

namespace Renamable

instance : Fixed Bool := ⟨fun _ _ => rfl⟩
instance : Fixed VarType := ⟨fun _ _ => rfl⟩
instance : Fixed Block := ⟨fun _ _ => rfl⟩
instance : Fixed (List IndexStep) := ⟨fun _ => List.map_id'⟩

end Renamable

section Containers

variable {α β : Type} [Renamable α] [Renamable β] (π : Var → Var)

@[simp] theorem rename_nil : rename π ([] : List α) = [] := rfl

@[simp] theorem rename_cons (a : α) (l : List α) :
    rename π (a :: l) = rename π a :: rename π l := rfl

@[simp] theorem rename_append (l m : List α) :
    rename π (l ++ m) = rename π l ++ rename π m := List.map_append

@[simp] theorem rename_none : rename π (none : Option α) = none := rfl

@[simp] theorem rename_some (a : α) : rename π (some a) = some (rename π a) := rfl

@[simp] theorem rename_mk (a : α) (b : β) : rename π (a, b) = (rename π a, rename π b) := rfl

end Containers

namespace AffineForm

variable {π : Var → Var}

theorem termsValue_map (ρ : Var → Int) (π : Var → Var) (terms : List Term) :
    termsValue ρ (terms.map fun t => (π t.1, t.2)) = termsValue (ρ ∘ π) terms := by
  induction terms with
  | nil => rfl
  | cons t rest ih => simp [ih]

/-- A renamed form has the value that the form has where each variable has the value of its new
name. -/
@[simp] theorem eval_rename (ρ : Var → Int) (π : Var → Var) (e : AffineForm) :
    (rename π e).eval ρ = e.eval (ρ ∘ π) := by
  show eval ρ ((e.terms.map fun t => (π t.1, t.2)).foldl addTerm (const e.constant)) = _
  rw [eval_foldl_addTerm, eval_const, termsValue_map, eval]
  omega

@[simp] theorem rename_const (π : Var → Var) (c : Int) : rename π (const c) = const c :=
  ext_eval fun ρ => by simp

@[simp] theorem rename_ofVar (π : Var → Var) (v : Var) : rename π (ofVar v) = ofVar (π v) :=
  ext_eval fun ρ => by simp

@[simp] theorem rename_addConst (π : Var → Var) (e : AffineForm) (c : Int) :
    rename π (e.addConst c) = (rename π e).addConst c :=
  ext_eval fun ρ => by simp

@[simp] theorem rename_sub (π : Var → Var) (a b : AffineForm) :
    rename π (a - b) = rename π a - rename π b :=
  ext_eval fun ρ => by simp

@[simp] theorem rename_neg (π : Var → Var) (a : AffineForm) : rename π (-a) = -rename π a :=
  ext_eval fun ρ => by simp

@[simp] theorem constant_rename (π : Var → Var) (e : AffineForm) :
    (rename π e).constant = e.constant := by
  rw [← eval_zero, eval_rename, ← eval_zero e]
  rfl

/-- A form that renaming makes a single variable is one of the variables with a new name. -/
theorem exists_of_rename_eq_ofVar {e : AffineForm} {v : Var} (h : rename π e = ofVar v) :
    ∃ w, π w = v := by
  by_contra hv
  have hunit : unitValuation v ∘ π = fun _ => 0 := by
    funext w
    exact if_neg fun he => hv ⟨w, he⟩
  have hone := eval_rename (unitValuation v) π e
  have hzero := constant_rename π e
  rw [h, eval_ofVar, hunit, eval_zero, ← hzero, h] at hone
  simp [unitValuation, ofVar] at hone

section Injective

variable (hπ : Function.Injective π) (e : AffineForm)

include hπ

/-- Every valuation gives the variables the values of their new names under another one. -/
theorem rename_injective : Function.Injective (rename π : AffineForm → AffineForm) := by
  intro a b h
  apply ext_eval
  intro σ
  have hσ : Function.extend π σ (fun _ => 0) ∘ π = σ := Function.extend_comp hπ σ _
  rw [← hσ, ← eval_rename, h, eval_rename]

@[simp] theorem isConst_rename : (rename π e).isConst = e.isConst := by
  rw [Bool.eq_iff_iff, isConst_iff, isConst_iff, constant_rename]
  constructor
  · intro h
    apply rename_injective hπ
    rw [h, rename_const]
  · intro h
    rw [h, rename_const]
    rfl

@[simp] theorem toConst?_rename : (rename π e).toConst? = e.toConst? := by
  rw [toConst?, toConst?, isConst_rename hπ, constant_rename]

@[simp] theorem isVar_rename : (rename π e).isVar = e.isVar := by
  rw [Bool.eq_iff_iff, isVar_iff, isVar_iff]
  constructor
  · intro h
    obtain ⟨v, hv⟩ := h
    obtain ⟨w, rfl⟩ := exists_of_rename_eq_ofVar hv
    refine ⟨w, rename_injective hπ ?_⟩
    rw [hv, rename_ofVar]
  · intro h
    obtain ⟨v, rfl⟩ := h
    exact ⟨π v, rename_ofVar π v⟩

end Injective

end AffineForm

namespace Constraint

variable (π : Var → Var) (a b : AffineForm)

theorem rename_mk (e : AffineForm) (kind : Kind) :
    rename π (Constraint.mk e kind) = ⟨rename π e, kind⟩ := rfl

@[simp] theorem rename_eq : rename π (eq a b) = eq (rename π a) (rename π b) := by
  simp only [eq, rename_mk, AffineForm.rename_sub]

@[simp] theorem rename_ne : rename π (ne a b) = ne (rename π a) (rename π b) := by
  simp only [ne, rename_mk, AffineForm.rename_sub]

@[simp] theorem rename_le : rename π (le a b) = le (rename π a) (rename π b) := by
  simp only [le, rename_mk, AffineForm.rename_sub]

@[simp] theorem rename_ge : rename π (ge a b) = ge (rename π a) (rename π b) := rename_le π b a

/-- Renaming merges no variables, so a constraint is decided before it or not at all. -/
@[simp] theorem truth?_rename {π : Var → Var} (hπ : Function.Injective π) (c : Constraint) :
    (rename π c).truth? = c.truth? := by
  show (rename π c.form).toConst?.map c.kind.test = _
  rw [AffineForm.toConst?_rename hπ, truth?]

end Constraint

end AffineFlow
