import AffineFlow.Proofs.Execution.Graph

/-!
# Executions with memory

What statements do where a variable may hold an array as well as a number, as
the variable of a cell does. An assignment of just a variable copies whatever
that one holds; any other form is worth a number, and only if its variables hold
numbers. A havoc leaves open which of the two its variable holds. There are
rules for the statements that hand cells over: assignments, havocs, and
assumptions about arrays.
-/
namespace AffineFlow

/-- What a variable holds: a number, or the elements of an array by their indices. -/
inductive Datum where
  | number (n : Int)
  | array (elems : Int → Int)

abbrev Store := Var → Datum

/-- What the form is worth in the store. -/
inductive AffineForm.Gives (e : AffineForm) (μ : Store) : Datum → Prop
  | copy {x : Var} : e = .ofVar x → e.Gives μ (μ x)
  | value {σ : Valuation} : (∀ t ∈ e.terms, μ t.1 = .number (σ t.1)) →
      e.Gives μ (.number (e.eval σ))

inductive Stmt.StoreRuns : Stmt → Store → Store → Prop
  | assign {x : Var} {e : AffineForm} {μ : Store} {d : Datum} : e.Gives μ d →
      StoreRuns (.assign x e) μ (Function.update μ x d)
  | havoc {x : Var} {μ : Store} (d : Datum) : StoreRuns (.havoc x) μ (Function.update μ x d)
  | assumeArray {x : Var} {n : Int} {μ : Store} : μ x = .array (fun _ => n) →
      StoreRuns (.assumeArray x n) μ μ

/-- The statements one after the other. -/
def StoreRunAll : List Stmt → Store → Store → Prop
  | [], μ, ν => ν = μ
  | stmt :: rest, μ, ν => ∃ κ, stmt.StoreRuns μ κ ∧ StoreRunAll rest κ ν

variable {x y : Var} {n : Int} {e : AffineForm} {d : Datum} {μ ν : Store}
  {stmts stmts' : List Stmt}

namespace AffineForm

theorem gives_ofVar_iff : (ofVar y).Gives μ d ↔ d = μ y := by
  constructor
  · intro h
    cases h with
    | @copy x he =>
        obtain rfl : y = x := congrArg Prod.fst (List.singleton_inj.1 (congrArg terms he))
        rfl
    | @value σ hσ =>
        rw [eval_ofVar]
        exact (hσ (y, 1) List.mem_cons_self).symm
  · intro he
    subst he
    exact .copy rfl

theorem gives_const (μ : Store) (n : Int) : (const n).Gives μ (.number n) := by
  have h : (const n).Gives μ (.number ((const n).eval fun _ => 0)) :=
    .value (List.forall_mem_nil _)
  rwa [eval_const] at h

end AffineForm

theorem storeRuns_copy_iff :
    (Stmt.assign x (.ofVar y)).StoreRuns μ ν ↔ ν = Function.update μ x (μ y) := by
  constructor
  · intro h
    cases h with
    | assign hd => rw [AffineForm.gives_ofVar_iff.1 hd]
  · intro he
    subst he
    exact .assign (.copy rfl)

theorem storeRuns_havoc_iff :
    (Stmt.havoc x).StoreRuns μ ν ↔ ∃ d, ν = Function.update μ x d := by
  constructor
  · intro h
    cases h with
    | havoc d => exact ⟨d, rfl⟩
  · intro h
    obtain ⟨d, rfl⟩ := h
    exact .havoc d

theorem storeRuns_assumeArray_iff :
    (Stmt.assumeArray x n).StoreRuns μ ν ↔ μ x = .array (fun _ => n) ∧ ν = μ := by
  constructor
  · intro h
    cases h with
    | assumeArray hx => exact ⟨hx, rfl⟩
  · intro h
    obtain ⟨hx, rfl⟩ := h
    exact .assumeArray hx

theorem storeRunAll_append_iff : StoreRunAll (stmts ++ stmts') μ ν ↔
    ∃ κ, StoreRunAll stmts μ κ ∧ StoreRunAll stmts' κ ν := by
  induction stmts generalizing μ with
  | nil => simp [StoreRunAll]
  | cons stmt rest ih =>
      simp only [List.cons_append, StoreRunAll, ih]
      constructor
      · intro h
        obtain ⟨κ₁, hstmt, κ, hrest, hrun⟩ := h
        exact ⟨κ, ⟨κ₁, hstmt, hrest⟩, hrun⟩
      · intro h
        obtain ⟨κ, ⟨κ₁, hstmt, hrest⟩, hrun⟩ := h
        exact ⟨κ₁, hstmt, κ, hrest, hrun⟩

/-- Statements that can always be executed can be executed one after the other. -/
theorem exists_storeRunAll (h : ∀ stmt ∈ stmts, ∀ μ, ∃ ν, stmt.StoreRuns μ ν) (μ : Store) :
    ∃ ν, StoreRunAll stmts μ ν := by
  induction stmts generalizing μ with
  | nil => exact ⟨μ, rfl⟩
  | cons stmt rest ih =>
      obtain ⟨hstmt, hrest⟩ := List.forall_mem_cons.1 h
      obtain ⟨κ, hκ⟩ := hstmt μ
      obtain ⟨ν, hν⟩ := ih hrest κ
      exact ⟨ν, κ, hκ, hν⟩

theorem Stmt.StoreRuns.frame {stmt : Stmt} (h : stmt.StoreRuns μ ν)
    (hx : stmt.target? ≠ some x) : ν x = μ x := by
  have hne {y : Var} (hy : some y ≠ some x) : x ≠ y := fun he => hy (congrArg some he.symm)
  cases h with
  | assign => exact Function.update_of_ne (hne hx) _ _
  | havoc => exact Function.update_of_ne (hne hx) _ _
  | assumeArray => rfl

/-- What is not written stays as it is. -/
theorem StoreRunAll.frame (h : StoreRunAll stmts μ ν) (hx : Untouched x stmts) : ν x = μ x := by
  induction stmts generalizing μ with
  | nil => rw [show ν = μ from h]
  | cons stmt rest ih =>
      obtain ⟨κ, hstmt, hrest⟩ := h
      obtain ⟨hx, hx'⟩ := untouched_cons_iff.1 hx
      exact (ih hrest hx').trans (hstmt.frame hx)

end AffineFlow
