import AffineFlow.FlowGraph.Basic
import Mathlib.Logic.Function.Basic

/-!
# Executions of flow graphs

What the statements of a block do to the variables, all of them over exact
integers. A statement that can end in several ways, such as a havoc, is a
relation; one that cannot be executed, such as an assumption that does not hold,
relates nothing. There are no rules for memory, calls and bit operations.
-/
namespace AffineFlow

/-- What the variables hold. -/
abbrev Valuation := Var → Int

/-- The result of an operation that is exact over all integers. -/
def ArithOp.value? : ArithOp → Int → Int → Option Int
  | .add, a, b => some (a + b)
  | .sub, a, b => some (a - b)
  | .mul, a, b => some (a * b)
  | _, _, _ => none

def Guard.Holds (σ : Valuation) : Guard → Prop
  | .constraint c => c.Holds σ
  | .var v => σ v ≠ 0

inductive Stmt.Runs : Stmt → Valuation → Valuation → Prop
  | assign {x : Var} {e : AffineForm} {σ : Valuation} :
      Runs (.assign x e) σ (Function.update σ x (e.eval σ))
  | havoc {x : Var} {σ : Valuation} (n : Int) : Runs (.havoc x) σ (Function.update σ x n)
  | assume {c : Constraint} {σ : Valuation} : c.Holds σ → Runs (.assume c) σ σ
  | arith {op : ArithOp} {x : Var} {a b : AffineForm} {σ : Valuation} {n : Int} :
      op.value? (a.eval σ) (b.eval σ) = some n →
      Runs (.arith op x a b) σ (Function.update σ x n)
  | selectTrue {x : Var} {guard : Guard} {a b : AffineForm} {σ : Valuation} : guard.Holds σ →
      Runs (.select x guard a b) σ (Function.update σ x (a.eval σ))
  | selectFalse {x : Var} {guard : Guard} {a b : AffineForm} {σ : Valuation} : ¬guard.Holds σ →
      Runs (.select x guard a b) σ (Function.update σ x (b.eval σ))
  | ret {x : Var} {type : VarType} {σ : Valuation} : Runs (.ret x type) σ σ

/-- The statements one after the other. -/
inductive RunAll : List Stmt → Valuation → Valuation → Prop
  | nil {σ : Valuation} : RunAll [] σ σ
  | cons {stmt : Stmt} {stmts : List Stmt} {σ τ υ : Valuation} : stmt.Runs σ τ →
      RunAll stmts τ υ → RunAll (stmt :: stmts) σ υ

variable {σ τ υ : Valuation} {x y : Var} {e a b : AffineForm} {stmts stmts' : List Stmt}

theorem runs_assign_iff : (Stmt.assign x e).Runs σ τ ↔ τ = Function.update σ x (e.eval σ) := by
  constructor
  · intro h
    cases h
    rfl
  · intro he
    subst he
    exact .assign

theorem runs_havoc_iff : (Stmt.havoc x).Runs σ τ ↔ ∃ n, τ = Function.update σ x n := by
  constructor
  · intro h
    cases h
    exact ⟨_, rfl⟩
  · intro h
    obtain ⟨n, rfl⟩ := h
    exact .havoc n

theorem runs_assume_iff {c : Constraint} : (Stmt.assume c).Runs σ τ ↔ c.Holds σ ∧ τ = σ := by
  constructor
  · intro h
    cases h
    exact ⟨‹_›, rfl⟩
  · intro h
    obtain ⟨hc, rfl⟩ := h
    exact .assume hc

theorem runs_arith_iff {op : ArithOp} : (Stmt.arith op x a b).Runs σ τ ↔
    ∃ n, op.value? (a.eval σ) (b.eval σ) = some n ∧ τ = Function.update σ x n := by
  constructor
  · intro h
    cases h
    exact ⟨_, ‹_›, rfl⟩
  · intro h
    obtain ⟨n, hn, rfl⟩ := h
    exact .arith hn

open scoped Classical in
theorem runs_select_iff {guard : Guard} : (Stmt.select x guard a b).Runs σ τ ↔
    τ = Function.update σ x (if guard.Holds σ then a.eval σ else b.eval σ) := by
  constructor
  · intro h
    cases h with
    | selectTrue hg => rw [if_pos hg]
    | selectFalse hg => rw [if_neg hg]
  · intro he
    subst he
    by_cases hg : guard.Holds σ
    · rw [if_pos hg]
      exact .selectTrue hg
    · rw [if_neg hg]
      exact .selectFalse hg

theorem runAll_nil_iff : RunAll [] σ τ ↔ τ = σ := by
  constructor
  · intro h
    cases h
    rfl
  · intro he
    subst he
    exact .nil

theorem runAll_cons_iff {stmt : Stmt} :
    RunAll (stmt :: stmts) σ υ ↔ ∃ τ, stmt.Runs σ τ ∧ RunAll stmts τ υ := by
  constructor
  · intro h
    cases h
    exact ⟨_, ‹_›, ‹_›⟩
  · intro h
    obtain ⟨τ, hs, hr⟩ := h
    exact .cons hs hr

theorem runAll_singleton_iff {stmt : Stmt} : RunAll [stmt] σ τ ↔ stmt.Runs σ τ := by
  simp [runAll_cons_iff, runAll_nil_iff]

theorem runAll_append_iff :
    RunAll (stmts ++ stmts') σ υ ↔ ∃ τ, RunAll stmts σ τ ∧ RunAll stmts' τ υ := by
  induction stmts generalizing σ with
  | nil => simp [runAll_nil_iff]
  | cons stmt rest ih =>
      simp only [List.cons_append, runAll_cons_iff, ih]
      constructor
      · intro h
        obtain ⟨τ₁, hs, τ, hr, hr'⟩ := h
        exact ⟨τ, ⟨τ₁, hs, hr⟩, hr'⟩
      · intro h
        obtain ⟨τ, ⟨τ₁, hs, hr⟩, hr'⟩ := h
        exact ⟨τ₁, hs, τ, hr, hr'⟩

/-- Statements that can always be executed can be executed one after the other. -/
theorem exists_runAll (h : ∀ stmt ∈ stmts, ∀ σ, ∃ τ, stmt.Runs σ τ) (σ : Valuation) :
    ∃ τ, RunAll stmts σ τ := by
  induction stmts generalizing σ with
  | nil => exact ⟨σ, .nil⟩
  | cons stmt rest ih =>
      obtain ⟨hstmt, hrest⟩ := List.forall_mem_cons.1 h
      obtain ⟨τ, hs⟩ := hstmt σ
      obtain ⟨υ, hr⟩ := ih hrest τ
      exact ⟨υ, .cons hs hr⟩

/-- No statement of the list writes the variable. -/
def Untouched (x : Var) (stmts : List Stmt) : Prop := ∀ stmt ∈ stmts, stmt.target? ≠ some x

@[simp] theorem untouched_nil : Untouched x [] := nofun

@[simp] theorem untouched_cons_iff {stmt : Stmt} :
    Untouched x (stmt :: stmts) ↔ stmt.target? ≠ some x ∧ Untouched x stmts :=
  List.forall_mem_cons

@[simp] theorem untouched_append_iff :
    Untouched x (stmts ++ stmts') ↔ Untouched x stmts ∧ Untouched x stmts' :=
  List.forall_mem_append

theorem Stmt.Runs.frame {stmt : Stmt} (h : stmt.Runs σ τ) (hx : stmt.target? ≠ some x) :
    τ x = σ x := by
  have hne {y : Var} (hy : some y ≠ some x) : x ≠ y := fun he => hy (congrArg some he.symm)
  cases h with
  | assign => exact Function.update_of_ne (hne hx) _ _
  | havoc => exact Function.update_of_ne (hne hx) _ _
  | assume => rfl
  | arith => exact Function.update_of_ne (hne hx) _ _
  | selectTrue => exact Function.update_of_ne (hne hx) _ _
  | selectFalse => exact Function.update_of_ne (hne hx) _ _
  | ret => rfl

/-- What is not written stays as it is. -/
theorem RunAll.frame (h : RunAll stmts σ τ) (hx : Untouched x stmts) : τ x = σ x := by
  induction h with
  | nil => rfl
  | cons hs _ ih =>
      obtain ⟨hstmt, hrest⟩ := untouched_cons_iff.1 hx
      exact (ih hrest).trans (hs.frame hstmt)

namespace AffineForm

/-- A form only depends on the variables that it has. -/
theorem eval_congr (h : ∀ t ∈ e.terms, σ t.1 = τ t.1) : e.eval σ = e.eval τ := by
  have hterms : ∀ terms : List Term, (∀ t ∈ terms, σ t.1 = τ t.1) →
      termsValue σ terms = termsValue τ terms := by
    intro terms hall
    induction terms with
    | nil => rfl
    | cons t rest ih =>
        obtain ⟨ht, hrest⟩ := List.forall_mem_cons.1 hall
        rw [termsValue_cons, termsValue_cons, ht, ih hrest]
  rw [eval, eval, hterms e.terms h]

end AffineForm

/-- A variable with the form that it is given; without a form it takes any value. -/
abbrev Write := Var × Option AffineForm

def Write.stmt (w : Write) : Stmt :=
  match w.2 with
  | some e => .assign w.1 e
  | none => .havoc w.1

theorem Write.target?_stmt (w : Write) : w.stmt.target? = some w.1 := by
  obtain ⟨x, _ | e⟩ := w
  · rfl
  · rfl

theorem Write.exists_runs (w : Write) (σ : Valuation) : ∃ τ, w.stmt.Runs σ τ := by
  obtain ⟨x, _ | e⟩ := w
  · exact ⟨_, .havoc 0⟩
  · exact ⟨_, .assign⟩

/-- Writes to different variables, none of which a form reads, happen as if all at once. -/
theorem runAll_writes_iff {writes : List Write} (hn : (writes.map (·.1)).Nodup)
    (hreads : ∀ w ∈ writes, ∀ e, w.2 = some e → ∀ t ∈ e.terms, t.1 ∉ writes.map (·.1)) :
    RunAll (writes.map (·.stmt)) σ τ ↔ (∀ y, y ∉ writes.map (·.1) → τ y = σ y) ∧
      ∀ w ∈ writes, ∀ e, w.2 = some e → τ w.1 = e.eval σ := by
  induction writes generalizing σ with
  | nil =>
      simp only [List.map_nil, runAll_nil_iff, List.not_mem_nil, not_false_eq_true, forall_const,
        false_implies, and_true]
      exact funext_iff
  | cons w rest ih =>
      rw [List.map_cons, List.nodup_cons] at hn
      have hreads' : ∀ w' ∈ rest, ∀ e, w'.2 = some e → ∀ t ∈ e.terms, t.1 ∉ rest.map (·.1) := by
        intro w' hw' e he t ht hm
        exact hreads w' (.tail _ hw') e he t ht (.tail _ hm)
      have hsame : ∀ n, ∀ w' ∈ rest, ∀ e, w'.2 = some e →
          e.eval (Function.update σ w.1 n) = e.eval σ := by
        intro n w' hw' e he
        refine AffineForm.eval_congr fun t ht => Function.update_of_ne (fun h => ?_) _ _
        exact hreads w' (.tail _ hw') e he t ht (h ▸ List.mem_cons_self)
      have hstep : ∀ υ, w.stmt.Runs σ υ ↔ ∃ n, υ = Function.update σ w.1 n ∧
          ∀ e, w.2 = some e → n = e.eval σ := by
        intro υ
        unfold Write.stmt
        cases w.2 with
        | some e => simp [runs_assign_iff]
        | none => simp [runs_havoc_iff]
      rw [List.map_cons, runAll_cons_iff]
      constructor
      · intro hcomposed
        obtain ⟨υ, hυ, hrun⟩ := hcomposed
        obtain ⟨n, rfl, hw⟩ := (hstep υ).1 hυ
        obtain ⟨hother, hall⟩ := (ih hn.2 hreads').1 hrun
        refine ⟨fun y hy => ?_, List.forall_mem_cons.2 ⟨fun e he => ?_, fun w' hw' e he => ?_⟩⟩
        · rw [List.map_cons, List.mem_cons, not_or] at hy
          rw [hother y hy.2, Function.update_of_ne hy.1]
        · rw [hother w.1 hn.1, Function.update_self, hw e he]
        · rw [hall w' hw' e he, hsame n w' hw' e he]
      · intro hparts
        obtain ⟨hother, hall⟩ := hparts
        obtain ⟨hw, hrest⟩ := List.forall_mem_cons.1 hall
        refine ⟨Function.update σ w.1 (τ w.1), (hstep _).2 ⟨_, rfl, hw⟩,
          (ih hn.2 hreads').2 ⟨fun y hy => ?_, fun w' hw' e he => ?_⟩⟩
        · by_cases he : y = w.1
          · rw [he, Function.update_self]
          · rw [Function.update_of_ne he]
            exact hother y (by simp [he, hy])
        · rw [hsame _ w' hw' e he]
          exact hrest w' hw' e he

end AffineFlow
