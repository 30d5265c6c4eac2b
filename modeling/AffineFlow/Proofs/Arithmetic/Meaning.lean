import AffineFlow.Lowering.Binary
import AffineFlow.Proofs.Execution.Graph
import Mathlib.Algebra.Ring.Int.Defs

/-!
# What operations mean

Divisions, remainders and bit operations have an outcome that is left open here,
and that is the same for an instruction of the source and for the statement that
does the same. A shift moves an integer that has no last bit on the left, so it
multiplies by a power of two, or divides by it and rounds down.
-/
namespace AffineFlow

open Ssa

/-- The operations whose outcome is left open. One without an outcome cannot be carried out. -/
structure Operations where
  sdiv : Int → Int → Option Int
  udiv : Int → Int → Option Int
  srem : Int → Int → Option Int
  urem : Int → Int → Option Int
  and : Int → Int → Option Int
  or : Int → Int → Option Int
  xor : Int → Int → Option Int

namespace Operations

variable (M : Operations)

def arith : ArithOp → Int → Int → Option Int
  | .add, m, n => some (m + n)
  | .sub, m, n => some (m - n)
  | .mul, m, n => some (m * n)
  | .sdiv, m, n => M.sdiv m n
  | .udiv, m, n => M.udiv m n
  | .srem, m, n => M.srem m n
  | .urem, m, n => M.urem m n

def bitwise : BitwiseOp → Int → Int → Option Int
  | .and => M.and
  | .or => M.or
  | .xor => M.xor

/-- The result of an instruction of the source. A logical shift depends on the width of what is
shifted, and there are no fractions. -/
def binary : BinaryOp → Int → Int → Option Int
  | .add, m, n => some (m + n)
  | .sub, m, n => some (m - n)
  | .mul, m, n => some (m * n)
  | .sdiv, m, n => M.sdiv m n
  | .udiv, m, n => M.udiv m n
  | .srem, m, n => M.srem m n
  | .urem, m, n => M.urem m n
  | .shl, m, n => if 0 ≤ n then some (m * 2 ^ n.toNat) else none
  | .ashr, m, n => if 0 ≤ n then some (m / 2 ^ n.toNat) else none
  | .and, m, n => M.and m n
  | .or, m, n => M.or m n
  | .xor, m, n => M.xor m n
  | .lshr, _, _ => none
  | .fadd, _, _ | .fsub, _, _ | .fmul, _, _ | .fdiv, _, _ | .frem, _, _ => none

/-- What is exact in any case is not left open. -/
theorem arith_of_value? {op : ArithOp} {m n k : Int} (h : op.value? m n = some k) :
    M.arith op m n = some k := by
  cases op with
  | add => exact h
  | sub => exact h
  | mul => exact h
  | sdiv => cases h
  | udiv => cases h
  | srem => cases h
  | urem => cases h

/-- An instruction with an arithmetic statement of its own means what the statement means. -/
theorem binary_of_arith {source : BinaryOp} {op : ArithOp} (h : BinaryRule.of source = .arith op) :
    M.binary source = M.arith op := by
  cases source <;> cases h <;> rfl

theorem binary_of_bitwise {source : BinaryOp} {op : BitwiseOp}
    (h : BinaryRule.of source = .bitwise op) : M.binary source = M.bitwise op := by
  cases source <;> cases h <;> rfl

/-- A shift to the left is a product with a power of two. -/
theorem binary_shl {m n : Int} (hn : 0 ≤ n) :
    M.binary .shl m n = M.arith .mul m (2 ^ n.toNat) :=
  if_pos hn

end Operations

/-- A statement is executed, with the operations as they are given. -/
inductive Stmt.Performs (M : Operations) : Stmt → Valuation → Valuation → Prop
  | runs {stmt : Stmt} {σ τ : Valuation} : stmt.Runs σ τ → Performs M stmt σ τ
  | arith {op : ArithOp} {x : Var} {a b : AffineForm} {σ : Valuation} {n : Int} :
      M.arith op (a.eval σ) (b.eval σ) = some n →
      Performs M (.arith op x a b) σ (Function.update σ x n)
  | bitwise {op : BitwiseOp} {x : Var} {a b : AffineForm} {σ : Valuation} {n : Int} :
      M.bitwise op (a.eval σ) (b.eval σ) = some n →
      Performs M (.bitwise op x a b) σ (Function.update σ x n)

/-- The statements one after the other. -/
def PerformAll (M : Operations) : List Stmt → Valuation → Valuation → Prop
  | [], σ, τ => τ = σ
  | stmt :: rest, σ, υ => ∃ τ, stmt.Performs M σ τ ∧ PerformAll M rest τ υ

variable {M : Operations} {σ τ : Valuation} {x : Var} {e a b : AffineForm}

theorem performs_assign_iff :
    (Stmt.assign x e).Performs M σ τ ↔ τ = Function.update σ x (e.eval σ) := by
  constructor
  · intro h
    cases h with
    | runs h => exact runs_assign_iff.1 h
  · intro he
    exact .runs (runs_assign_iff.2 he)

theorem performs_arith_iff {op : ArithOp} : (Stmt.arith op x a b).Performs M σ τ ↔
    ∃ n, M.arith op (a.eval σ) (b.eval σ) = some n ∧ τ = Function.update σ x n := by
  constructor
  · intro h
    cases h with
    | runs h =>
        obtain ⟨n, hn, rfl⟩ := runs_arith_iff.1 h
        exact ⟨n, M.arith_of_value? hn, rfl⟩
    | arith hn => exact ⟨_, hn, rfl⟩
  · intro h
    obtain ⟨n, hn, rfl⟩ := h
    exact .arith hn

theorem performs_bitwise_iff {op : BitwiseOp} : (Stmt.bitwise op x a b).Performs M σ τ ↔
    ∃ n, M.bitwise op (a.eval σ) (b.eval σ) = some n ∧ τ = Function.update σ x n := by
  constructor
  · intro h
    cases h with
    | runs h => cases h
    | bitwise hn => exact ⟨_, hn, rfl⟩
  · intro h
    obtain ⟨n, hn, rfl⟩ := h
    exact .bitwise hn

theorem performAll_singleton_iff {stmt : Stmt} : PerformAll M [stmt] σ τ ↔ stmt.Performs M σ τ := by
  simp [PerformAll]

end AffineFlow
