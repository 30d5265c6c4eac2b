import AffineFlow.Proofs.Arithmetic.Exactness
import Mathlib.Data.Int.Bitwise

/-!
# Shifts to the right round towards zero

A shift to the right divides by a power of two and rounds down. Its code is a
signed division, which leaves out the fraction, so it rounds a negative number
up. The two agree just where the number is not negative or nothing is left over.
-/
namespace AffineFlow

open Ssa Lowering

namespace Operations

/-- Signed division leaves out the fraction. -/
def Truncates (M : Operations) : Prop := ∀ m n, n ≠ 0 → M.sdiv m n = some (m.tdiv n)

/-- Operations that leave out the fraction. Those on integers without a sign have an outcome only
for integers that are not negative. -/
def truncating : Operations where
  sdiv m n := if n ≠ 0 then some (m.tdiv n) else none
  udiv m n := if 0 ≤ m ∧ 0 < n then some (m / n) else none
  srem m n := if n ≠ 0 then some (m.tmod n) else none
  urem m n := if 0 ≤ m ∧ 0 < n then some (m % n) else none
  and m n := some (Int.land m n)
  or m n := some (Int.lor m n)
  xor m n := some (Int.xor m n)

theorem truncating_truncates : truncating.Truncates := fun _ _ hn => if_pos hn

variable {M : Operations}

/-- Division by a power of two rounds down, with one more where it leaves out a fraction of a
negative number. -/
theorem Truncates.sdiv_pow (hM : M.Truncates) (m : Int) (k : Nat) :
    M.sdiv m (2 ^ k) = some (m / 2 ^ k + if 0 ≤ m ∨ 2 ^ k ∣ m then 0 else 1) := by
  have hpos : (0 : Int) < 2 ^ k := Int.pow_pos (by decide)
  rw [hM m _ (Int.ne_of_gt hpos), Int.tdiv_eq_ediv, Int.sign_eq_one_of_pos hpos]

theorem binary_ashr {m n : Int} (hn : 0 ≤ n) : M.binary .ashr m n = some (m / 2 ^ n.toNat) :=
  if_pos hn

end Operations

/-- The code of a shift by `k` computes the quotient rounded towards zero. -/
theorem calculates_quotient {M : Operations} (hM : M.Truncates) (x : Var) (p : AffineForm) (k : Nat)
    (σ τ : Valuation) : PerformAll M [.arith .sdiv x p (.const (2 ^ k))] σ τ ↔
      τ = Function.update σ x
        (p.eval σ / 2 ^ k + if 0 ≤ p.eval σ ∨ 2 ^ k ∣ p.eval σ then 0 else 1) := by
  rw [performAll_singleton_iff, performs_arith_iff, AffineForm.eval_const, Operations.arith,
    hM.sdiv_pow]
  simp

namespace Scope

variable {sc : Scope} {id : InstId} {u v : Value}

/-- A tracked shift to the right by a constant of at most 126: its code is one signed division by a
power of two. It leaves the quotient rounded towards zero in the result, which is that of the shift
just where the number is not negative or a multiple of the power. There is code from every
session. -/
theorem instCode_ashr_rounds (hkind : sc.body.kind? (.inst id) = some (.binary .ashr u v))
    (htracks : sc.tracks (.inst id) = .ok true) :
    (∀ s code s' F p k, Yields (sc.instCode id) s code s' → s'.supply.Extends F →
      sc.form? F u = some p → sc.form? F v = some (.const k) → 0 ≤ k → k ≤ 126 →
      ∃ x, sc.form? F (.inst id) = some (.ofVar x) ∧
        code = [.arith .sdiv x p (.const (2 ^ k.toNat))] ∧
        ∀ M : Operations, M.Truncates → ∀ σ,
          (∀ τ, PerformAll M code σ τ ↔ τ = Function.update σ x (p.eval σ / 2 ^ k.toNat +
            if 0 ≤ p.eval σ ∨ 2 ^ k.toNat ∣ p.eval σ then 0 else 1)) ∧
          ((∀ τ, PerformAll M code σ τ → M.binary .ashr (p.eval σ) k = some (τ x)) ↔
            0 ≤ p.eval σ ∨ 2 ^ k.toNat ∣ p.eval σ)) ∧
    (Answered (sc.tracks u) → Answered (sc.tracks v) →
      ∀ s, ∃ code s', Yields (sc.instCode id) s code s') := by
  rw [instCode_of_binary hkind]
  refine ⟨fun s code s' F p k h hF hp hk hk0 hk126 => ?_,
    fun hu hv s => ((binaryCode_safe_of_answered _ ⟨_, htracks⟩ hu hv).ok_iff s).2 rfl⟩
  obtain ⟨x, hx, ⟨p', q, s₁, hp', hq, hrule⟩ | ⟨hnone, -⟩⟩ := binaryCode_inv htracks h hF
  swap
  · simp [BinaryRule.of, hp, hk] at hnone
  obtain rfl := Option.some.inj (hp.symm.trans hp')
  obtain rfl := Option.some.inj (hk.symm.trans hq)
  have hshift : Yields (sc.shiftCode .ashr .sdiv x p (.const k)) s₁ code s' := hrule
  obtain ⟨k', hconst, -, -, rfl⟩ | ⟨hout, -⟩ := shiftCode_eq hshift
  swap
  · rw [AffineForm.toConst?_eq_some_iff.2 rfl] at hout
    simp [hk0, hk126] at hout
  obtain rfl : k = k' := congrArg AffineForm.constant hconst
  refine ⟨x, form?_of_denotes htracks hx, rfl, fun M hM σ => ?_⟩
  have hruns := calculates_quotient hM x p k.toNat σ
  refine ⟨hruns, ?_⟩
  simp only [hruns, forall_eq, Operations.binary_ashr hk0, Function.update_self,
    Option.some.injEq, left_eq_add, ite_eq_left_iff, one_ne_zero, imp_false, not_not]

/-- Half of a number, by a shift. -/
def halfScope : Scope := numberScope [(some "x", .int 32, .binary .ashr (.arg 0) (.int 32 1))]

/-- The half is right just for numbers that are even or not negative. -/
theorem instCode_ashr_rounds_half :
    halfScope.tracks (.inst ⟨0⟩) = .ok true ∧ Operations.truncating.Truncates ∧
    ∃ code s' x n, Yields (halfScope.instCode ⟨0⟩) {} code s' ∧
      halfScope.form? s'.supply (.inst ⟨0⟩) = some (.ofVar x) ∧
      halfScope.form? s'.supply (.arg 0) = some (.ofVar n) ∧
      code = [.arith .sdiv x (.ofVar n) (.const 2)] ∧
      ∀ σ, (∀ τ, PerformAll .truncating code σ τ ↔
          τ = Function.update σ x (σ n / 2 + if 0 ≤ σ n ∨ 2 ∣ σ n then 0 else 1)) ∧
        ((∀ τ, PerformAll .truncating code σ τ →
          Operations.truncating.binary .ashr (σ n) 1 = some (τ x)) ↔ 0 ≤ σ n ∨ 2 ∣ σ n) := by
  have hkind : halfScope.body.kind? (.inst ⟨0⟩) = some (.binary .ashr (.arg 0) (.int 32 1)) := rfl
  have htracks : halfScope.tracks (.inst ⟨0⟩) = .ok true := rfl
  obtain ⟨hrounds, htotal⟩ := instCode_ashr_rounds hkind htracks
  obtain ⟨code, s', hcode⟩ := htotal ⟨_, rfl⟩ ⟨_, rfl⟩ {}
  obtain ⟨n, hn⟩ : ∃ n, halfScope.form? s'.supply (.arg 0) = some (.ofVar n) := by
    cases hcode
    exact ⟨_, rfl⟩
  obtain ⟨x, hx, hstmts, hall⟩ :=
    hrounds {} code s' s'.supply _ 1 hcode (.refl _) hn rfl (by decide) (by decide)
  refine ⟨htracks, Operations.truncating_truncates, code, s', x, n, hcode, hx, hn, hstmts,
    fun σ => ?_⟩
  simpa using hall .truncating Operations.truncating_truncates σ

/-- Half of minus one, by a shift. -/
def halfOfMinusOneScope : Scope :=
  numberScope [(some "x", .int 32, .binary .ashr (.int 32 (-1)) (.int 32 1))]

/-- The result is zero although the shift gives minus one. -/
theorem instCode_ashr_inexact : ∃ code s' x,
    Yields (halfOfMinusOneScope.instCode ⟨0⟩) {} code s' ∧
    halfOfMinusOneScope.form? s'.supply (.inst ⟨0⟩) = some (.ofVar x) ∧
    halfOfMinusOneScope.form? s'.supply (.int 32 (-1)) = some (.const (-1)) ∧
    halfOfMinusOneScope.form? s'.supply (.int 32 1) = some (.const 1) ∧
    ∀ M : Operations, M.Truncates → M.binary .ashr (-1) 1 = some (-1) ∧
      (∃ σ τ, PerformAll M code σ τ) ∧ ∀ σ τ, PerformAll M code σ τ → τ x = 0 := by
  refine ⟨_, _, _, rfl, rfl, rfl, rfl, fun M hM => ⟨rfl, ?_, fun σ τ hrun => ?_⟩⟩
  · exact ⟨fun _ => 0, _, (calculates_quotient hM _ (.const (-1)) 1 _ _).2 rfl⟩
  · obtain rfl := (calculates_quotient hM _ (.const (-1)) 1 σ τ).1 hrun
    exact Function.update_self _ _ _

end Scope

end AffineFlow
