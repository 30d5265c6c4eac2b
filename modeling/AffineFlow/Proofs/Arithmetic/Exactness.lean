import AffineFlow.Proofs.Arithmetic.Meaning
import AffineFlow.Proofs.Forms.Canonical
import AffineFlow.Proofs.Addresses.Exactness

/-!
# Binary instructions are exact or forgotten

The code of a binary instruction either computes what the instruction means, for
all values of the operands, or makes the result unknown. Where a constant is put
into the result first, the other operand is read after that, so the result must
not be that operand. A shift to the right is not among these instructions: its
code rounds the other way.
-/
namespace AffineFlow

open Ssa Lowering

/-- The result is computed for operands with these forms, and not made unknown. -/
def Ssa.BinaryOp.isComputed : BinaryOp → AffineForm → AffineForm → Bool
  | .udiv, p, q | .urem, p, q => !(p.isConst && q.isConst)
  | .shl, _, q | .ashr, _, q => q.toConst?.any fun k => 0 ≤ k ∧ k ≤ 126
  | .lshr, _, _ => false
  | .fadd, _, _ | .fsub, _, _ | .fmul, _, _ | .fdiv, _, _ | .frem, _, _ => false
  | .add, _, _ | .sub, _, _ | .mul, _, _ | .sdiv, _, _ | .srem, _, _ => true
  | .and, _, _ | .or, _, _ | .xor, _, _ => true

/-- The code can be executed just where there is an outcome, which it leaves in `x`; it changes no
other variable. -/
def Calculates (code : List Stmt) (x : Var) (outcome : Operations → Valuation → Option Int) :
    Prop :=
  ∀ M σ τ, PerformAll M code σ τ ↔ ∃ n, outcome M σ = some n ∧ τ = Function.update σ x n

/-- Where the operands of an operation cannot be exchanged, the first one is not a constant. -/
def StartsFromVariables (code : List Stmt) : Prop :=
  ∀ op x a b, Stmt.arith op x a b ∈ code → op.isCommutative = false → a.isConst = false

variable {op : ArithOp} {x : Var} {a b : AffineForm}

namespace Calculates

theorem arith : Calculates [.arith op x a b] x fun M σ => M.arith op (a.eval σ) (b.eval σ) := by
  intro M σ τ
  rw [performAll_singleton_iff, performs_arith_iff]

theorem bitwise {op : BitwiseOp} :
    Calculates [.bitwise op x a b] x fun M σ => M.bitwise op (a.eval σ) (b.eval σ) := by
  intro M σ τ
  rw [performAll_singleton_iff, performs_bitwise_iff]

/-- The first operand may be put into the result first if the second one does not read it. -/
theorem assignArith (hb : ∀ (σ : Valuation) n, b.eval (Function.update σ x n) = b.eval σ) :
    Calculates [.assign x a, .arith op x (.ofVar x) b] x
      fun M σ => M.arith op (a.eval σ) (b.eval σ) := by
  intro M σ τ
  simp only [PerformAll, performs_assign_iff, exists_eq_left, performs_arith_iff,
    exists_eq_right', AffineForm.eval_ofVar, Function.update_self, hb, Function.update_idem]

end Calculates

namespace StartsFromVariables

theorem arith (h : op.isCommutative = false → a.isConst = false) :
    StartsFromVariables [.arith op x a b] := by
  intro op' x' a' b' hm hop
  obtain ⟨rfl, rfl, rfl, rfl⟩ : op' = op ∧ x' = x ∧ a' = a ∧ b' = b := by simpa using hm
  exact h hop

theorem assignArith : StartsFromVariables [.assign x a, .arith op x (.ofVar x) b] := by
  intro op' x' a' b' hm _
  obtain ⟨-, -, rfl, -⟩ : op' = op ∧ x' = x ∧ a' = .ofVar x ∧ b' = b := by simpa using hm
  rfl

theorem bitwise {op : BitwiseOp} : StartsFromVariables [.bitwise op x a b] := by
  intro op' x' a' b' hm
  simp at hm

end StartsFromVariables

theorem shiftFactor?_eq (k : Int) :
    shiftFactor? k = if 0 ≤ k ∧ k ≤ 126 then some (2 ^ k.toNat) else none := by
  unfold shiftFactor?
  rw [Nat.one_shiftLeft, Int.natCast_pow]
  rfl

namespace Ssa.BinaryOp

variable {source : BinaryOp} {p q : AffineForm}

theorem isComputed_of_arith (h : BinaryRule.of source = .arith op) :
    source.isComputed p q = !(op.isUnsigned && p.isConst && q.isConst) := by
  cases source <;> cases h <;> rfl

theorem isComputed_of_shift (h : BinaryRule.of source = .shift op) :
    source.isComputed p q = q.toConst?.any fun k => 0 ≤ k ∧ k ≤ 126 := by
  cases source <;> cases h <;> rfl

theorem isComputed_of_bitwise {op : BitwiseOp} (h : BinaryRule.of source = .bitwise op) :
    source.isComputed p q = true := by
  cases source <;> cases h <;> rfl

theorem isComputed_of_unmodelled (h : BinaryRule.of source = .unmodelled) :
    source.isComputed p q = false := by
  cases source <;> cases h <;> rfl

/-- Of the two shifts, one goes to the left. -/
theorem eq_shl_of_shift (h : BinaryRule.of source = .shift op) (hne : source ≠ .ashr) :
    source = .shl ∧ op = .mul := by
  cases source <;> cases h
  · exact ⟨rfl, rfl⟩
  · exact absurd rfl hne

end Ssa.BinaryOp

namespace Scope

variable {sc : Scope} {F : VarSupply} {s s' : Session} {id : InstId} {dst : Var} {u v : Value}
  {source : BinaryOp} {code : List Stmt}

theorem arithCode_calculates (h : Yields (sc.arithCode source op dst a b) s code s')
    (hb : ∀ (σ : Valuation) n, b.eval (Function.update σ dst n) = b.eval σ) :
    if op.isUnsigned && a.isConst && b.isConst then code = sc.forget dst
    else StartsFromVariables code ∧
      Calculates code dst fun M σ => M.arith op (a.eval σ) (b.eval σ) := by
  unfold arithCode at h
  split at h
  next hconstants =>
    rw [if_pos hconstants]
    obtain ⟨_, _, -, h⟩ := yields_bind.1 h
    exact (yields_pure.1 h).1
  next hconstants =>
    rw [if_neg hconstants]
    split at h
    next =>
      obtain ⟨rfl, -⟩ := yields_pure.1 h
      exact ⟨.assignArith, .assignArith hb⟩
    next hfirst =>
      obtain ⟨rfl, -⟩ := yields_pure.1 h
      refine ⟨.arith fun hop => ?_, .arith⟩
      simpa [hop] using hfirst

/-- A shift by a constant amount that is not too large is one operation. -/
theorem shiftCode_eq (h : Yields (sc.shiftCode source op dst a b) s code s') :
    (∃ k, b = .const k ∧ 0 ≤ k ∧ k ≤ 126 ∧ code = [.arith op dst a (.const (2 ^ k.toNat))]) ∨
      (b.toConst?.any fun k => 0 ≤ k ∧ k ≤ 126) = false ∧ code = sc.forget dst := by
  unfold shiftCode at h
  split at h
  next hnone =>
    rw [hnone]
    exact .inr ⟨rfl, (yields_pure.1 h).1⟩
  next k hk =>
    rw [hk]
    rw [shiftFactor?_eq] at h
    by_cases hrange : 0 ≤ k ∧ k ≤ 126
    · rw [if_pos hrange] at h
      exact .inl ⟨k, AffineForm.toConst?_eq_some_iff.1 hk, hrange.1, hrange.2, (yields_pure.1 h).1⟩
    · rw [if_neg hrange] at h
      obtain ⟨_, _, -, h⟩ := yields_bind.1 h
      exact .inr ⟨by simpa using hrange, (yields_pure.1 h).1⟩

/-- The code of an operation other than a shift to the right, whose second operand does not depend
on the result. -/
theorem ruleCode_calculates (hne : source ≠ .ashr)
    (h : Yields (sc.ruleCode source dst a b) s code s')
    (hb : ∀ (σ : Valuation) n, b.eval (Function.update σ dst n) = b.eval σ) :
    if source.isComputed a b then StartsFromVariables code ∧
      Calculates code dst fun M σ => M.binary source (a.eval σ) (b.eval σ)
    else code = sc.forget dst := by
  unfold ruleCode at h
  split at h
  next op hrule =>
    have harith := arithCode_calculates h hb
    rw [BinaryOp.isComputed_of_arith hrule]
    simp only [fun M => Operations.binary_of_arith M hrule]
    cases hconstants : op.isUnsigned && a.isConst && b.isConst with
    | true => simpa [hconstants] using harith
    | false => simpa [hconstants] using harith
  next op hrule =>
    rw [BinaryOp.isComputed_of_shift hrule]
    obtain ⟨rfl, rfl⟩ := BinaryOp.eq_shl_of_shift hrule hne
    obtain ⟨k, rfl, hk, hle, rfl⟩ | ⟨hcomputed, hcode⟩ := shiftCode_eq h
    · have hcomputed : ((AffineForm.const k).toConst?.any fun k => 0 ≤ k ∧ k ≤ 126) = true := by
        rw [AffineForm.toConst?_eq_some_iff.2 rfl]
        simpa using ⟨hk, hle⟩
      rw [if_pos hcomputed]
      have hproduct : Calculates [.arith .mul dst a (.const (2 ^ k.toNat))] dst _ := .arith
      refine ⟨.arith nofun, fun M σ τ => ?_⟩
      rw [hproduct M σ τ]
      simp only [AffineForm.eval_const, M.binary_shl hk]
    · rw [hcomputed]
      exact hcode
  next op hrule =>
    obtain ⟨rfl, -⟩ := yields_pure.1 h
    rw [if_pos (BinaryOp.isComputed_of_bitwise hrule)]
    simp only [fun M => Operations.binary_of_bitwise M hrule]
    exact ⟨.bitwise, .bitwise⟩
  next hrule =>
    rw [if_neg (by simp [BinaryOp.isComputed_of_unmodelled hrule])]
    exact (yields_pure.1 h).1

theorem instCode_of_binary (hkind : sc.body.kind? (.inst id) = some (.binary source u v)) :
    sc.instCode id = sc.binaryCode id source u v := by
  obtain ⟨inst, hinst, hkind⟩ := Option.map_eq_some_iff.1 hkind
  rw [instCode, show sc.body.inst? id = some inst from hinst]
  simp only [hkind]

/-- The code of a binary instruction is that of its operation if there is one and the operands can
be expressed, and else makes the result unknown. -/
theorem binaryCode_inv (htracks : sc.tracks (.inst id) = .ok true)
    (h : Yields (sc.binaryCode id source u v) s code s') (hF : s'.supply.Extends F) :
    ∃ dst, sc.Denotes F (.inst id) dst ∧
      ((∃ p q s₁, sc.form? F u = some p ∧ sc.form? F v = some q ∧
          Yields (sc.ruleCode source dst p q) s₁ code s') ∨
        (BinaryRule.of source = .unmodelled ∨ sc.form? F u = none ∨ sc.form? F v = none) ∧
          code = sc.forget dst) := by
  rcases yields_onlyIf.1 h with ⟨-, h⟩ | ⟨hnot, -⟩
  swap
  · cases htracks.symm.trans hnot
  obtain ⟨dst, s₁, hdst, h⟩ := yields_bind.1 h
  refine ⟨dst, ?_⟩
  split at h
  next hrule =>
    obtain ⟨rfl, rfl⟩ := yields_pure.1 h
    exact ⟨(variableOf_spec hdst hF).2, .inr ⟨.inl hrule, rfl⟩⟩
  next =>
    simp only [yields_bind] at h
    obtain ⟨p?, s₂, hp, q?, s₃, hq, h⟩ := h
    have hF₃ : s₃.supply.Extends F := by
      split at h
      next => exact (sc.ruleCode_grows _ _ _ _ _ _ _ h).trans hF
      next =>
        obtain ⟨-, rfl⟩ := yields_pure.1 h
        exact hF
    have hF₂ := (sc.express_grows v _ _ _ hq).trans hF₃
    have hdenotes := (variableOf_spec hdst ((sc.express_grows u _ _ _ hp).trans hF₂)).2
    obtain ⟨rfl, -⟩ := express_form hp hF₂
    obtain ⟨rfl, -⟩ := express_form hq hF₃
    refine ⟨hdenotes, ?_⟩
    split at h
    next p q hp' hq' => exact .inl ⟨p, q, s₃, hp', hq', h⟩
    next hnone =>
      obtain ⟨rfl, rfl⟩ := yields_pure.1 h
      refine .inr ⟨.inr ?_, rfl⟩
      cases hu : sc.form? F u with
      | none => exact .inl rfl
      | some p =>
          cases hv : sc.form? F v with
          | none => exact .inr rfl
          | some q => exact absurd hv (hnone p q hu)

/-- A tracked binary instruction, other than a shift to the right, whose result is not its second
operand: its code computes what the instruction means, with no operation from a constant that has
to be from a variable, or it only makes the result unknown. It is the latter just if the operands
cannot be expressed or the operation has no code for them. There is code from every session. -/
theorem instCode_binary_exact (hkind : sc.body.kind? (.inst id) = some (.binary source u v))
    (htracks : sc.tracks (.inst id) = .ok true) (hother : v ≠ .inst id) (hne : source ≠ .ashr) :
    (∀ s code s' F, Yields (sc.instCode id) s code s' → s'.supply.Extends F →
      ∃ x, sc.form? F (.inst id) = some (.ofVar x) ∧
        ((∃ p q, sc.form? F u = some p ∧ sc.form? F v = some q ∧ source.isComputed p q = true ∧
            StartsFromVariables code ∧
            Calculates code x fun M σ => M.binary source (p.eval σ) (q.eval σ)) ∨
          (∀ p q, sc.form? F u = some p → sc.form? F v = some q → source.isComputed p q = false) ∧
            code = sc.forget x)) ∧
    (Answered (sc.tracks u) → Answered (sc.tracks v) →
      ∀ s, ∃ code s', Yields (sc.instCode id) s code s') := by
  rw [instCode_of_binary hkind]
  refine ⟨fun s code s' F h hF => ?_,
    fun hu hv s => ((binaryCode_safe_of_answered _ ⟨_, htracks⟩ hu hv).ok_iff s).2 rfl⟩
  obtain ⟨x, hx, ⟨p, q, s₁, hp, hq, hrule⟩ | ⟨hnone, hcode⟩⟩ := binaryCode_inv htracks h hF
  · refine ⟨x, form?_of_denotes htracks hx, ?_⟩
    -- the result may be written before the second operand is read, which is another variable
    have hq' : ∀ (σ : Valuation) n, q.eval (Function.update σ x n) = q.eval σ := fun σ n =>
      form?_eval_congr hx hother hq fun y hy =>
        .inl (by_contra fun hyx => hy (Function.update_of_ne hyx _ _))
    have hcalculates := ruleCode_calculates hne hrule hq'
    cases hcomputed : source.isComputed p q with
    | true =>
        rw [if_pos hcomputed] at hcalculates
        exact .inl ⟨p, q, hp, hq, hcomputed, hcalculates⟩
    | false =>
        rw [hcomputed] at hcalculates
        refine .inr ⟨fun p' q' hp' hq' => ?_, hcalculates⟩
        obtain rfl := Option.some.inj (hp.symm.trans hp')
        obtain rfl := Option.some.inj (hq.symm.trans hq')
        exact hcomputed
  · refine ⟨x, form?_of_denotes htracks hx, .inr ⟨fun p q hp hq => ?_, hcode⟩⟩
    rcases hnone with hrule | hu | hv
    · exact BinaryOp.isComputed_of_unmodelled hrule
    · cases hu.symm.trans hp
    · cases hv.symm.trans hq

/-- A function of a number, in a program without memory. -/
def numberScope (insts : List (Option String × Ty × InstKind)) : Scope :=
  let body := Body.ofListing [⟨"entry", insts, .ret none⟩]
  let func : Function :=
    { name := "f", params := [⟨"n", .int 32⟩], ret := .void, body := some body }
  ⟨{ funcs := #[func] }, ⟨0⟩, func, body, .silent, {}⟩

/-- Five minus the number. -/
def fromFiveScope : Scope :=
  numberScope [(some "x", .int 32, .binary .sub (.int 32 5) (.arg 0))]

/-- The five is put into the result, and the number is subtracted from it. -/
theorem instCode_binary_exact_fromFive :
    fromFiveScope.tracks (.inst ⟨0⟩) = .ok true ∧
    ∃ code s' x n, Yields (fromFiveScope.instCode ⟨0⟩) {} code s' ∧
      fromFiveScope.form? s'.supply (.inst ⟨0⟩) = some (.ofVar x) ∧
      fromFiveScope.form? s'.supply (.arg 0) = some (.ofVar n) ∧
      code = [.assign x (.const 5), .arith .sub x (.ofVar x) (.ofVar n)] ∧
      ∀ M σ τ, PerformAll M code σ τ ↔ τ = Function.update σ x (5 - σ n) := by
  have hkind : fromFiveScope.body.kind? (.inst ⟨0⟩) =
      some (.binary .sub (.int 32 5) (.arg 0)) := rfl
  have htracks : fromFiveScope.tracks (.inst ⟨0⟩) = .ok true := rfl
  obtain ⟨hexact, htotal⟩ := instCode_binary_exact hkind htracks (by decide) (by decide)
  obtain ⟨code, s', hcode⟩ := htotal ⟨_, rfl⟩ ⟨_, rfl⟩ {}
  obtain ⟨n, hn, hstmts⟩ : ∃ n, fromFiveScope.form? s'.supply (.arg 0) = some (.ofVar n) ∧
      ∀ x, fromFiveScope.form? s'.supply (.inst ⟨0⟩) = some (.ofVar x) →
        code = [.assign x (.const 5), .arith .sub x (.ofVar x) (.ofVar n)] := by
    cases hcode
    refine ⟨_, rfl, fun x hx => ?_⟩
    cases hx
    rfl
  obtain ⟨x, hx, ⟨p, q, hp, hq, -, -, hcalculates⟩ | ⟨hnone, -⟩⟩ :=
    hexact {} code s' s'.supply hcode (.refl _)
  · refine ⟨htracks, code, s', x, n, hcode, hx, hn, hstmts x hx, fun M σ τ => ?_⟩
    obtain rfl : .const 5 = p := Option.some.inj hp
    obtain rfl := Option.some.inj (hn.symm.trans hq)
    rw [hcalculates M σ τ]
    simp [Operations.binary]
  · cases hnone _ _ rfl hn

end Scope

end AffineFlow
