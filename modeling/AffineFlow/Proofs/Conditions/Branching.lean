import AffineFlow.Proofs.Conditions.Comparisons
import AffineFlow.Proofs.Execution.Conditions
import AffineFlow.Proofs.Memory.Home
import Mathlib.Data.Int.Bitwise

/-!
# Conditions keep the edge that is taken

The assumptions for an outcome of a condition hold wherever the condition has
that outcome, so the edge that the source takes stays open. What the source
computes is given by a value for everything that can be an operand; the
variables hold these values where there are variables.
-/
namespace AffineFlow

open Ssa Lowering

/-- The values satisfy the equations of literals, comparisons, conjunctions and disjunctions. An
unsigned comparison is only one of integers where its operands are not negative. -/
structure Scope.Truthful (sc : Scope) (val : Value → Int) : Prop where
  literal : ∀ bits n, val (.int bits n) = literalValue bits n
  null : val .null = 0
  comparison : ∀ v pred a b, sc.body.kind? v = some (.compare pred a b) →
    (pred.isUnsigned = true → 0 ≤ val a ∧ 0 ≤ val b) →
    val v = (pred.test (val a) (val b)).toInt
  conjunction : ∀ v a b, sc.body.kind? v = some (.binary .and a b) →
    val v = Int.land (val a) (val b)
  disjunction : ∀ v a b, sc.body.kind? v = some (.binary .or a b) →
    val v = Int.lor (val a) (val b)

/-- The variable of a tracked value holds the value. -/
def Scope.Reflects (sc : Scope) (F : VarSupply) (val : Value → Int) (σ : Valuation) : Prop :=
  ∀ v x, sc.tracks v = .ok true → sc.Denotes F v x → σ x = val v

/-- The comparisons that a condition may be split into: itself and the operands of an operation. -/
def Scope.partsOf (sc : Scope) (cond : Value) : List Value :=
  match sc.body.kind? cond with
  | some (.binary _ a b) => [cond, a, b]
  | _ => [cond]

/-- Nothing is known of how the condition comes about. -/
def Scope.isOpaque (sc : Scope) (cond : Value) : Bool :=
  cond.toInt?.isNone &&
    match sc.body.kind? cond with
    | some (.compare _ _ _) => false
    | some (.binary _ _ _) => false
    | _ => true

/-- The statements can be passed without a change to the variables: there is no unreachable point,
and all assumptions hold. -/
structure Permits (σ : Valuation) (stmts : List Stmt) : Prop where
  reachable : Stmt.unreachable ∉ stmts
  holds : ∀ c, Stmt.assume c ∈ stmts → c.Holds σ
  run : RunAll stmts σ σ

namespace Permits

variable {σ : Valuation} {stmts stmts' : List Stmt} {cs : List Constraint} {x : Var}

theorem nil : Permits σ [] := ⟨List.not_mem_nil, fun _ hc => absurd hc List.not_mem_nil, .nil⟩

theorem assume {c : Constraint} (hc : c.Holds σ) : Permits σ [.assume c] where
  reachable := by simp
  holds d hd := by
    obtain rfl : d = c := by simpa using hd
    exact hc
  run := runAll_singleton_iff.2 (.assume hc)

theorem havoc : Permits σ [.havoc x] where
  reachable := by simp
  holds c hc := by simp at hc
  run := runAll_singleton_iff.2 (runs_havoc_iff.2 ⟨σ x, (Function.update_eq_self x σ).symm⟩)

theorem append (h : Permits σ stmts) (h' : Permits σ stmts') : Permits σ (stmts ++ stmts') where
  reachable hm := (List.mem_append.1 hm).elim h.reachable h'.reachable
  holds c hc := (List.mem_append.1 hc).elim (h.holds c) (h'.holds c)
  run := runAll_append_iff.2 ⟨σ, h.run, h'.run⟩

theorem assumes (hcs : ∀ c ∈ cs, c.Holds σ) : Permits σ (cs.map .assume) := by
  induction cs with
  | nil => exact .nil
  | cons c rest ih =>
      obtain ⟨hc, hrest⟩ := List.forall_mem_cons.1 hcs
      exact (assume hc).append (ih hrest)

end Permits

namespace Scope

variable {sc : Scope} {F : VarSupply} {s s' : Session} {val : Value → Int} {σ : Valuation}
  {stmts : List Stmt} {cond v a b : Value} {pred : Predicate} {negated : Bool} {e : AffineForm}
  {cs : List Constraint}

/-- Whatever the values are, the variables can hold them. -/
theorem exists_reflects (sc : Scope) (F : VarSupply) (val : Value → Int) :
    ∃ σ, sc.Reflects F val σ := by
  classical
  refine ⟨fun x => if h : ∃ v, sc.Denotes F v x then val h.choose else 0, fun v x _ hx => ?_⟩
  have hsome : ∃ v, sc.Denotes F v x := ⟨v, hx⟩
  exact (dif_pos hsome).trans (congrArg val (hsome.choose_spec.value_unique hx))

/-- A literal is false just if it is written as zero. -/
theorem Truthful.literal_eq_zero_iff {n : Int} (hval : sc.Truthful val) (hv : v.toInt? = some n) :
    val v = 0 ↔ n = 0 := by
  obtain ⟨bits, rfl⟩ : ∃ bits, v = .int bits n := by
    cases v <;> cases hv
    exact ⟨_, rfl⟩
  rw [hval.literal, literalValue]
  split
  · simp
  · rfl

/-- The form of an operand has the value of the operand. -/
theorem form?_eval (hval : sc.Truthful val) (hσ : sc.Reflects F val σ)
    (he : sc.form? F v = some e) : e.eval σ = val v := by
  have hvar : v.isLiteral = false → e.eval σ = val v := by
    intro hv
    obtain ⟨htracks, x, hx, rfl⟩ := (form?_eq_some_iff hv).1 he
    rw [AffineForm.eval_ofVar]
    exact hσ v x htracks hx
  cases v with
  | int bits n =>
      rw [hval.literal, literalValue]
      simp only [form?] at he
      split at he
      next hb =>
        obtain rfl := Option.some.inj he
        rw [if_pos hb, AffineForm.eval_const]
      next hb =>
        obtain ⟨m, hm, rfl⟩ := Option.map_eq_some_iff.1 he
        have hfit := fit64_eq (Option.isSome_iff_exists.2 ⟨m, hm⟩)
        obtain rfl := Option.some.inj (hm.symm.trans hfit)
        rw [if_neg hb, AffineForm.eval_const]
  | null =>
      simp only [form?] at he
      split at he
      next =>
        obtain rfl := Option.some.inj he
        rw [hval.null, AffineForm.eval_const]
      next => cases he
  | undef bits => cases he
  | inst id => exact hvar rfl
  | arg i => exact hvar rfl
  | global id => exact hvar rfl
  | func id => exact hvar rfl

/-- The constraints for an outcome hold where the comparison has that outcome. -/
theorem comparisonConstraints_hold (hval : sc.Truthful val) (hσ : sc.Reflects F val σ)
    (h : Yields (sc.comparisonConstraints pred a b negated) s cs s') (hF : s'.supply.Extends F)
    (hsigned : pred.isUnsigned = true → 0 ≤ val a ∧ 0 ≤ val b)
    (houtcome : pred.test (val a) (val b) = !negated) : ∀ c ∈ cs, c.Holds σ := by
  cases hexpressible : sc.isExpressible a && sc.isExpressible b with
  | false =>
      rw [comparisonConstraints_inexpressible h hexpressible]
      exact List.forall_mem_nil _
  | true =>
      obtain ⟨ha, hb⟩ := Bool.and_eq_true_iff.1 hexpressible
      obtain ⟨x, y, hx, hy, hiff⟩ := comparisonConstraints_holds_iff h hF ha hb
      have hxv := form?_eval hval hσ hx
      have hyv := form?_eval hval hσ hy
      refine (hiff σ).2 ⟨by rw [hxv, hyv, houtcome], fun hunsigned => ?_⟩
      obtain ⟨hna, hnb⟩ := hsigned hunsigned
      simp only [List.forall_mem_cons, hxv, hyv]
      exact ⟨fun _ => hna, fun _ => hnb, List.forall_mem_nil _⟩

/-- The variable of a condition with the outcome is one or zero. -/
theorem pinTracked_permits (hσ : sc.Reflects F val σ)
    (h : Yields (sc.pinTracked cond negated) s stmts s') (hF : s'.supply.Extends F)
    (hcond : val cond = (!negated).toInt) : Permits σ stmts := by
  rcases yields_onlyIf.1 h with ⟨ht, h⟩ | ⟨-, rfl, -⟩
  · simp only [yields_bind, yields_pure] at h
    obtain ⟨x, _, hx, rfl, rfl⟩ := h
    have hvalue := hσ cond x ht (variableOf_spec hx hF).2
    obtain ⟨hholds, -⟩ := runs_assume_iff.1 (pin_holds_iff.2 ⟨hvalue.trans hcond, rfl⟩)
    exact .assume hholds
  · exact .nil

/-- The value of a condition that is one or zero is its outcome. -/
theorem toInt_of_outcome {n : Int} (hn : n = 0 ∨ n = 1) (h : decide (n ≠ 0) = !negated) :
    n = (!negated).toInt := by
  rw [← h]
  rcases hn with rfl | rfl
  · rfl
  · rfl

theorem comparisonAssumptions_permits (hval : sc.Truthful val) (hσ : sc.Reflects F val σ)
    (hkind : sc.body.kind? cond = some (.compare pred a b))
    (h : Yields (sc.comparisonAssumptions cond pred a b negated) s stmts s')
    (hF : s'.supply.Extends F) (hsigned : pred.isUnsigned = true → 0 ≤ val a ∧ 0 ≤ val b)
    (houtcome : decide (val cond ≠ 0) = !negated) : Permits σ stmts := by
  have hcond := hval.comparison cond pred a b hkind hsigned
  have htest : pred.test (val a) (val b) = !negated := by
    rw [← houtcome, hcond]
    cases pred.test (val a) (val b) with
    | true => rfl
    | false => rfl
  rcases yields_onlyIf.1 h with ⟨-, h⟩ | ⟨-, rfl, -⟩
  swap
  · exact .nil
  simp only [yields_bind, yields_ite_bind, yields_pure] at h
  obtain ⟨cs, s₁, hcs, pinned, s₂, hpinned, rfl, rfl⟩ := h
  rw [htest] at hcond
  obtain ⟨hgrown, hpermits⟩ : s₁.supply.Extends s'.supply ∧ Permits σ pinned := by
    split at hpinned
    · exact ⟨sc.pinTracked_grows _ _ _ _ _ hpinned, pinTracked_permits hσ hpinned hF hcond⟩
    · obtain ⟨rfl, rfl⟩ := yields_pure.1 hpinned
      exact ⟨.refl _, .nil⟩
  have hholds := comparisonConstraints_hold hval hσ hcs (hgrown.trans hF) hsigned htest
  exact (Permits.assumes hholds).append hpermits

/-- Two operands that both have the outcome, if they are comparisons. -/
theorem bothAssumptions_permits (hval : sc.Truthful val) (hσ : sc.Reflects F val σ)
    (h : Yields (sc.bothAssumptions a b negated) s stmts s') (hF : s'.supply.Extends F)
    (hsigned : ∀ v ∈ [a, b], ∀ pred u w, sc.body.kind? v = some (.compare pred u w) →
      pred.isUnsigned = true → 0 ≤ val u ∧ 0 ≤ val w)
    (houtcome : ∀ p q : Bool, val a = p.toInt → val b = q.toInt → p = (!negated) ∧ q = !negated) :
    Permits σ stmts := by
  simp only [bothAssumptions, yields_bind, yields_ofExcept] at h
  obtain ⟨first, _, ⟨hfirst, rfl⟩, second, _, ⟨hsecond, rfl⟩, h⟩ := h
  split at h
  next p a₁ b₁ q a₂ b₂ =>
    have hkinda := kind?_of_comparison? hfirst
    have hkindb := kind?_of_comparison? hsecond
    have hsigneda := hsigned a (.head _) p a₁ b₁ hkinda
    have hsignedb := hsigned b (.tail _ (.head _)) q a₂ b₂ hkindb
    simp only [yields_bind, yields_pure] at h
    obtain ⟨left, s₁, hleft, right, s₂, hright, rfl, rfl⟩ := h
    have hgrown := sc.comparisonConstraints_grows _ _ _ _ _ _ _ hright
    obtain ⟨hp, hq⟩ := houtcome _ _ (hval.comparison a p a₁ b₁ hkinda hsigneda)
      (hval.comparison b q a₂ b₂ hkindb hsignedb)
    refine .assumes (List.forall_mem_append.2 ⟨?_, ?_⟩)
    · exact comparisonConstraints_hold hval hσ hleft (hgrown.trans hF) hsigneda hp
    · exact comparisonConstraints_hold hval hσ hright hF hsignedb hq
  next =>
    rw [(yields_pure.1 h).1]
    exact .nil

theorem connectiveAssumptions_permits {op : BinaryOp} (hval : sc.Truthful val)
    (hσ : sc.Reflects F val σ) (hkind : sc.body.kind? cond = some (.binary op a b))
    (h : Yields (sc.connectiveAssumptions cond op a b negated) s stmts s')
    (hF : s'.supply.Extends F)
    (hsigned : ∀ v ∈ [a, b], ∀ pred u w, sc.body.kind? v = some (.compare pred u w) →
      pred.isUnsigned = true → 0 ≤ val u ∧ 0 ≤ val w)
    (houtcome : decide (val cond ≠ 0) = !negated) : Permits σ stmts := by
  unfold connectiveAssumptions at h
  split at h
  next =>
    -- both operands of a conjunction that is true are true
    refine bothAssumptions_permits hval hσ h hF hsigned fun p q hp hq => ?_
    rw [hval.conjunction cond a b hkind, hp, hq] at houtcome
    revert houtcome
    cases p <;> cases q <;> decide
  next =>
    -- both operands of a disjunction that is false are false
    refine bothAssumptions_permits hval hσ h hF hsigned fun p q hp hq => ?_
    rw [hval.disjunction cond a b hkind, hp, hq] at houtcome
    revert houtcome
    cases p <;> cases q <;> decide
  next =>
    rw [(yields_pure.1 h).1]
    exact .nil
  next =>
    rw [(yields_pure.1 h).1]
    exact .nil
  next =>
    split at h
    · rcases yields_onlyIf.1 h with ⟨-, h⟩ | ⟨-, rfl, -⟩
      · simp only [yields_bind, yields_pure] at h
        obtain ⟨x, _, -, rfl, -⟩ := h
        exact .havoc
      · exact .nil
    · rw [(yields_pure.1 h).1]
      exact .nil

/-- A literal condition leaves nothing to assume: its edge is open, the other one is closed. -/
theorem assumptions_literal {n : Int} {b : Bool} (s : Session) (hcond : cond.toInt? = some n) :
    Yields (sc.assumptions cond (!b)) s (if decide (n ≠ 0) = b then [] else [.unreachable]) s := by
  unfold assumptions
  rw [hcond]
  refine yields_pure.2 ⟨?_, rfl⟩
  by_cases hn : n = 0
  · cases b <;> simp [hn]
  · cases b <;> simp [hn]

theorem assumptions_permits (hval : sc.Truthful val) (hσ : sc.Reflects F val σ)
    (h : Yields (sc.assumptions cond negated) s stmts s') (hF : s'.supply.Extends F)
    (htruth : sc.isOpaque cond = true → val cond = 0 ∨ val cond = 1)
    (hsigned : ∀ v ∈ sc.partsOf cond, ∀ pred a b, sc.body.kind? v = some (.compare pred a b) →
      pred.isUnsigned = true → 0 ≤ val a ∧ 0 ≤ val b)
    (houtcome : decide (val cond ≠ 0) = !negated) : Permits σ stmts := by
  unfold assumptions at h
  split at h
  next n hn =>
    have hopen : ¬((n ≠ 0) = negated) := by
      have hne : decide (n ≠ 0) = !negated := by
        rw [← houtcome]
        exact decide_eq_decide.2 (not_congr (hval.literal_eq_zero_iff hn).symm)
      intro hclosed
      simp only [hclosed, Bool.decide_eq_true, Bool.eq_not_self] at hne
    rw [(yields_pure.1 h).1, if_neg hopen]
    exact .nil
  next hnone =>
  split at h
  next pred a b hkind =>
    have hself : cond ∈ sc.partsOf cond := by rw [partsOf, hkind]; exact .head _
    exact comparisonAssumptions_permits hval hσ hkind h hF (hsigned cond hself pred a b hkind)
      houtcome
  next op a b hkind =>
    refine connectiveAssumptions_permits hval hσ hkind h hF (fun v hv => hsigned v ?_) houtcome
    rw [partsOf, hkind]
    exact .tail _ hv
  next hcompare hbinary =>
    have hcond : sc.isOpaque cond = true := by
      unfold isOpaque
      rw [hnone]
      split
      next hkind => exact absurd hkind (hcompare _ _ _)
      next hkind => exact absurd hkind (hbinary _ _ _)
      next => rfl
    exact pinTracked_permits hσ h hF (toInt_of_outcome (htruth hcond) houtcome)

/-- Where a condition has an outcome, in values that are those of the source and that the variables
hold, the assumptions for that outcome can be passed. A literal is passed or not as it says, and in
a well-formed function the assumptions for a condition that is an integer can be found from every
session. -/
theorem assumptions_keep_outcome (sc : Scope) (cond : Value) (outcome : Bool) :
    (∀ val, sc.Truthful val → (sc.isOpaque cond = true → val cond = 0 ∨ val cond = 1) →
      (∀ v ∈ sc.partsOf cond, ∀ pred a b, sc.body.kind? v = some (.compare pred a b) →
        pred.isUnsigned = true → 0 ≤ val a ∧ 0 ≤ val b) →
      decide (val cond ≠ 0) = outcome →
      ∀ F s stmts s' σ, Yields (sc.assumptions cond (!outcome)) s stmts s' →
        s'.supply.Extends F → sc.Reflects F val σ → Permits σ stmts) ∧
    (∀ n, cond.toInt? = some n → ∀ s, Yields (sc.assumptions cond (!outcome)) s
      (if decide (n ≠ 0) = outcome then [] else [.unreachable]) s) ∧
    (sc.WellFormed → sc.isLive cond = true → sc.isInteger cond = true →
      ∀ s, ∃ stmts s', Yields (sc.assumptions cond (!outcome)) s stmts s') := by
  refine ⟨?_, fun n hn s => assumptions_literal s hn, fun hw hlive hinteger s => ?_⟩
  · intro val hval htruth hsigned houtcome F s stmts s' σ h hF hσ
    exact assumptions_permits hval hσ h hF htruth hsigned (by rw [houtcome, Bool.not_not])
  · exact ((hw.assumptions_safe hlive hinteger).ok_iff s).2 rfl

/-- A branch on whether a number is below another one, both read as unsigned, and the other one is
at least three. -/
def rangeBody : Body := Body.ofListing [
  ⟨"entry", [
      (some "below", .int 1, .compare .ult (.arg 0) (.arg 1)),
      (some "large", .int 1, .compare .sge (.arg 1) (.int 32 3)),
      (some "both", .int 1, .binary .and (.inst ⟨0⟩) (.inst ⟨1⟩))],
    .condBr (.inst ⟨2⟩) ⟨1⟩ ⟨1⟩⟩,
  ⟨"done", [], .ret none⟩]

def range : Function where
  name := "range"
  params := [⟨"m", .int 32⟩, ⟨"n", .int 32⟩]
  ret := .void
  body := some rangeBody

def rangeScope : Scope := ⟨{ funcs := #[range] }, ⟨0⟩, range, rangeBody, .silent, {}⟩

/-- The values where the two numbers are two and five. -/
def rangeValues : Value → Int
  | .inst _ => 1
  | .arg 0 => 2
  | .arg 1 => 5
  | .int bits n => literalValue bits n
  | _ => 0

theorem truthful_rangeValues : rangeScope.Truthful rangeValues := by
  have hkind : ∀ v kind, rangeBody.kind? v = some kind → rangeValues v = 1 ∧
      (kind = .compare .ult (.arg 0) (.arg 1) ∨ kind = .compare .sge (.arg 1) (.int 32 3) ∨
        kind = .binary .and (.inst ⟨0⟩) (.inst ⟨1⟩)) := by
    intro v kind h
    cases v with
    | inst id =>
        obtain ⟨i⟩ := id
        match i with
        | 0 => exact ⟨rfl, .inl (Option.some.inj h).symm⟩
        | 1 => exact ⟨rfl, .inr (.inl (Option.some.inj h).symm)⟩
        | 2 => exact ⟨rfl, .inr (.inr (Option.some.inj h).symm)⟩
        | _ + 3 => cases h
    | _ => cases h
  constructor
  case literal => exact fun _ _ => rfl
  case null => rfl
  case comparison =>
    intro v pred a b h _
    obtain ⟨hone, h | h | h⟩ := hkind v _ h
    · cases h
      exact hone
    · cases h
      exact hone
    · cases h
  case conjunction =>
    intro v a b h
    obtain ⟨hone, h | h | h⟩ := hkind v _ h
    · cases h
    · cases h
    · cases h
      exact hone
  case disjunction =>
    intro v a b h
    obtain ⟨-, h | h | h⟩ := hkind v _ h
    · cases h
    · cases h
    · cases h

/-- The branch is taken, and the signs of both numbers and the two comparisons are assumed there; a
literal that is false closes that edge. -/
theorem assumptions_keep_outcome_range :
    rangeScope.Truthful rangeValues ∧ rangeScope.WellFormed ∧
    (∃ stmts s', Yields (rangeScope.assumptions (.inst ⟨2⟩) false) {} stmts s' ∧
      stmts.length = 4 ∧ (∃ σ, rangeScope.Reflects s'.supply rangeValues σ) ∧
      ∀ σ, rangeScope.Reflects s'.supply rangeValues σ → Permits σ stmts) ∧
    Yields (rangeScope.assumptions (.int 1 0) false) {} [.unreachable] {} := by
  have hw : rangeScope.WellFormed :=
    { body_eq := rfl
      order_ne_nil := by decide
      order_nodup := by decide
      blocks := by decide
      operands_live := by decide
      objects_live := nofun
      pointers_wide := by decide }
  obtain ⟨hpermits, -, htotal⟩ := assumptions_keep_outcome rangeScope (.inst ⟨2⟩) true
  obtain ⟨stmts, s', h⟩ := htotal hw rfl rfl {}
  refine ⟨truthful_rangeValues, hw, ⟨stmts, s', h, ?_, exists_reflects _ _ _, ?_⟩, ?_⟩
  · cases h
    rfl
  · intro σ hσ
    refine hpermits rangeValues truthful_rangeValues nofun ?_ rfl _ {} stmts s' σ h (.refl _) hσ
    intro v hv pred a b hkind hunsigned
    rcases List.mem_cons.1 hv with rfl | hv
    · cases hkind
    rcases List.mem_cons.1 hv with rfl | hv
    · cases hkind
      exact ⟨by decide, by decide⟩
    obtain rfl := List.mem_singleton.1 hv
    cases hkind
    cases hunsigned
  · exact (assumptions_keep_outcome rangeScope (.int 1 0) true).2.1 0 rfl {}

end Scope

end AffineFlow
