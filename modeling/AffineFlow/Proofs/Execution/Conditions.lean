import AffineFlow.Proofs.Execution.Instructions
import AffineFlow.Proofs.PlainGraph

/-!
# What the code of a condition does

The assumptions on an edge hold just if somebody to whom the comparisons are
frozen would let control take that edge. They leave the variables as they are,
apart from a condition that is the result of an operation: it is forgotten.
-/
namespace AffineFlow

open Ssa Lowering

namespace Scope

variable {sc : Scope} {F : VarSupply} {s s' : Session} {κ : InstId → Int} {α : Nat → Int}
  {ρ : Env} {σ τ : Valuation} {stmts : List Stmt} {c : Value} {negated : Bool} {n : Int}

/-- At most the variable of an operation that has been executed has another value. -/
def Forgets (sc : Scope) (F : VarSupply) (ρ : Env) (σ τ : Valuation) : Prop :=
  τ = σ ∨ ∃ id op a b x m, sc.body.kind? (.inst id) = some (.binary op a b) ∧
    sc.hidden (.inst id) = false ∧ (ρ id).isSome ∧
    F.find? (.value sc.funcId (.inst id)) = some x ∧ τ = Function.update σ x m

theorem pin_holds_iff {x : Var} : (pin x negated).Runs σ τ ↔ σ x = (!negated).toInt ∧ τ = σ := by
  rw [pin, runs_assume_iff]
  apply and_congr_left
  intro _
  rw [Constraint.holds_eq_iff, AffineForm.eval_ofVar, AffineForm.eval_const]
  cases negated <;> rfl

theorem pinTracked_runs (hc : sc.isNumber c = true) (hliteral : c.toInt? = none)
    (h : Yields (sc.pinTracked c negated) s stmts s') (hF : s'.supply.Extends F)
    (hagrees : sc.Agrees F κ α ρ σ) (hreads : c.Reads α ρ n) : RunAll stmts σ τ ↔
      (∀ m, sc.frozen κ α ρ c = some m → m = (!negated).toInt) ∧ τ = σ := by
  have htracks := tracks_of_isNumber hc
  rcases yields_onlyIf.1 h with ⟨ht, h⟩ | ⟨ht, rfl, -⟩
  · have hshown : sc.hidden c = false := by simpa [htracks] using ht
    simp only [yields_bind, yields_pure] at h
    obtain ⟨x, _, hx, rfl, rfl⟩ := h
    rw [runAll_singleton_iff, pin_holds_iff,
      variableOf_agrees hc hliteral hshown hx hF hagrees hreads]
    simp
  · have hhidden : sc.hidden c = true := by simpa [htracks] using ht
    rw [frozen_of_hidden hhidden]
    simp [runAll_nil_iff]

theorem comparisonAssumptions_runs {pred : Predicate} {a b : Value}
    (hkind : sc.body.kind? c = some (.compare pred a b)) (hc : sc.isNumber c = true)
    (hliteral : c.toInt? = none)
    (h : Yields (sc.comparisonAssumptions c pred a b negated) s stmts s')
    (hF : s'.supply.Extends F) (hagrees : sc.Agrees F κ α ρ σ) (hreads : c.Reads α ρ n) :
    RunAll stmts σ τ ↔ sc.MayBe (sc.frozen κ α ρ) c (!negated) ∧ τ = σ := by
  obtain ⟨hpred, ha, hb, hda, hdb⟩ := hagrees.coherent.operands hkind hreads
  have hmay : sc.MayBe (sc.frozen κ α ρ) c (!negated) ↔
      (∀ u, sc.outcome? (sc.frozen κ α ρ) c = some u → u = !negated) ∧
        (2 ≤ sc.useCount c → ∀ m, sc.frozen κ α ρ c = some m → m = (!negated).toInt) := by
    rw [MayBe, hliteral]
    simp only [hkind]
  rw [comparisonAssumptions, operandsFlow_of_isNumber ha hb] at h
  rcases yields_onlyIf.1 h with ⟨-, h⟩ | ⟨he, -⟩
  swap
  · cases he
  simp only [yields_bind, yields_ite_bind, yields_pure] at h
  obtain ⟨cs, s₁, hcs, pinned, s₂, hpinned, rfl, rfl⟩ := h
  have hpins : s₁.supply.Extends s'.supply ∧ ∀ σ' : Valuation, σ' = σ →
      (RunAll pinned σ' τ ↔
        (2 ≤ sc.useCount c → ∀ m, sc.frozen κ α ρ c = some m → m = (!negated).toInt) ∧
          τ = σ) := by
    split at hpinned
    next huses =>
      refine ⟨sc.pinTracked_grows _ _ _ _ _ hpinned, ?_⟩
      rintro σ' rfl
      rw [pinTracked_runs hc hliteral hpinned hF hagrees hreads]
      simp [huses]
    next huses =>
      obtain ⟨rfl, rfl⟩ := yields_pure.1 hpinned
      refine ⟨.refl _, ?_⟩
      rintro σ' rfl
      simp [runAll_nil_iff, huses]
  rw [hmay, runAll_append_iff, and_assoc]
  rcases constraints_known hkind hpred ha hb hcs (hpins.1.trans hF) hagrees hda hdb with
    ⟨rfl, hnone⟩ | ⟨k, u, rfl, hsome, hk⟩
  · simp only [List.map_nil, runAll_nil_iff, exists_eq_left, hpins.2 σ rfl, hnone, reduceCtorEq,
      false_implies, implies_true, true_and]
  · simp only [List.map_singleton, runAll_singleton_iff, runs_assume_iff, hk, hsome,
      Option.some.injEq, forall_eq']
    constructor
    · intro hcross
      obtain ⟨σ', ⟨hu, rfl⟩, hrun⟩ := hcross
      exact ⟨hu, (hpins.2 _ rfl).1 hrun⟩
    · intro hparts
      obtain ⟨hu, hrest⟩ := hparts
      exact ⟨σ, ⟨hu, rfl⟩, (hpins.2 _ rfl).2 hrest⟩

/-- The result of an operation is forgotten, whatever it is. -/
theorem connectiveAssumptions_runs {id : InstId} {op : BinaryOp} {a b : Value}
    (hkind : sc.body.kind? (.inst id) = some (.binary op a b))
    (hc : sc.isNumber (.inst id) = true) (hhavoc : sc.settings.explicitHavoc = true)
    (h : Yields (sc.connectiveAssumptions (.inst id) op a b negated) s stmts s')
    (hF : s'.supply.Extends F) (hcoherent : sc.Coherent ρ) (hdefined : (ρ id).isSome) :
    RunAll stmts σ σ ∧ ∀ τ, RunAll stmts σ τ → sc.Forgets F ρ σ τ := by
  have hcode : sc.connectiveAssumptions (.inst id) op a b negated =
      Lowering.onlyIf (sc.tracks (.inst id)) (do
        return [.havoc (← sc.variableOf (.inst id))]) := by
    rcases (hcoherent.binary id op a b hkind hdefined).1 with rfl | rfl | rfl
    · simp only [connectiveAssumptions, hhavoc, if_true]
    · simp only [connectiveAssumptions, hhavoc, if_true]
    · simp only [connectiveAssumptions, hhavoc, if_true]
  rw [hcode] at h
  rcases yields_onlyIf.1 h with ⟨ht, h⟩ | ⟨-, rfl, -⟩
  · have hshown : sc.hidden (.inst id) = false := by simpa [tracks_of_isNumber hc] using ht
    simp only [yields_bind, yields_pure] at h
    obtain ⟨x, _, hx, rfl, rfl⟩ := h
    have hfind := variableOf_inst hx hF
    refine ⟨?_, fun τ hrun => ?_⟩
    · rw [runAll_singleton_iff, runs_havoc_iff]
      exact ⟨σ x, (Function.update_eq_self x σ).symm⟩
    · rw [runAll_singleton_iff, runs_havoc_iff] at hrun
      obtain ⟨m, rfl⟩ := hrun
      exact .inr ⟨id, op, a, b, x, m, hkind, hshown, hdefined, hfind, rfl⟩
  · exact ⟨.nil, fun τ hrun => .inl (runAll_nil_iff.1 hrun)⟩

/-- The statements let control pass just if `P`, and then do no more than forget. -/
structure Guards (sc : Scope) (F : VarSupply) (ρ : Env) (σ : Valuation) (P : Prop)
    (stmts : List Stmt) : Prop where
  pass : P → RunAll stmts σ σ
  only : ∀ τ, RunAll stmts σ τ → P ∧ sc.Forgets F ρ σ τ

theorem Guards.of_iff {P : Prop} (h : ∀ τ, RunAll stmts σ τ ↔ P ∧ τ = σ) :
    sc.Guards F ρ σ P stmts := by
  constructor
  · intro hP
    exact (h σ).2 ⟨hP, rfl⟩
  · intro τ hrun
    obtain ⟨hP, he⟩ := (h τ).1 hrun
    exact ⟨hP, .inl he⟩

theorem runAll_unreachable_iff {P : Prop} [Decidable P] :
    RunAll (if P then [.unreachable] else []) σ τ ↔ ¬P ∧ τ = σ := by
  by_cases hP : P
  · simp only [hP, if_true, not_true_eq_false, false_and, iff_false]
    rintro (_ | ⟨⟨⟩, _⟩)
  · simp [hP, runAll_nil_iff]

/-- An outcome that a condition may have lets control pass, and no other. -/
theorem assumptions_runs (hc : sc.isNumber c = true) (hhavoc : sc.settings.explicitHavoc = true)
    (h : Yields (sc.assumptions c negated) s stmts s') (hF : s'.supply.Extends F)
    (hagrees : sc.Agrees F κ α ρ σ) (hreads : c.Reads α ρ n) :
    sc.Guards F ρ σ (sc.MayBe (sc.frozen κ α ρ) c (!negated)) stmts := by
  unfold assumptions at h
  split at h
  next k hk =>
    apply Guards.of_iff
    intro τ
    have hmay : sc.MayBe (sc.frozen κ α ρ) c (!negated) ↔ ¬((k ≠ 0) = negated) := by
      rw [MayBe, hk]
      cases negated <;> simp
    rw [(yields_pure.1 h).1, runAll_unreachable_iff, hmay]
  next hk =>
  split at h
  next pred a b hkind =>
    apply Guards.of_iff
    intro τ
    exact comparisonAssumptions_runs hkind hc hk h hF hagrees hreads
  next op a b hkind =>
    have hmay : sc.MayBe (sc.frozen κ α ρ) c (!negated) := by
      rw [MayBe, hk]
      simp only [hkind]
    cases c with
    | inst id =>
        have hdefined := Option.isSome_iff_exists.2 ⟨n, hreads⟩
        obtain ⟨hstay, hforget⟩ :=
          connectiveAssumptions_runs hkind hc hhavoc h hF hagrees.coherent hdefined
        exact ⟨fun _ => hstay, fun τ hrun => ⟨hmay, hforget τ hrun⟩⟩
    | arg i => cases hkind
    | global id => cases hkind
    | func id => cases hkind
    | int bits k => cases hkind
    | null => cases hkind
    | undef bits => cases hkind
  next hcompare hbinary =>
    have hmay : sc.MayBe (sc.frozen κ α ρ) c (!negated) ↔
        ∀ m, sc.frozen κ α ρ c = some m → m = (!negated).toInt := by
      rw [MayBe, hk]
      dsimp only
      split
      next pred a b hkind => exact absurd hkind (hcompare pred a b)
      next op a b hkind => exact absurd hkind (hbinary op a b)
      next => rfl
    apply Guards.of_iff
    intro τ
    rw [hmay]
    exact pinTracked_runs hc hk h hF hagrees hreads

theorem fit64_eq {k : Int} (h : (fit64 k).isSome) : fit64 k = some k := by
  unfold fit64 at h ⊢
  split at h
  next hk => exact if_pos hk
  next => cases h

theorem defaultCase_runs {e : AffineForm} {cases : List Int}
    (hfit : ∀ k ∈ cases, (fit64 k).isSome) :
    RunAll (defaultCase e cases) σ τ ↔ e.eval σ ∉ cases ∧ τ = σ := by
  induction cases with
  | nil => simp [defaultCase, runAll_nil_iff]
  | cons k rest ih =>
      obtain ⟨hk, hrest⟩ := List.forall_mem_cons.1 hfit
      have hcode : defaultCase e (k :: rest) =
          (Constraint.ne e (.const k)).assumption ++ defaultCase e rest := by
        rw [defaultCase, List.filterMap_cons_some (fit64_eq hk), List.flatMap_cons]
        rfl
      rw [hcode, runAll_append_iff, List.mem_cons, not_or]
      simp only [runAll_assumption_iff, Constraint.holds_ne_iff, AffineForm.eval_const]
      constructor
      · intro h
        obtain ⟨_, ⟨hek, rfl⟩, hrun⟩ := h
        obtain ⟨hmem, rfl⟩ := (ih hrest).1 hrun
        exact ⟨⟨hek, hmem⟩, rfl⟩
      · intro h
        obtain ⟨⟨hek, hmem⟩, rfl⟩ := h
        exact ⟨τ, ⟨hek, rfl⟩, (ih hrest).2 ⟨hmem, rfl⟩⟩

theorem matchedCase_runs {e : AffineForm} {case? : Option Int}
    (hfit : ∀ k, case? = some k → (fit64 k).isSome) :
    RunAll (matchedCase e case?) σ τ ↔ (∀ k, case? = some k → e.eval σ = k) ∧ τ = σ := by
  cases case? with
  | none => simp [matchedCase, runAll_nil_iff]
  | some k =>
      rw [matchedCase, Option.bind_some, fit64_eq (hfit k rfl)]
      simp only [runAll_assumption_iff, Constraint.holds_eq_iff, AffineForm.eval_const,
        Option.some.injEq, forall_eq']

/-- An edge of a switch is on the value, as far as it is seen. -/
theorem switchCondition_runs {v : Value} {cases : List Int} {targets : List BlockId} {index : Nat}
    (hv : sc.isNumber v = true) (hcases : ∀ k ∈ cases, (fit64 k).isSome)
    (h : Yields (sc.edgeCondition (.switch v cases targets) index) s stmts s')
    (hF : s'.supply.Extends F) (hagrees : sc.Agrees F κ α ρ σ) (hreads : v.Reads α ρ n) :
    RunAll stmts σ τ ↔
      (sc.known (sc.frozen κ α)).leaves ρ (.switch v cases targets) index ∧ τ = σ := by
  simp only [edgeCondition, yields_bind] at h
  obtain ⟨e?, s₁, he, h⟩ := h
  have hgrown : s₁.supply.Extends F := by
    split at h
    · exact (yields_pure.1 h).2 ▸ hF
    · split at h
      · exact (yields_pure.1 h).2 ▸ hF
      · exact (yields_pure.1 h).2 ▸ hF
  have hvalue := (express_spec hv he hgrown).agrees hv (defined_of_reads hreads) hagrees
  cases e? with
  | none =>
      rw [(yields_pure.1 h).1, runAll_nil_iff]
      cases index with
      | zero => simp [known, ← hvalue]
      | succ i => simp [known, ← hvalue]
  | some e =>
      cases index with
      | zero =>
          rw [(yields_pure.1 h).1, defaultCase_runs hcases]
          simp [known, ← hvalue]
      | succ i =>
          have hfit : ∀ k, cases[i]? = some k → (fit64 k).isSome := fun k hk =>
            hcases k (List.mem_of_getElem? hk)
          rw [(yields_pure.1 h).1, matchedCase_runs hfit]
          apply and_congr_left
          intro _
          simp only [known, ← hvalue, Option.map_some, Option.some.injEq]
          constructor
          · rintro hall m k rfl hk
            exact hall k hk
          · exact fun hall k hk => hall _ k rfl hk

/-- The condition of the edge with the given index, if the value that decides has been read. -/
theorem edgeCondition_runs {term : Terminator} {index : Nat} {v : Value}
    (hv : term.operand? = some v) (hbranching : term.isBranching = true)
    (hindex : index < term.successors.length) (hterm : sc.isNumericTerm term = true)
    (hhavoc : sc.settings.explicitHavoc = true)
    (h : Yields (sc.edgeCondition term index) s stmts s') (hF : s'.supply.Extends F)
    (hagrees : sc.Agrees F κ α ρ σ) (hreads : v.Reads α ρ n) :
    sc.Guards F ρ σ ((sc.known (sc.frozen κ α)).leaves ρ term index) stmts := by
  cases term with
  | condBr c onTrue onFalse =>
      obtain rfl := Option.some.inj hv
      have hnegated : (decide (index = 0)) = !decide (index = 1) := by
        have : index < 2 := hindex
        rw [Bool.eq_iff_iff]
        simp only [decide_eq_true_eq, Bool.not_eq_true', decide_eq_false_iff_not]
        omega
      have hleaves : (sc.known (sc.frozen κ α)).leaves ρ (.condBr c onTrue onFalse) index ↔
          sc.MayBe (sc.frozen κ α ρ) c (!decide (index = 1)) := by
        rw [← hnegated]
        rfl
      rw [hleaves]
      exact assumptions_runs hterm hhavoc h hF hagrees hreads
  | switch v cases targets =>
      obtain rfl := Option.some.inj hv
      simp only [isNumericTerm, Bool.and_eq_true, List.all_eq_true] at hterm
      apply Guards.of_iff
      intro τ
      exact switchCondition_runs hterm.1.1 hterm.1.2 h hF hagrees hreads
  | br target => cases hbranching
  | ret value => cases hbranching
  | unreachable => cases hbranching

end Scope

end AffineFlow
