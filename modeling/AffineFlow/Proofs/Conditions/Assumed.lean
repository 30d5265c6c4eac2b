import AffineFlow.Proofs.Conditions.Pointers
import AffineFlow.Proofs.Conditions.Switching
import AffineFlow.Proofs.Statements.Emission

/-!
# Where assumptions come from

Apart from prologues, everything that is lowered is code of laid-out blocks. Of
that code only the conditions of edges, the calls that assume something, and
casts whose operand is unknown write assumptions. So what is said of pointers in
the assumptions of a graph is what its conditions leak.
-/
namespace AffineFlow

open Ssa Lowering

theorem admitsActions_assumptionFree : AdmitsActions fun stmt => stmt.assumption? = none := by
  constructor <;> intros <;> rfl

namespace Scope

variable {sc : Scope} {F : VarSupply} {s s' : Session} {i : InstId} {b : BlockId} {block : Block}
  {cond : Value} {negated : Bool} {c : Constraint} {code : List Stmt}

/-- The outcome of the condition is assumed somewhere: both outcomes of that of a branch are, and
the one that a call is about. -/
inductive Assumed (sc : Scope) : Value → Bool → Prop
  | branch {b : BlockId} {block : Block} {cond : Value} {onTrue onFalse : BlockId}
      {negated : Bool} : b ∈ sc.body.order → sc.body.block? b = some block →
      block.term = .condBr cond onTrue onFalse → Assumed sc cond negated
  | call {i : InstId} {inst : Inst} {calleeId : FuncId} {callee : Function} {cond : Value}
      {rest : List Value} {negated : Bool} : sc.LaidOut i → sc.body.inst? i = some inst →
      inst.kind = .call (.direct calleeId) (cond :: rest) →
      sc.program.func? calleeId = some callee → sc.meaning callee = .assumption negated →
      Assumed sc (sc.beneathZeroExtension cond) negated

/-- What the laid-out branches, switches, selections and assumptions depend on are integers. -/
def HasIntegerConditions (sc : Scope) : Prop :=
  ∀ b ∈ sc.body.order, ∀ block ∈ sc.body.block? b,
    (block.term.isBranching = true → ∀ v ∈ block.term.operand?, sc.isInteger v = true) ∧
      ∀ i ∈ block.insts, ∀ inst ∈ sc.body.inst? i, ∀ cond ∈ sc.conditions inst.kind,
        sc.isInteger cond = true

instance (sc : Scope) : Decidable sc.HasIntegerConditions :=
  inferInstanceAs (Decidable (∀ b ∈ sc.body.order, ∀ block ∈ sc.body.block? b,
    (block.term.isBranching = true → ∀ v ∈ block.term.operand?, sc.isInteger v = true) ∧
      ∀ i ∈ block.insts, ∀ inst ∈ sc.body.inst? i, ∀ cond ∈ sc.conditions inst.kind,
        sc.isInteger cond = true))

theorem Assumed.integer (h : sc.Assumed cond negated) (hc : sc.HasIntegerConditions) :
    sc.isInteger cond = true := by
  cases h with
  | branch hb hblock hterm =>
      refine (hc _ hb _ hblock).1 ?_ cond ?_
      · rw [hterm]
        rfl
      · rw [hterm]
        rfl
  | call hlaid hinst hkind hcallee hmeaning =>
      obtain ⟨b, hb, block, hblock, hi⟩ := hlaid
      refine (hc b hb block hblock).2 _ hi _ hinst _ ?_
      simp [conditions, hkind, hcallee, hmeaning]

/-- Code that may assume something: that of a condition, of an edge of a switch or of a cast. -/
inductive Assuming (sc : Scope) : Session → List Stmt → Session → Prop
  | condition {cond : Value} {negated : Bool} {code : List Stmt} {s s' : Session} :
      sc.Assumed cond negated → Yields (sc.assumptions cond negated) s code s' →
      Assuming sc s code s'
  | switch {b : BlockId} {block : Block} {value : Value} {cases : List Int}
      {targets : List BlockId} {index : Nat} {code : List Stmt} {s s' : Session} :
      b ∈ sc.body.order → sc.body.block? b = some block →
      block.term = .switch value cases targets →
      Yields (sc.edgeCondition (.switch value cases targets) index) s code s' →
      Assuming sc s code s'
  | cast {i : InstId} {inst : Inst} {op : CastOp} {value : Value} {code : List Stmt}
      {s s' : Session} : sc.body.inst? i = some inst → inst.kind = .cast op value →
      Yields (sc.castCode i inst.ty op value) s code s' → Assuming sc s code s'

theorem not_assumes_of_only {α : Type} {f : α → List Stmt} {m : Lowering α} {r : α}
    (hm : Ensures (fun r => Only (fun stmt => stmt.assumption? = none) (f r)) m)
    (h : Yields m s r s') : .assume c ∉ f r :=
  fun hc => nomatch hm _ _ _ h _ hc

/-- An instruction that writes an assumption is a cast or a call that assumes something. -/
theorem instCode_assuming (hlaid : sc.LaidOut i) (h : Yields (sc.instCode i) s code s')
    (hc : .assume c ∈ code) : sc.Assuming s code s' := by
  have hfree : ¬Only (fun stmt => stmt.assumption? = none) code := fun hfree => nomatch hfree _ hc
  cases (instCode_actions admitsActions_assumptionFree h).resolve_left hfree with
  | cast hinst hkind hcode => exact .cast hinst hkind hcode
  | callSite _ _ hcode =>
      exact absurd (callSiteCode_only admitsActions_assumptionFree (fun _ => rfl) _ _ _ _ _ _ _
        hcode) hfree
  | @assumption _ _ _ args _ hinst hkind hcallee hmeaning hcode =>
      cases args with
      | nil =>
          obtain ⟨rfl, -⟩ := yields_pure.1 hcode
          cases hc
      | cons cond rest => exact .condition (.call hlaid hinst hkind hcallee hmeaning) hcode

/-- An assumption on an edge is that of a branch or of a switch. -/
theorem edgeCondition_assuming {index : Nat} (hb : b ∈ sc.body.order)
    (hblock : sc.body.block? b = some block)
    (h : Yields (sc.edgeCondition block.term index) s code s') (hc : .assume c ∈ code) :
    sc.Assuming s code s' := by
  have hterm : ∀ term, block.term = term → Yields (sc.edgeCondition term index) s code s' :=
    fun term he => he ▸ h
  unfold edgeCondition at h
  split at h
  next cond onTrue onFalse he => exact .condition (.branch hb hblock he) h
  next value cases targets he => exact .switch hb hblock he (hterm _ he)
  next =>
    obtain ⟨rfl, -⟩ := yields_pure.1 h
    cases hc

/-- Nothing is assumed at the end of a block. -/
theorem Leaves.not_assumes {last : List Stmt} {leaving : Leaving}
    (h : sc.Leaves b block s s' last leaving) : .assume c ∉ last := by
  have hfree := admitsActions_assumptionFree
  cases h with
  | nothing => simp
  | value _ hcode => exact not_assumes_of_only (f := id) (sc.returnCode_only hfree _) hcode
  | stuck => simp
  | jump _ _ _ hcode => exact not_assumes_of_only (f := id) (sc.phiCode_only hfree _ _ _ _) hcode
  | branch => simp

/-- Every assumption in the code of a block comes from code that may assume something. -/
theorem blockCode_assuming {blockCode : BlockCode} (h : Yields (sc.blockCode b) s blockCode s')
    (hF : s'.supply.Extends F) {part : List Stmt} (hpart : part ∈ blockCode.parts)
    (hc : .assume c ∈ part) :
    ∃ t code t', sc.Assuming t code t' ∧ t'.supply.Extends F ∧ .assume c ∈ code := by
  have hfree := admitsActions_assumptionFree
  obtain ⟨block, stmts, last, s₁, s₂, hb, hblock, -, hstmts, -, hinsts, hleaves⟩ :=
    blockCode_spec h
  have hparts : part = blockCode.stmts ∨ ∃ edges, blockCode.leaving = .branches edges ∧
      ∃ edge ∈ edges, part = edge.stmts := by
    unfold BlockCode.parts at hpart
    split at hpart
    next edges hleaving =>
      rcases List.mem_cons.1 hpart with rfl | hpart
      · exact .inl rfl
      · obtain ⟨edge, hedge, rfl⟩ := List.mem_map.1 hpart
        exact .inr ⟨edges, hleaving, edge, hedge, rfl⟩
    next => exact .inl (List.mem_singleton.1 hpart)
  rcases hparts with rfl | ⟨edges, hleaving, edge, hedge, rfl⟩
  · rw [hstmts] at hc
    rcases List.mem_append.1 hc with hc | hc
    · obtain ⟨i, hi, code, t, t', hcode, hgrown, hmem, -⟩ := instsCode_mem hinsts hc
      exact ⟨t, code, t', instCode_assuming ⟨b, hb, block, hblock, hi⟩ hcode hmem,
        (hgrown.trans hleaves.grows).trans hF, hmem⟩
    · exact absurd hc hleaves.not_assumes
  · rw [hleaving] at hleaves
    cases hleaves with
    | branch _ hedges =>
        obtain ⟨index, hindex⟩ := List.mem_iff_getElem?.1 hedge
        obtain ⟨succ, t₁, t₂, -, -, hcode, hgrown⟩ := edgesCode_get hedges hindex
        obtain ⟨succBlock, condition, phis, u₁, u₂, -, -, -, hedgeStmts, -, hcondition, hphis⟩ :=
          edgeCode_spec hcode
        rw [hedgeStmts] at hc
        rcases List.mem_append.1 hc with hc | hc
        · have hgrown' := (sc.phiCode_grows _ _ _ _ _ _ _ hphis).trans hgrown
          exact ⟨u₁, condition, u₂, edgeCondition_assuming hb hblock hcondition hc,
            hgrown'.trans hF, hc⟩
        · exact absurd hc (not_assumes_of_only (f := id) (sc.phiCode_only hfree _ _ _ _) hphis)

/-- Every assumption in a graph comes from code that may assume something. -/
theorem graph_assuming {g : FlowGraph} {k : Handle} {n : Node} (h : Yields sc.graph s g s')
    (hn : g.nodes.get? k = some n) (hc : .assume c ∈ n.stmts) :
    ∃ t code t', sc.Assuming t code t' ∧ t'.supply.Extends s'.supply ∧ .assume c ∈ code := by
  obtain ⟨codes, pre, s₁, s₂, s₃, hcodes, hsupply, hprologue, hsupply', hparts, -⟩ :=
    graph_composed h
  obtain ⟨part, hpart, hmem, -⟩ := hparts k n hn _ hc
  rcases List.mem_cons.1 hpart with rfl | hpart
  · exact absurd hmem (not_assumes_of_only (sc.prologue_only admitsActions_assumptionFree)
      hprologue)
  · obtain ⟨blockCode, hblockCode, hpart⟩ := List.mem_flatMap.1 hpart
    obtain ⟨b, -, t₁, t₂, hcode, hgrown⟩ := blocksCode_mem hcodes hblockCode
    have hgrown' : t₂.supply.Extends s'.supply := by
      rw [hsupply']
      exact hgrown.trans (hsupply ▸ sc.prologue_grows _ _ _ hprologue)
    exact blockCode_assuming hcode hgrown' hpart hmem

/-- An edge of a switch assumes something of the value, and only of that. -/
theorem switchCondition_assumes {value : Value} {cases : List Int} {targets : List BlockId}
    {index : Nat} (hvalue : sc.isInteger value = true)
    (h : Yields (sc.edgeCondition (.switch value cases targets) index) s code s')
    (hF : s'.supply.Extends F) : ¬sc.AssumesPointer F code := by
  intro hassumes
  obtain ⟨c, hc, hmention⟩ := hassumes
  rw [switchCondition_eq h hF] at hc
  obtain ⟨d, hd, hc⟩ := List.mem_flatMap.1 hc
  obtain ⟨e, he, hd⟩ := List.mem_flatMap.1 hd
  obtain rfl : c = d := by
    unfold Constraint.assumption at hc
    split at hc
    · cases hc
    · simp at hc
    · simpa using hc
  obtain ⟨k, hform⟩ : ∃ k, c.form = e - .const k := by
    cases index with
    | zero =>
        obtain ⟨k, -, rfl⟩ := List.mem_map.1 hd
        exact ⟨k, rfl⟩
    | succ index =>
        obtain ⟨k, -, rfl⟩ := List.mem_map.1 hd
        exact ⟨k, rfl⟩
  refine not_mentionsPointer_of_form (Option.mem_toList.1 he) hvalue (fun z hz => ?_) hmention
  rwa [hform, AffineForm.coefficient_sub, AffineForm.coefficient_const, Int.sub_zero] at hz

/-- The truth range of the result is all that a cast assumes. -/
theorem convertCode_assume {dst : Var} {value : Value}
    (h : Yields (sc.convertCode dst value) s code s') (hc : .assume c ∈ code) :
    c.form = .const 0 - .ofVar dst ∨ c.form = .ofVar dst - .const 1 := by
  obtain ⟨e?, s₁, -, h⟩ := yields_bind.1 h
  cases e? with
  | some e =>
      obtain ⟨rfl, -⟩ := yields_pure.1 h
      simp at hc
  | none =>
      simp only [yields_bind, yields_ofExcept] at h
      obtain ⟨ty, _, -, h⟩ := h
      split at h
      next =>
        obtain ⟨rfl, -⟩ := yields_pure.1 h
        rcases List.mem_pair.1 hc with hc | hc
        · exact .inl (congrArg Constraint.form (Stmt.assume.inj hc))
        · exact .inr (congrArg Constraint.form (Stmt.assume.inj hc))
      next =>
        obtain ⟨rfl, -⟩ := yields_pure.1 h
        unfold forget at hc
        split at hc
        · simp at hc
        · cases hc

/-- A cast assumes something of its result, and only of that. -/
theorem castCode_assumes {inst : Inst} {op : CastOp} {value : Value}
    (hints : sc.settings.integersOnly = true) (hbody : sc.func.body = some sc.body)
    (hinst : sc.body.inst? i = some inst)
    (h : Yields (sc.castCode i inst.ty op value) s code s') (hF : s'.supply.Extends F) :
    ¬sc.AssumesPointer F code := by
  intro hassumes
  obtain ⟨c, hc, hmention⟩ := hassumes
  unfold castCode at h
  split at h
  next =>
    obtain ⟨rfl, -⟩ := yields_pure.1 h
    cases hc
  next =>
    rcases yields_onlyIf.1 h with ⟨hwanted, h⟩ | ⟨-, rfl, -⟩
    swap
    · cases hc
    obtain ⟨dst, s₁, hdst, h⟩ := yields_bind.1 h
    obtain ⟨htracks, hwanted⟩ := yes_of_both hwanted
    have hint : sc.isInteger (.inst i) = true := by
      refine isYes_iff.2 ?_
      rw [hasIntType, typeOf_inst hbody hinst]
      by_contra hty
      have hty' : inst.ty.isInt = false := by simpa [Except.map] using hty
      rw [hints, hty'] at hwanted
      cases hwanted
    have hform := form?_of_denotes htracks
      (variableOf_spec hdst ((sc.convertCode_grows _ _ _ _ _ h).trans hF)).2
    refine not_mentionsPointer_of_form hform hint (fun z hz => ?_) hmention
    rcases convertCode_assume h hc with hbound | hbound
    · rw [hbound, AffineForm.coefficient_sub, AffineForm.coefficient_const] at hz
      omega
    · rwa [hbound, AffineForm.coefficient_sub, AffineForm.coefficient_const, Int.sub_zero] at hz

/-- An assumption of a pointer is what a condition leaks. -/
theorem Assuming.leaks (h : sc.Assuming s code s') (hF : s'.supply.Extends F)
    (hints : sc.settings.integersOnly = true) (hbody : sc.func.body = some sc.body)
    (hconditions : sc.HasIntegerConditions) (hassumes : sc.AssumesPointer F code) :
    ∃ cond negated, sc.Assumed cond negated ∧ sc.LeaksPointer cond negated := by
  cases h with
  | condition hassumed hcode =>
      have hcond := hassumed.integer hconditions
      exact ⟨_, _, hassumed, (assumptions_assumes_iff hints hcond hcode hF).1 hassumes⟩
  | switch hb hblock hterm hcode =>
      have hvalue := (hconditions _ hb _ hblock).1 (by rw [hterm]; rfl) _ (by rw [hterm]; rfl)
      exact absurd hassumes (switchCondition_assumes hvalue hcode hF)
  | cast hinst _ hcode => exact absurd hassumes (castCode_assumes hints hbody hinst hcode hF)

/-- Both edges of a laid-out branch have a block with what is assumed there. -/
theorem plainGraph_branch {g : FlowGraph} {onTrue onFalse : BlockId} (hn : sc.body.order.Nodup)
    (h : Yields sc.plainGraph s g s') (hb : b ∈ sc.body.order)
    (hblock : sc.body.block? b = some block) (hterm : block.term = .condBr cond onTrue onFalse) :
    ∃ t code t' k n, Yields (sc.assumptions cond negated) t code t' ∧
      t'.supply.Extends s'.supply ∧ g.nodes.get? k = some n ∧ code ⊆ n.stmts := by
  obtain ⟨place, pieces, pre, s₁, s₂, hcodes, hsupply, hprologue, hassembled⟩ :=
    plainGraph_spec hn h
  obtain ⟨p, hp, hsource⟩ : ∃ p ∈ pieces, p.code.source = b := by
    have hsources := (blocksCode_spec hcodes).1
    rw [List.map_map] at hsources
    exact List.mem_map.1 (hsources ▸ hb)
  obtain ⟨id, -, t₁, t₂, hcode, hgrown⟩ := blocksCode_mem hcodes (List.mem_map_of_mem hp)
  obtain ⟨block', _, _, _, _, -, hblock', hid, -, -, -, hleaves⟩ := blockCode_spec hcode
  obtain rfl : id = b := hid.symm.trans hsource
  obtain rfl : block' = block := Option.some.inj (hblock'.symm.trans hblock)
  have hedges := hleaves.edges (by rw [hterm]; rfl)
  have hsuccs : (p.code.leaving.edges.map (·.target)) = [onTrue, onFalse] :=
    (edgesCode_spec hedges).1.trans (by rw [hterm]; rfl)
  -- the edge for the outcome is the first or the second one
  obtain ⟨index, hindex, edge, hedge⟩ : ∃ index : Nat, decide (index = 1) = negated ∧
      ∃ edge, p.code.leaving.edges[index]? = some edge := by
    have hlength : p.code.leaving.edges.length = 2 := by
      rw [← List.length_map EdgeCode.target, hsuccs]
      rfl
    cases negated with
    | false => exact ⟨0, rfl, _, List.getElem?_eq_getElem (by omega)⟩
    | true => exact ⟨1, rfl, _, List.getElem?_eq_getElem (by omega)⟩
  obtain ⟨succ, u₁, u₂, -, -, hedgeCode, hgrown'⟩ := edgesCode_get hedges hedge
  obtain ⟨succBlock, condition, phis, v₁, v₂, -, -, -, hstmts, -, hcondition, hphis⟩ :=
    edgeCode_spec hedgeCode
  rw [hterm, Nat.zero_add] at hcondition
  obtain ⟨m, -, label, hnode⟩ := exists_of_forall₂ (hassembled.laid p hp) hedge
  refine ⟨v₁, condition, v₂, m, _, hindex ▸ hcondition, ?_, hnode, ?_⟩
  · have hlater := hsupply ▸ sc.prologue_grows _ _ _ hprologue
    exact (((sc.phiCode_grows _ _ _ _ _ _ _ hphis).trans hgrown').trans hgrown).trans hlater
  · rw [hstmts]
    exact List.subset_append_left _ _

/-- In a graph that is not simplified, what is assumed somewhere is there. -/
theorem graph_assumed {g : FlowGraph} (h : Yields sc.graph s g s')
    (hplain : sc.settings.simplify = false) (hn : sc.body.order.Nodup)
    (hassumed : sc.Assumed cond negated) :
    ∃ t code t' k n, Yields (sc.assumptions cond negated) t code t' ∧
      t'.supply.Extends s'.supply ∧ g.nodes.get? k = some n ∧ code ⊆ n.stmts := by
  cases hassumed with
  | branch hb hblock hterm =>
      obtain ⟨plain, s₁, hrun, hsupply, hsame, -⟩ := graph_spec h
      rw [hsupply, hsame hplain]
      exact plainGraph_branch hn hrun hb hblock hterm
  | call hlaid hinst hkind hcallee hmeaning =>
      obtain ⟨b, hb, block, hblock, hi⟩ := hlaid
      obtain ⟨code, ⟨t, t', hcode, hgrown⟩, hplaced⟩ := graph_emits h hb hblock hi
      obtain ⟨k, n, hnode, hinfix⟩ := hplaced hplain hn
      simp only [instCode, hinst, hkind, callCode, hcallee, directCallCode, hmeaning,
        assumptionCode] at hcode
      exact ⟨t, code, t', k, n, hcode, hgrown, hnode, hinfix.subset⟩

end Scope

/-- Where only integers flow into the graph and the conditions are integers, an assumption has the
variable of a pointer only if some condition leaks one: a conjunction that is assumed to be true, or
a disjunction that is assumed to be false, with a comparison of a pointer among its operands. In a
graph that is not simplified, each of them leaks its pointer. -/
theorem functionGraph_assumes_pointer_iff {program : Module} {id : FuncId} {oracle : Oracle}
    {settings : Settings} {s s' : Session} {g : FlowGraph}
    (hints : settings.integersOnly = true)
    (h : Yields (functionGraph program id oracle settings) s g s') :
    ∃ sc, Scope.ofFunction program id oracle settings = .ok sc ∧ (sc.HasIntegerConditions →
      (∀ k n, g.nodes.get? k = some n → sc.AssumesPointer s'.supply n.stmts →
        ∃ cond negated, sc.Assumed cond negated ∧ sc.LeaksPointer cond negated) ∧
      (settings.simplify = false → sc.body.order.Nodup →
        ((∃ k n, g.nodes.get? k = some n ∧ sc.AssumesPointer s'.supply n.stmts) ↔
          ∃ cond negated, sc.Assumed cond negated ∧ sc.LeaksPointer cond negated))) := by
  obtain ⟨sc, hscope, hgraph⟩ := functionGraph_scope h
  obtain ⟨func, body, -, hbody, rfl⟩ := Scope.ofFunction_spec hscope
  refine ⟨_, hscope, fun hconditions => ?_⟩
  have hleaks : ∀ k n, g.nodes.get? k = some n →
      Scope.AssumesPointer ⟨program, id, func, body, oracle, settings⟩ s'.supply n.stmts →
      ∃ cond negated, Scope.Assumed ⟨program, id, func, body, oracle, settings⟩ cond negated ∧
        Scope.LeaksPointer ⟨program, id, func, body, oracle, settings⟩ cond negated := by
    intro k n hn hassumes
    obtain ⟨c, hc, hmention⟩ := hassumes
    obtain ⟨t, code, t', hassuming, hgrown, hmem⟩ := Scope.graph_assuming hgraph hn hc
    exact hassuming.leaks hgrown hints hbody hconditions ⟨c, hmem, hmention⟩
  refine ⟨hleaks, fun hplain hn => ⟨?_, ?_⟩⟩
  · intro hsome
    obtain ⟨k, n, hnode, hassumes⟩ := hsome
    exact hleaks k n hnode hassumes
  · intro hsome
    obtain ⟨cond, negated, hassumed, hleak⟩ := hsome
    obtain ⟨t, code, t', k, n, hcode, hgrown, hnode, hsub⟩ :=
      Scope.graph_assumed hgraph hplain hn hassumed
    obtain ⟨c, hc, hmention⟩ := (Scope.assumptions_assumes_iff hints
      (hassumed.integer hconditions) hcode hgrown).2 hleak
    exact ⟨k, n, hnode, c, hsub hc, hmention⟩

/-- A function of two pointers that goes to one of two blocks. -/
def branchingOn (insts : List (Option String × Ty × InstKind)) (cond : Value) : Module where
  funcs := #[
    { name := "f", params := [⟨"p", .ptr⟩, ⟨"q", .ptr⟩], ret := .void
      body := some (Body.ofListing [⟨"entry", insts, .condBr cond ⟨1⟩ ⟨2⟩⟩,
        ⟨"yes", [], .ret none⟩, ⟨"no", [], .ret none⟩]) }]

/-- Whether the first pointer is given. -/
def oneGiven : Module :=
  branchingOn [(some "given", .int 1, .compare .ne (.arg 0) .null)] (.inst ⟨0⟩)

/-- Whether both pointers are given. -/
def bothGiven : Module :=
  branchingOn [(some "left", .int 1, .compare .ne (.arg 0) .null),
    (some "right", .int 1, .compare .ne (.arg 1) .null),
    (some "both", .int 1, .binary .and (.inst ⟨0⟩) (.inst ⟨1⟩))] (.inst ⟨2⟩)

def withoutCells : Oracle := Tables.toOracle { tracking := .memory }

/-- Nothing is assumed of the pointer that the branch itself compares. -/
theorem functionGraph_assumes_pointer_oneGiven :
    ∃ g s' sc, Yields (functionGraph oneGiven ⟨0⟩ withoutCells { integersOnly := true }) {} g s' ∧
      Scope.ofFunction oneGiven ⟨0⟩ withoutCells { integersOnly := true } = .ok sc ∧
      sc.HasIntegerConditions ∧
      ∀ k n, g.nodes.get? k = some n → ¬sc.AssumesPointer s'.supply n.stmts := by
  obtain ⟨g, s', hg⟩ : ∃ g s',
      Yields (functionGraph oneGiven ⟨0⟩ withoutCells { integersOnly := true }) {} g s' :=
    ⟨_, _, rfl⟩
  obtain ⟨sc, hscope, hpointers⟩ := functionGraph_assumes_pointer_iff rfl hg
  have hconditions : sc.HasIntegerConditions := by
    cases hscope
    decide
  refine ⟨g, s', sc, hg, hscope, hconditions, fun k n hn hassumes => ?_⟩
  -- the only instruction is a comparison
  obtain ⟨cond, -, -, -, -, ⟨op, a, b, hkind, -⟩, -⟩ := (hpointers hconditions).1 k n hn hassumes
  cases hscope
  obtain ⟨inst, hinst, hkind⟩ := Option.map_eq_some_iff.1 hkind
  obtain ⟨⟨index⟩, -, hinst⟩ := Option.bind_eq_some_iff.1 hinst
  cases index with
  | zero =>
      cases hinst
      cases hkind
  | succ index => cases hinst

/-- Both pointers are assumed not to be null, although only integers should flow into the graph. -/
theorem assumesPointer_bothGiven :
    ∃ g s' sc k n, Scope.ofFunction bothGiven ⟨0⟩ withoutCells { integersOnly := true } = .ok sc ∧
      sc.settings.integersOnly = true ∧ sc.HasIntegerConditions ∧
      Yields (functionGraph bothGiven ⟨0⟩ withoutCells { integersOnly := true }) {} g s' ∧
      g.nodes.get? k = some n ∧ sc.AssumesPointer s'.supply n.stmts := by
  refine ⟨_, _, _, ⟨3, 3⟩, _, rfl, rfl, by decide, rfl, rfl, _, .head _, .arg 0, _, rfl,
    ⟨_, rfl, rfl⟩, _, .head _, rfl⟩

end AffineFlow
