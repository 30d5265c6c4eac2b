import AffineFlow.Proofs.Conditions.Branching
import AffineFlow.Proofs.ControlFlow.Skeleton
import AffineFlow.Proofs.Statements.Emission

/-!
# The edges of a switch

The conditions on the edges of a switch leave one edge open for each value, the
one that the source takes. For that the value has to have an affine form, and
the cases have to be different from each other and within 64 bits; otherwise the
edge that is taken is open, but others may be open too.
-/
namespace AffineFlow

open Ssa Lowering

/-- The successor that a switch goes to: that of the case that the value is, or else the default,
which is the first one. -/
def takenEdge (cases : List Int) (n : Int) : Nat :=
  if n ∈ cases then cases.idxOf n + 1 else 0

section TakenEdge

variable {cases : List Int} {n k : Int} {i : Nat}

theorem takenEdge_le : takenEdge cases n ≤ cases.length := by
  unfold takenEdge
  split
  next hn => exact List.idxOf_lt_length_iff.2 hn
  next => exact Nat.zero_le _

theorem takenEdge_eq_zero_iff : takenEdge cases n = 0 ↔ n ∉ cases := by
  unfold takenEdge
  split
  next hn => simp [hn]
  next hn => simp [hn]

theorem getElem?_of_takenEdge (h : takenEdge cases n = i + 1) : cases[i]? = some n := by
  unfold takenEdge at h
  split at h
  next hn =>
    obtain rfl := Nat.succ.inj h
    exact List.getElem?_idxOf hn
  next => cases h

/-- Of different cases, only one leads to its edge. -/
theorem takenEdge_eq_succ_iff (hn : cases.Nodup) (hk : cases[i]? = some k) :
    takenEdge cases n = i + 1 ↔ n = k := by
  obtain ⟨hi, rfl⟩ := List.getElem?_eq_some_iff.1 hk
  constructor
  · intro h
    exact Option.some.inj ((getElem?_of_takenEdge h).symm.trans hk)
  · intro he
    rw [takenEdge, he, if_pos (List.getElem_mem hi), hn.idxOf_getElem]

end TakenEdge

section Permits

variable {σ : Valuation} {stmts stmts' : List Stmt}

theorem Permits.of_append (h : Permits σ (stmts ++ stmts')) (hrun : RunAll stmts' σ σ) :
    Permits σ stmts' where
  reachable hm := h.reachable (List.mem_append_right _ hm)
  holds c hc := h.holds c (List.mem_append_right _ hc)
  run := hrun

theorem permits_assumption {c : Constraint} (hc : c.Holds σ) : Permits σ c.assumption := by
  rw [Constraint.assumption, c.truth?_eq σ]
  by_cases hterms : c.form.terms = []
  · rw [if_pos hterms, decide_eq_true hc]
    exact .nil
  · rw [if_neg hterms]
    exact .assume hc

/-- Constraints can be passed just where they hold. -/
theorem permits_assumptions_iff {cs : List Constraint} :
    Permits σ (cs.flatMap (·.assumption)) ↔ ∀ c ∈ cs, c.Holds σ := by
  induction cs with
  | nil => simpa using Permits.nil
  | cons c rest ih =>
      rw [List.flatMap_cons, List.forall_mem_cons, ← ih]
      constructor
      · intro h
        obtain ⟨τ, hc, hrest⟩ := runAll_append_iff.1 h.run
        obtain ⟨hholds, rfl⟩ := runAll_assumption_iff.1 hc
        exact ⟨hholds, h.of_append hrest⟩
      · intro h
        exact (permits_assumption h.1).append h.2

end Permits

/-- The edge with this index is open for the value, as far as the cases fit in 64 bits. -/
def Opens (cases : List Int) (i : Nat) (n : Int) : Prop :=
  match i with
  | 0 => ∀ k ∈ cases, (fit64 k).isSome = true → n ≠ k
  | i + 1 => ∀ k, cases[i]? = some k → (fit64 k).isSome = true → n = k

section Opens

variable {cases : List Int} {i : Nat} {n : Int}

/-- The edge that is taken is open. -/
theorem opens_takenEdge : Opens cases (takenEdge cases n) n := by
  cases h : takenEdge cases n with
  | zero =>
      intro k hk _ he
      exact takenEdge_eq_zero_iff.1 h (he ▸ hk)
  | succ i =>
      intro k hk _
      exact Option.some.inj ((getElem?_of_takenEdge h).symm.trans hk)

/-- No other edge is, if all cases are different and fit. -/
theorem opens_iff (hn : cases.Nodup) (hfit : ∀ k ∈ cases, (fit64 k).isSome = true)
    (hi : i ≤ cases.length) : Opens cases i n ↔ i = takenEdge cases n := by
  cases i with
  | zero =>
      rw [eq_comm, takenEdge_eq_zero_iff]
      constructor
      · intro hopen hm
        exact hopen n hm (hfit n hm) rfl
      · intro hm k hk _ he
        exact hm (he ▸ hk)
  | succ i =>
      obtain ⟨k, hk⟩ : ∃ k, cases[i]? = some k := ⟨_, List.getElem?_eq_getElem hi⟩
      rw [eq_comm, takenEdge_eq_succ_iff hn hk]
      constructor
      · intro hopen
        exact hopen k hk (hfit k (List.mem_of_getElem? hk))
      · intro he k' hk' _
        exact he.trans (Option.some.inj (hk.symm.trans hk'))

end Opens

/-- What is assumed on the edge with this index, where the value has the form `e`. -/
def switchConstraints (e : AffineForm) (cases : List Int) : Nat → List Constraint
  | 0 => (cases.filterMap fit64).map fun k => .ne e (.const k)
  | i + 1 => (cases[i]?.bind fit64).toList.map fun k => .eq e (.const k)

theorem fit64_eq_some_iff {k m : Int} : fit64 k = some m ↔ k = m ∧ (fit64 k).isSome = true := by
  constructor
  · intro h
    have hsome : (fit64 k).isSome = true := by rw [h]; rfl
    exact ⟨Option.some.inj ((Scope.fit64_eq hsome).symm.trans h), hsome⟩
  · intro h
    obtain ⟨rfl, hsome⟩ := h
    exact Scope.fit64_eq hsome

theorem switchConstraints_hold_iff {e : AffineForm} {cases : List Int} {i : Nat} {σ : Valuation} :
    (∀ c ∈ switchConstraints e cases i, c.Holds σ) ↔ Opens cases i (e.eval σ) := by
  cases i with
  | zero =>
      simp only [switchConstraints, Opens, List.forall_mem_map, List.mem_filterMap,
        Constraint.holds_ne_iff, AffineForm.eval_const, fit64_eq_some_iff]
      constructor
      · intro h k hk hfit
        exact h k ⟨k, hk, rfl, hfit⟩
      · rintro h _ ⟨k, hk, rfl, hfit⟩
        exact h k hk hfit
  | succ i =>
      simp only [switchConstraints, Opens, List.forall_mem_map, Option.mem_toList,
        Constraint.holds_eq_iff, AffineForm.eval_const, Option.bind_eq_some_iff, fit64_eq_some_iff]
      constructor
      · intro h k hk hfit
        exact h k ⟨k, hk, rfl, hfit⟩
      · rintro h _ ⟨k, hk, rfl, hfit⟩
        exact h k hk hfit

/-- Every statement writes a variable. -/
def OnlyWrites (stmts : List Stmt) : Prop := ∀ stmt ∈ stmts, stmt.target?.isSome = true

theorem OnlyWrites.cons {stmt : Stmt} {stmts : List Stmt} (h : OnlyWrites stmts)
    (hstmt : stmt.target?.isSome = true) :
    OnlyWrites (stmt :: stmts) :=
  List.forall_mem_cons.2 ⟨hstmt, h⟩

/-- The edges that leave a block; of several blocks with the same source, the first counts. -/
def edgesOf (codes : List BlockCode) (b : BlockId) : List EdgeCode :=
  ((codes.find? fun code => code.source = b).map (·.leaving.edges)).getD []

namespace Scope

variable {sc : Scope} {F : VarSupply} {s s' : Session} {value : Value} {cases : List Int}
  {targets : List BlockId} {i : Nat} {stmts : List Stmt} {b : BlockId} {block : Block}

/-- Without a form for the value, nothing is assumed. -/
theorem switchCondition_eq
    (h : Yields (sc.edgeCondition (.switch value cases targets) i) s stmts s')
    (hF : s'.supply.Extends F) :
    stmts = ((sc.form? F value).toList.flatMap fun e => switchConstraints e cases i).flatMap
      (·.assumption) := by
  simp only [edgeCondition, yields_bind] at h
  obtain ⟨e?, s₁, he, h⟩ := h
  cases e? with
  | none =>
      obtain ⟨rfl, rfl⟩ := yields_pure.1 h
      rw [← (express_form he hF).1]
      rfl
  | some e =>
      cases i with
      | zero =>
          obtain ⟨rfl, rfl⟩ := yields_pure.1 h
          rw [← (express_form he hF).1]
          simp [switchConstraints, defaultCase, List.flatMap_map]
      | succ i =>
          obtain ⟨rfl, rfl⟩ := yields_pure.1 h
          rw [← (express_form he hF).1]
          simp only [switchConstraints, matchedCase]
          cases cases[i]?.bind fit64 with
          | none => rfl
          | some k => simp

/-- The condition of an edge lets pass just where the edge is open for the value of the form. -/
theorem switchCondition_permits_iff {σ : Valuation}
    (h : Yields (sc.edgeCondition (.switch value cases targets) i) s stmts s')
    (hF : s'.supply.Extends F) :
    Permits σ stmts ↔ ∀ e, sc.form? F value = some e → Opens cases i (e.eval σ) := by
  rw [switchCondition_eq h hF, permits_assumptions_iff]
  simp only [← switchConstraints_hold_iff, List.mem_flatMap, Option.mem_toList]
  constructor
  · intro hall e he c hc
    exact hall c ⟨e, he, hc⟩
  · rintro hall c ⟨e, he, hc⟩
    exact hall e he c hc

section Phis

theorem savePhis_writes (target : BlockId) (saved : SavedPhis) (phis : List IncomingPhi) :
    Ensures (fun r : SavedPhis × List Stmt => OnlyWrites r.2) (sc.savePhis target saved phis) := by
  induction phis generalizing saved with
  | nil => exact .pure nofun
  | cons p rest ih =>
      refine .after fun needed => ?_
      split
      · refine .after fun e => ?_
        split
        · exact ih saved
        · exact .after fun old => (ih _).bind fun r hr => .pure (hr.cons rfl)
      · exact ih saved

theorem assignPhis_writes (saved : SavedPhis) (phis : List IncomingPhi) :
    Ensures OnlyWrites (sc.assignPhis saved phis) := by
  induction phis with
  | nil => exact .pure nofun
  | cons p rest ih =>
      refine .after fun tracked => ?_
      split
      · refine .after fun lhs => .after fun e => ?_
        split
        · exact ih.bind fun stmts hstmts => .pure (hstmts.cons rfl)
        · exact ih.bind fun stmts hstmts => .pure (hstmts.cons rfl)
      · exact ih

/-- The phis along an edge only write. -/
theorem phiCode_writes (target : BlockId) (targetBlock : Block) (pred : BlockId)
    (predName : String) :
    Ensures OnlyWrites (sc.phiCode target targetBlock pred predName) := by
  unfold phiCode
  split
  · exact .reject _
  · exact .pure nofun
  · exact .after fun _ => (savePhis_writes target [] _).bind fun r hr =>
      (assignPhis_writes r.1 _).bind fun stmts hstmts =>
        .pure (List.forall_mem_append.2 ⟨hr, hstmts⟩)

end Phis

/-- An edge with this index that leaves a switch: its statements are a condition, and then writes.
The condition lets pass the values that take the edge, and no others if the value has a form and the
cases are different and fit. -/
structure SwitchEdge (sc : Scope) (F : VarSupply) (value : Value) (cases : List Int) (i : Nat)
    (condition phis : List Stmt) : Prop where
  writes : OnlyWrites phis
  taken : ∀ σ n, (∀ e, sc.form? F value = some e → e.eval σ = n) → i = takenEdge cases n →
    Permits σ condition
  parts : ∀ e, sc.form? F value = some e → cases.Nodup →
    (∀ k ∈ cases, (fit64 k).isSome = true) →
    ∀ σ, Permits σ condition ↔ i = takenEdge cases (e.eval σ)

theorem switchEdge_of_condition {condition phis : List Stmt}
    (h : Yields (sc.edgeCondition (.switch value cases targets) i) s condition s')
    (hF : s'.supply.Extends F) (hphis : OnlyWrites phis) (hi : i ≤ cases.length) :
    sc.SwitchEdge F value cases i condition phis where
  writes := hphis
  taken σ n hn htaken := by
    refine (switchCondition_permits_iff h hF).2 fun e he => ?_
    rw [htaken, hn e he]
    exact opens_takenEdge
  parts e he hnodup hfit σ := by
    rw [switchCondition_permits_iff h hF, ← opens_iff hnodup hfit hi]
    simp [he]

theorem edgesCode_switch (hterm : block.term = .switch value cases targets) {index : Nat}
    {succs : List BlockId} {edges : List EdgeCode} {edge : EdgeCode}
    (h : Yields (sc.edgesCode b block index succs) s edges s') (hF : s'.supply.Extends F)
    (hedge : edges[i]? = some edge) (hi : index + i ≤ cases.length) :
    ∃ condition phis, edge.stmts = condition ++ phis ∧
      sc.SwitchEdge F value cases (index + i) condition phis := by
  induction succs generalizing index i s edges with
  | nil =>
      obtain ⟨rfl, -⟩ := yields_pure.1 h
      cases hedge
  | cons succ rest ih =>
      simp only [edgesCode, yields_bind, yields_pure] at h
      obtain ⟨first, s₁, hfirst, others, s₂, hothers, rfl, rfl⟩ := h
      cases i with
      | succ i =>
          have hindex : index + (i + 1) = index + 1 + i := by omega
          rw [hindex] at hi ⊢
          exact ih hothers hedge hi
      | zero =>
          obtain rfl := Option.some.inj hedge
          obtain ⟨succBlock, condition, phis, t₁, t₂, -, -, -, hstmts, -, hcondition, hphis⟩ :=
            edgeCode_spec hfirst
          have hgrown := ((sc.phiCode_grows _ _ _ _ _ _ _ hphis).trans
            (sc.edgesCode_grows _ _ _ _ _ _ _ hothers)).trans hF
          rw [hterm] at hcondition
          exact ⟨condition, phis, hstmts, switchEdge_of_condition hcondition hgrown
            (phiCode_writes _ _ _ _ _ _ _ hphis) hi⟩

theorem Leaves.edges {last : List Stmt} {leaving : Leaving}
    (hl : sc.Leaves b block s s' last leaving) (hbranching : block.term.isBranching = true) :
    Yields (sc.edgesCode b block 0 block.term.successors) s leaving.edges s' := by
  cases hl with
  | nothing hterm => simp [hterm, Terminator.isBranching] at hbranching
  | value hterm => simp [hterm, Terminator.isBranching] at hbranching
  | stuck hterm => simp [hterm, Terminator.isBranching] at hbranching
  | jump hterm => simp [hterm, Terminator.isBranching] at hbranching
  | branch _ hedges => exact hedges

theorem blocksCode_switch (hblock : sc.body.block? b = some block)
    (hterm : block.term = .switch value cases targets) {ids : List BlockId}
    {codes : List BlockCode} (h : Yields (sc.blocksCode ids) s codes s') (hb : b ∈ ids)
    (hF : s'.supply.Extends F) :
    (edgesOf codes b).map (·.target) = targets ∧
      ∀ i edge, (edgesOf codes b)[i]? = some edge → i ≤ cases.length →
        ∃ condition phis, edge.stmts = condition ++ phis ∧
          sc.SwitchEdge F value cases i condition phis := by
  induction ids generalizing s codes with
  | nil => cases hb
  | cons id rest ih =>
      simp only [blocksCode, yields_bind, yields_pure] at h
      obtain ⟨first, s₁, hfirst, others, s₂, hothers, rfl, rfl⟩ := h
      obtain ⟨block', stmts, last, t₁, t₂, -, hblock', rfl, -, -, -, hleaves⟩ :=
        blockCode_spec hfirst
      -- of two codes with this source, the search finds the first one
      by_cases he : first.source = b
      · obtain rfl : block' = block := Option.some.inj (hblock'.symm.trans (he ▸ hblock))
        have hfound : edgesOf (first :: others) b = first.leaving.edges := by simp [edgesOf, he]
        have hcode := hleaves.edges (by rw [hterm]; rfl)
        have hgrown := (sc.blocksCode_grows _ _ _ _ hothers).trans hF
        rw [hfound]
        refine ⟨(edgesCode_spec hcode).1.trans (by rw [hterm]; rfl), fun i edge hedge hi => ?_⟩
        have hedges := edgesCode_switch hterm hcode hgrown hedge ((Nat.zero_add i).trans_le hi)
        rwa [Nat.zero_add] at hedges
      · have hfound : edgesOf (first :: others) b = edgesOf others b := by simp [edgesOf, he]
        rw [hfound]
        exact ih hothers ((List.mem_cons.1 hb).resolve_left fun h => he h.symm)

/-- In the graph, the edges are laid out. -/
theorem edgesOf_laid {g : FlowGraph} {place : BlockId → Handle} {pieces : List Piece}
    {pre : List Stmt} (hg : g.Assembled place pieces pre) (b : BlockId) :
    Assembly.EdgesLaid g place (edgesOf (pieces.map (·.code)) b) (middlesOf pieces b) := by
  rw [edgesOf, List.find?_map, middlesOf]
  simp only [Function.comp_def]
  cases hp : pieces.find? fun p => p.code.source = b with
  | none => exact .nil
  | some p => exact hg.laid p (List.mem_of_find?_eq_some hp)

/-- The plain graph is made from the code of the blocks; each edge has a block of its own if all
blocks are laid out once. -/
theorem plainGraph_edges {g : FlowGraph} (h : Yields sc.plainGraph s g s') :
    ∃ codes s₁, Yields (sc.blocksCode sc.body.order) s codes s₁ ∧
      s₁.supply.Extends s'.supply ∧ (sc.body.order.Nodup → ∃ place middles,
        Skeleton sc.body g place middles ∧
          ∀ b ∈ sc.body.order, Assembly.EdgesLaid g place (edgesOf codes b) (middles b)) := by
  by_cases hn : sc.body.order.Nodup
  · obtain ⟨place, pieces, pre, s₁, s₂, hcodes, hsupply, hprologue, hg⟩ := plainGraph_spec hn h
    have hgrown := hsupply ▸ sc.prologue_grows _ _ _ hprologue
    exact ⟨_, s₁, hcodes, hgrown, fun _ => ⟨place, middlesOf pieces,
      assembled_skeleton hn hcodes hg, fun b _ => edgesOf_laid hg b⟩⟩
  · obtain ⟨entry, others, codes, pre, s₁, s₂, -, hcodes, hsupply, hprologue, -⟩ :=
      plainGraph_shape h
    have hgrown := hsupply ▸ sc.prologue_grows _ _ _ hprologue
    exact ⟨codes, s₁, hcodes, hgrown, fun hnodup => absurd hnodup hn⟩

end Scope

/-- Each laid-out switch with one target per case and a default has an edge to each target, and one
of them is taken for each value. The condition at the start of that edge lets the value pass; if the
value has a form and the cases are different and fit in 64 bits, no other one does. In a graph that
is not simplified, each edge has a block with its statements. -/
theorem functionGraph_splits_switches {program : Module} {id : FuncId} {oracle : Oracle}
    {settings : Settings} {s s' : Session} {g : FlowGraph}
    (h : Yields (functionGraph program id oracle settings) s g s') :
    ∃ sc, Scope.ofFunction program id oracle settings = .ok sc ∧
      ∃ edges : BlockId → List EdgeCode,
        (settings.simplify = false → sc.body.order.Nodup → ∃ place middles,
          Skeleton sc.body g place middles ∧
            ∀ b ∈ sc.body.order, Assembly.EdgesLaid g place (edges b) (middles b)) ∧
        ∀ b ∈ sc.body.order, ∀ block value cases targets, sc.body.block? b = some block →
          block.term = .switch value cases targets → targets.length = cases.length + 1 →
          (edges b).map (·.target) = targets ∧ (∀ n, takenEdge cases n < (edges b).length) ∧
            ∀ i edge, (edges b)[i]? = some edge → ∃ condition phis,
              edge.stmts = condition ++ phis ∧
                sc.SwitchEdge s'.supply value cases i condition phis := by
  obtain ⟨sc, hscope, hgraph⟩ := functionGraph_scope h
  obtain ⟨func, body, -, -, rfl⟩ := Scope.ofFunction_spec hscope
  refine ⟨_, hscope, ?_⟩
  obtain ⟨plain, s₁, hplain, hsupply, hset, -⟩ := Scope.graph_spec hgraph
  obtain ⟨codes, s₂, hcodes, hgrown, hlaid⟩ := Scope.plainGraph_edges hplain
  rw [hsupply]
  refine ⟨edgesOf codes, fun hplain hn => hset hplain ▸ hlaid hn, ?_⟩
  intro b hb block value cases targets hblock hterm hlength
  obtain ⟨htargets, hedges⟩ := Scope.blocksCode_switch hblock hterm hcodes hb hgrown
  have hcount : (edgesOf codes b).length = cases.length + 1 := by
    rw [← hlength, ← htargets, List.length_map]
  refine ⟨htargets, fun n => ?_, fun i edge hedge => hedges i edge hedge ?_⟩
  · rw [hcount]
    exact Nat.lt_succ_of_le takenEdge_le
  · have hi := (List.getElem?_eq_some_iff.1 hedge).1
    omega

/-- A function that treats two differently from one, and like any other number. -/
def singlesOut : Module where
  funcs := #[
    { name := "f", params := [⟨"v", .int 32⟩], ret := .void
      body := some (Body.ofListing [
        ⟨"entry", [], .switch (.arg 0) [1, 2] [⟨2⟩, ⟨1⟩, ⟨2⟩]⟩,
        ⟨"one", [], .ret none⟩, ⟨"other", [], .ret none⟩]) }]

/-- Two edges go to the same block, and each is open for other numbers. -/
theorem functionGraph_splits_switches_singlesOut :
    ∃ g s' sc x, ∃ edges : List EdgeCode, Yields (functionGraph singlesOut ⟨0⟩ .silent {}) {} g s' ∧
      Scope.ofFunction singlesOut ⟨0⟩ .silent {} = .ok sc ∧
      sc.form? s'.supply (.arg 0) = some (.ofVar x) ∧
      edges.map (·.target) = [⟨2⟩, ⟨1⟩, ⟨2⟩] ∧
      ∀ i edge, edges[i]? = some edge → ∃ condition phis, edge.stmts = condition ++ phis ∧
        OnlyWrites phis ∧ ∀ σ, Permits σ condition ↔ i = takenEdge [1, 2] (σ x) := by
  obtain ⟨g, s', hg⟩ : ∃ g s', Yields (functionGraph singlesOut ⟨0⟩ .silent {}) {} g s' :=
    ⟨_, _, rfl⟩
  obtain ⟨sc, hscope, edges, -, hswitch⟩ := functionGraph_splits_switches hg
  obtain ⟨x, hx⟩ : ∃ x, sc.form? s'.supply (.arg 0) = some (.ofVar x) := by
    cases hscope
    cases hg
    exact ⟨_, rfl⟩
  obtain rfl := Except.ok.inj hscope
  obtain ⟨htargets, -, hedges⟩ := hswitch ⟨0⟩ (.head _) _ _ _ _ rfl rfl rfl
  refine ⟨g, s', _, x, edges ⟨0⟩, hg, rfl, hx, htargets, fun i edge hedge => ?_⟩
  obtain ⟨condition, phis, hstmts, hswitched⟩ := hedges i edge hedge
  refine ⟨condition, phis, hstmts, hswitched.writes, fun σ => ?_⟩
  rw [hswitched.parts _ hx (by decide) (by decide) σ, AffineForm.eval_ofVar]

end AffineFlow
