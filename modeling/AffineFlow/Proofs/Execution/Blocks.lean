import AffineFlow.Proofs.Execution.Phis

/-!
# What the code of a block does

The instructions of a block, one after the other, can do to the variables just
what somebody to whom the comparisons are frozen would allow. Each instruction
writes its own variable only, so what it has written is still there at the end of
the block.
-/
namespace AffineFlow

open Ssa Lowering

namespace Scope

variable {sc : Scope} {F : VarSupply} {s s' : Session} {κ : InstId → Int} {α : Nat → Int}
  {ρ ρ' : Env} {σ τ : Valuation} {stmts : List Stmt} {id : InstId} {inst : Inst} {x y : Var}

theorem forget_untouched (hx : x ≠ y) : Untouched y (sc.forget x) := by
  unfold forget
  split
  · simpa [Stmt.target?] using hx
  · exact untouched_nil

theorem arithCode_untouched (source : BinaryOp) (op : ArithOp) (a b : AffineForm) (hx : x ≠ y) :
    Ensures (Untouched y) (sc.arithCode source op x a b) := by
  unfold arithCode
  split
  · exact .after fun u => .pure (forget_untouched hx)
  · split
    · exact .pure (by simpa [Stmt.target?] using hx)
    · exact .pure (by simpa [Stmt.target?] using hx)

theorem chooseCode_untouched (c : Value) (a b : AffineForm) (hx : x ≠ y) :
    Ensures (Untouched y) (sc.chooseCode x c a b) := by
  unfold chooseCode
  split
  · exact .pure (by simpa [Stmt.target?] using hx)
  · refine .after fun k? => ?_
    split
    · exact .pure (by simpa [Stmt.target?] using hx)
    · refine .after fun t => ?_
      split
      · exact .after fun z => .pure (by simpa [Stmt.target?] using hx)
      · exact .pure (forget_untouched hx)

/-- The code of an instruction writes the variable of the instruction, and no other. -/
structure Owns (sc : Scope) (F : VarSupply) (id : InstId) (stmts : List Stmt) : Prop where
  owned : sc.body.isPhi id = false → sc.body.isComparison id = false →
    sc.hidden (.inst id) = false → ∃ x, F.find? (.value sc.funcId (.inst id)) = some x
  untouched : ∀ y, F.find? (.value sc.funcId (.inst id)) ≠ some y → Untouched y stmts

theorem owns_of_tracked {code : Var → Lowering (List Stmt)}
    (htracks : sc.tracks (.inst id) = .ok (!sc.hidden (.inst id)))
    (h : Yields (Lowering.onlyIf (sc.tracks (.inst id)) (sc.variableOf (.inst id) >>= code)) s stmts
      s') (hF : s'.supply.Extends F) (hgrows : ∀ x, Grows (code x))
    (hcode : ∀ x y, x ≠ y → Ensures (Untouched y) (code x)) : sc.Owns F id stmts := by
  rcases yields_onlyIf.1 h with ⟨-, h⟩ | ⟨ht, rfl, -⟩
  · obtain ⟨x, s₁, hx, h⟩ := yields_bind.1 h
    have hfind := variableOf_inst hx ((hgrows x _ _ _ h).trans hF)
    exact ⟨fun _ _ _ => ⟨x, hfind⟩, fun y hy => hcode x y (fun he => hy (he ▸ hfind)) _ _ _ h⟩
  · have hhidden : sc.hidden (.inst id) = true := by simpa [htracks] using ht
    exact ⟨fun _ _ hshown => absurd hhidden (by simp [hshown]), fun _ _ => untouched_nil⟩

theorem instCode_owns (hbody : sc.func.body = some sc.body) (hinst : sc.body.inst? id = some inst)
    (hint : inst.ty.isInt = true) (hnumeric : sc.isNumericKind inst.kind = true)
    (h : Yields (sc.instCode id) s stmts s') (hF : s'.supply.Extends F) : sc.Owns F id stmts := by
  have htracks := tracks_of_typeOf (typeOf_inst hbody hinst) hint
  rw [instCode, hinst] at h
  obtain ⟨name, ty, kind, block⟩ := inst
  cases kind with
  | phi incoming =>
      have hphi : sc.body.isPhi id = true := by
        rw [Body.isPhi, hinst]
        rfl
      rw [(yields_pure.1 h).1]
      exact ⟨fun hno => absurd hphi (by simp [hno]), fun _ _ => untouched_nil⟩
  | compare pred a b =>
      have hcomparison : sc.body.isComparison id = true := by
        rw [Body.isComparison, Body.kind?, Value.toInst?, Option.bind_some, hinst, Option.map_some]
      rw [(yields_pure.1 h).1]
      exact ⟨fun _ hno => absurd hcomparison (by simp [hno]), fun _ _ => untouched_nil⟩
  | binary op a b =>
      simp only [isNumericKind, Bool.and_eq_true, Bool.or_eq_true, decide_eq_true_eq,
        or_assoc] at hnumeric
      obtain ⟨aop, hrule, -, -⟩ := rule_of_numeric hnumeric.1.1
      refine owns_of_tracked htracks h hF (fun x => ?_) (fun x y hx => ?_)
      · split
        · exact .pure _
        · refine (sc.express_grows a).bind fun x? => (sc.express_grows b).bind fun y? => ?_
          split
          · exact sc.ruleCode_grows _ _ _ _
          · exact .pure _
      · split
        · exact .pure (forget_untouched hx)
        · refine .after fun x? => .after fun y? => ?_
          split
          · rw [ruleCode, hrule]
            exact arithCode_untouched _ _ _ _ hx
          · exact .pure (forget_untouched hx)
  | select c a b =>
      simp only [isNumericKind, Bool.and_eq_true] at hnumeric
      obtain ⟨⟨-, ha⟩, hb⟩ := hnumeric
      dsimp only at h
      rw [selectCode, isSelectWanted_of_isNumber htracks ha hb] at h
      refine owns_of_tracked htracks h hF (fun x => ?_) (fun x y hx => ?_)
      · refine (sc.express_grows a).bind fun x? => (sc.express_grows b).bind fun y? => ?_
        split
        · exact sc.chooseCode_grows _ _ _ _
        · exact .pure _
      · refine .after fun x? => .after fun y? => ?_
        split
        · exact chooseCode_untouched _ _ _ hx
        · exact .pure (forget_untouched hx)
  | other operands =>
      exact owns_of_tracked htracks h hF (fun x => .pure _)
        (fun x y hx => .pure (forget_untouched hx))
  | cast op a => cases hnumeric
  | address base ty indices => cases hnumeric
  | load ptr => cases hnumeric
  | store value ptr => cases hnumeric
  | alloca ty => cases hnumeric
  | call callee args => cases hnumeric

theorem instsCode_untouched {ids : List InstId} (hbody : sc.func.body = some sc.body)
    (hnumeric : ∀ id ∈ ids, ∀ i, sc.body.inst? id = some i →
      i.ty.isInt = true ∧ sc.isNumericKind i.kind = true)
    (h : Yields (sc.instsCode ids) s stmts s') (hF : s'.supply.Extends F)
    (hy : ∀ id ∈ ids, F.find? (.value sc.funcId (.inst id)) ≠ some y) : Untouched y stmts := by
  induction ids generalizing s stmts with
  | nil => exact (yields_pure.1 h).1 ▸ untouched_nil
  | cons id rest ih =>
      simp only [instsCode, yields_bind, yields_pure] at h
      obtain ⟨first, s₁, hfirst, others, s₂, hothers, rfl, rfl⟩ := h
      obtain ⟨hid, hrest⟩ := List.forall_mem_cons.1 hnumeric
      obtain ⟨hyid, hyrest⟩ := List.forall_mem_cons.1 hy
      refine untouched_append_iff.2 ⟨?_, ih hrest hothers hyrest⟩
      cases hinst : sc.body.inst? id with
      | none =>
          rw [instCode, hinst] at hfirst
          exact absurd hfirst not_yields_fault
      | some inst =>
          obtain ⟨hint, hkind⟩ := hid inst hinst
          have hlater := (sc.instsCode_grows _ _ _ _ hothers).trans hF
          exact (instCode_owns hbody hinst hint hkind hfirst hlater).untouched y hyid

section Congruence

theorem Shows.congr (h : sc.Shows F ρ σ) (hsame : SameFor F σ τ) : sc.Shows F ρ τ := by
  intro id n hcomparison hshown hn
  obtain ⟨x, hx, hvalue⟩ := h id n hcomparison hshown hn
  exact ⟨x, hx, (hsame _ x hx).trans hvalue⟩

theorem Holds.congr (h : sc.Holds F κ α σ) (hsame : SameFor F σ τ) : sc.Holds F κ α τ where
  comparison := fun id x hc hx => (hsame _ x hx).trans (h.comparison id x hc hx)
  arg := fun i x hx => (hsame _ x hx).trans (h.arg i x hx)

theorem Agrees.congr (h : sc.Agrees F κ α ρ σ) (hsame : SameFor F σ τ) : sc.Agrees F κ α ρ τ where
  shows := h.shows.congr hsame
  holds := h.holds.congr hsame
  coherent := h.coherent

end Congruence

section Coherence

theorem Defined.mono {v : Value} (h : Defined ρ v)
    (hle : ∀ id, (ρ id).isSome → (ρ' id).isSome) : Defined ρ' v :=
  fun id hv => hle id (h id hv)

theorem isSome_update {n : Int} (id' : InstId) (h : (ρ id').isSome) :
    (Function.update ρ id (some n) id').isSome := by
  by_cases he : id' = id
  · rw [he, Function.update_self]
    rfl
  · rwa [Function.update_of_ne he]

theorem kind?_inst (hinst : sc.body.inst? id = some inst) :
    sc.body.kind? (.inst id) = some inst.kind := by
  rw [Body.kind?, Value.toInst?, Option.bind_some, hinst, Option.map_some]

theorem coherent_none : sc.Coherent fun _ => none := by
  constructor
  · intro id pred a b hk hsome
    cases hsome
  · intro id op a b hk hsome
    cases hsome

/-- Executing an instruction keeps what is known of the executed ones. -/
theorem Coherent.update {n : Int} (hc : sc.Coherent ρ) (hinst : sc.body.inst? id = some inst)
    (hnumeric : sc.isNumericKind inst.kind = true) (hresult : inst.kind.Results α ρ n) :
    sc.Coherent (Function.update ρ id (some n)) := by
  have hkind := kind?_inst hinst
  constructor
  · intro id' pred a b hk hsome
    by_cases he : id' = id
    · subst he
      have hk' : inst.kind = .compare pred a b := Option.some.inj (hkind.symm.trans hk)
      rw [hk'] at hnumeric hresult
      obtain ⟨u, w, hra, hrb, -⟩ := hresult
      simp only [isNumericKind, Bool.and_eq_true, Bool.not_eq_true'] at hnumeric
      obtain ⟨⟨hpred, ha⟩, hb⟩ := hnumeric
      exact ⟨hpred, ha, hb, (defined_of_reads hra).mono isSome_update,
        (defined_of_reads hrb).mono isSome_update⟩
    · rw [Function.update_of_ne he] at hsome
      obtain ⟨hpred, ha, hb, hda, hdb⟩ := hc.comparison id' pred a b hk hsome
      exact ⟨hpred, ha, hb, hda.mono isSome_update, hdb.mono isSome_update⟩
  · intro id' op a b hk hsome
    by_cases he : id' = id
    · subst he
      have hk' : inst.kind = .binary op a b := Option.some.inj (hkind.symm.trans hk)
      rw [hk'] at hnumeric hresult
      simp only [isNumericKind, Bool.and_eq_true, Bool.or_eq_true, decide_eq_true_eq,
        or_assoc] at hnumeric
      refine ⟨hnumeric.1.1, ?_⟩
      intro he
      subst he
      -- an operation that reads its own result has not been executed for the first time
      obtain ⟨u, w, -, hrb, -⟩ := hresult
      exact (hc.binary id' op a _ hk (Option.isSome_iff_exists.2 ⟨w, hrb⟩)).2 rfl
    · rw [Function.update_of_ne he] at hsome
      exact hc.binary id' op a b hk hsome

theorem Coherent.enters {R : Rules} {pred : BlockId} {block : Block} (hc : sc.Coherent ρ)
    (he : sc.body.Enters R pred block ρ ρ') : sc.Coherent ρ' := by
  have hphi : ∀ id ∈ (sc.body.phis block).map (·.1), (ρ' id).isSome ∧
      ∃ incoming, sc.body.kind? (.inst id) = some (.phi incoming) := by
    intro id hid
    obtain ⟨p, hp, rfl⟩ := List.mem_map.1 hid
    obtain ⟨v, n, hincoming, hn, -⟩ := he.phi p hp
    refine ⟨Option.isSome_iff_exists.2 ⟨n, hn⟩, ?_⟩
    unfold incomingValue? at hincoming
    split at hincoming
    next incoming hk => exact ⟨incoming, hk ▸ kind?_inst (phis_spec hp).2.1⟩
    next => cases hincoming
  have hle : ∀ id, (ρ id).isSome → (ρ' id).isSome := by
    intro id hid
    by_cases hm : id ∈ (sc.body.phis block).map (·.1)
    · exact (hphi id hm).1
    · rwa [he.other id hm]
  have hold : ∀ id kind, sc.body.kind? (.inst id) = some kind →
      (∀ incoming, kind ≠ .phi incoming) → (ρ' id).isSome → (ρ id).isSome := by
    intro id kind hk hne hid
    by_cases hm : id ∈ (sc.body.phis block).map (·.1)
    · obtain ⟨-, incoming, hk'⟩ := hphi id hm
      exact absurd (Option.some.inj (hk.symm.trans hk')) (hne incoming)
    · rwa [he.other id hm] at hid
  constructor
  · intro id pred a b hk hsome
    obtain ⟨hpred, ha, hb, hda, hdb⟩ := hc.comparison id pred a b hk (hold id _ hk nofun hsome)
    exact ⟨hpred, ha, hb, hda.mono hle, hdb.mono hle⟩
  · intro id op a b hk hsome
    exact hc.binary id op a b hk (hold id _ hk nofun hsome)

end Coherence

section Instructions

/-- The result of an instruction is in its variable, if it has one. -/
def Records (sc : Scope) (F : VarSupply) (id : InstId) (n : Int) (τ : Valuation) : Prop :=
  sc.body.isComparison id = false → sc.hidden (.inst id) = false →
    ∀ x, F.find? (.value sc.funcId (.inst id)) = some x → τ x = n

/-- What has been written decides which result is meant. -/
theorem Writes.agrees {n : Int} (hw : sc.Writes F κ α ρ id σ τ) (hagrees : sc.Agrees F κ α ρ σ)
    (hcoherent : sc.Coherent (Function.update ρ id (some n))) (hrecords : sc.Records F id n τ) :
    (sc.known (sc.frozen κ α)).result ρ id n ∧
      sc.Agrees F κ α (Function.update ρ id (some n)) τ := by
  unfold Writes at hw
  split at hw
  next hunwritten =>
    subst hw
    refine ⟨fun hshown => ?_, ⟨fun id' m hcomparison hshown hm => ?_, hagrees.holds, hcoherent⟩⟩
    · have hcomparison : sc.body.isComparison id = true := by simpa [hshown] using hunwritten
      unfold Body.isComparison at hcomparison
      split at hcomparison
      next pred a b hkind => rw [hkind]; trivial
      next => cases hcomparison
    · by_cases he : id' = id
      · rw [he] at hcomparison hshown
        simp [hcomparison, hshown] at hunwritten
      · rw [Function.update_of_ne he] at hm
        exact hagrees.shows id' m hcomparison hshown hm
  next hwritten =>
    obtain ⟨x, m, hx, hresult, rfl⟩ := hw
    simp only [Bool.or_eq_true, not_or, Bool.not_eq_true] at hwritten
    obtain rfl : m = n := by simpa using hrecords hwritten.1 hwritten.2 x hx
    refine ⟨hresult, ⟨fun id' k hcomparison hshown hk => ?_, ⟨fun id' y hc hy => ?_, ?_⟩,
      hcoherent⟩⟩
    · by_cases he : id' = id
      · subst he
        rw [Function.update_self] at hk
        exact ⟨x, hx, by rw [Function.update_self]; exact Option.some.inj hk⟩
      · rw [Function.update_of_ne he] at hk
        obtain ⟨y, hy, rfl⟩ := hagrees.shows id' k hcomparison hshown hk
        refine ⟨y, hy, Function.update_of_ne ?_ _ _⟩
        intro he
        subst he
        exact he (Value.inst.inj (Referent.value.inj (VarSupply.find?_injective hy hx)).2)
    · rw [← hagrees.holds.comparison id' y hc hy]
      refine Function.update_of_ne ?_ _ _
      intro he
      subst he
      obtain rfl := Value.inst.inj (Referent.value.inj (VarSupply.find?_injective hy hx)).2
      cases hc.symm.trans hwritten.1
    · intro i y hy
      rw [← hagrees.holds.arg i y hy]
      refine Function.update_of_ne ?_ _ _
      intro he
      subst he
      cases (Referent.value.inj (VarSupply.find?_injective hy hx)).2

/-- Any result that is allowed can be written. -/
theorem exists_writes {n : Int} (hresult : (sc.known (sc.frozen κ α)).result ρ id n)
    (howned : sc.body.isComparison id = false → sc.hidden (.inst id) = false →
      ∃ x, F.find? (.value sc.funcId (.inst id)) = some x) :
    ∃ τ, sc.Writes F κ α ρ id σ τ ∧ sc.Records F id n τ := by
  unfold Writes
  split
  next hunwritten =>
    refine ⟨σ, rfl, fun hcomparison hshown => ?_⟩
    simp [hcomparison, hshown] at hunwritten
  next hwritten =>
    simp only [Bool.or_eq_true, not_or, Bool.not_eq_true] at hwritten
    obtain ⟨x, hx⟩ := howned hwritten.1 hwritten.2
    refine ⟨Function.update σ x n, ⟨x, n, hx, hresult, rfl⟩, fun _ _ y hy => ?_⟩
    obtain rfl := Option.some.inj (hx.symm.trans hy)
    exact Function.update_self _ _ _

theorem executes_other {body : Body} {R : Rules} {ids : List InstId}
    (h : body.Executes R ids ρ ρ') (hid : id ∉ ids) : ρ' id = ρ id := by
  induction ids generalizing ρ with
  | nil => rw [show ρ' = ρ from h]
  | cons first rest ih =>
      obtain ⟨hne, hrest⟩ := List.ne_and_not_mem_of_not_mem_cons hid
      unfold Body.Executes at h
      split at h
      next => exact ih h hrest
      next =>
        obtain ⟨n, -, h⟩ := h
        rw [ih h hrest, Function.update_of_ne hne]

variable {ids : List InstId} (hbody : sc.func.body = some sc.body)
  (hhavoc : sc.settings.explicitHavoc = true) (hn : ids.Nodup)
  (hnumeric : ∀ id ∈ ids, ∀ i, sc.body.inst? id = some i →
    i.ty.isInt = true ∧ sc.isNumericKind i.kind = true)
include hbody hhavoc hn hnumeric

omit hbody hhavoc hn hnumeric in
theorem phiInst_code (hphi : sc.body.isPhi id = true) (h : Yields (sc.instCode id) s stmts s') :
    stmts = [] := by
  obtain ⟨inst, hinst, hkind⟩ := (Option.any_eq_true _ _).1 hphi
  rw [instCode, hinst] at h
  dsimp only at h
  unfold InstKind.isPhi at hkind
  split at hkind
  next incoming hk =>
    rw [hk] at h
    exact (yields_pure.1 h).1
  next => cases hkind

/-- What is executed and allowed is done by the code. -/
theorem instsCode_follows (h : Yields (sc.instsCode ids) s stmts s') (hF : s'.supply.Extends F)
    (hs : sc.body.Executes (sc.body.source α) ids ρ ρ')
    (hk : sc.body.Executes (sc.known (sc.frozen κ α)) ids ρ ρ')
    (hagrees : sc.Agrees F κ α ρ σ) : ∃ τ, RunAll stmts σ τ ∧ sc.Agrees F κ α ρ' τ := by
  induction ids generalizing s stmts ρ σ with
  | nil =>
      obtain ⟨rfl, -⟩ := yields_pure.1 h
      exact ⟨σ, .nil, by rwa [show ρ' = ρ from hs]⟩
  | cons id rest ih =>
      simp only [instsCode, yields_bind, yields_pure] at h
      obtain ⟨first, s₁, hfirst, others, s₂, hothers, rfl, rfl⟩ := h
      obtain ⟨hid, hrest⟩ := List.forall_mem_cons.1 hnumeric
      obtain ⟨hnew, hn⟩ := List.nodup_cons.1 hn
      have hlater := (sc.instsCode_grows _ _ _ _ hothers).trans hF
      unfold Body.Executes at hs hk
      cases hphi : sc.body.isPhi id with
      | true =>
          rw [if_pos hphi] at hs hk
          obtain ⟨τ, hrun, hend⟩ := ih hn hrest hothers hs hk hagrees
          rw [phiInst_code hphi hfirst, List.nil_append]
          exact ⟨τ, hrun, hend⟩
      | false =>
          rw [hphi] at hs hk
          obtain ⟨n, ⟨inst, hinst, hresult⟩, hs⟩ := hs
          obtain ⟨m, hallowed, hk⟩ := hk
          obtain rfl : n = m := by
            have hend := (executes_other hs hnew).symm.trans (executes_other hk hnew)
            simpa using hend
          obtain ⟨hint, hkind⟩ := hid inst hinst
          have howns := instCode_owns hbody hinst hint hkind hfirst hlater
          obtain ⟨σ₁, hwrites, hrecords⟩ := exists_writes (σ := σ) hallowed (howns.owned hphi)
          have hrun := (instCode_runs hbody hinst hint hkind hhavoc hfirst hlater hagrees
            hresult).2 hwrites
          obtain ⟨-, hagrees₁⟩ := hwrites.agrees hagrees
            (hagrees.coherent.update hinst hkind hresult) hrecords
          obtain ⟨τ, hrun', hend⟩ := ih hn hrest hothers hs hk hagrees₁
          exact ⟨τ, runAll_append_iff.2 ⟨σ₁, hrun, hrun'⟩, hend⟩

/-- What the code does is allowed, if the results are what the variables hold at the end. -/
theorem instsCode_known (h : Yields (sc.instsCode ids) s stmts s') (hF : s'.supply.Extends F)
    (hs : sc.body.Executes (sc.body.source α) ids ρ ρ') (hrun : RunAll stmts σ τ)
    (hrecords : ∀ id ∈ ids, sc.body.isPhi id = false →
      ∀ n, ρ' id = some n → sc.Records F id n τ)
    (hagrees : sc.Agrees F κ α ρ σ) :
    sc.body.Executes (sc.known (sc.frozen κ α)) ids ρ ρ' ∧ sc.Agrees F κ α ρ' τ := by
  induction ids generalizing s stmts ρ σ with
  | nil =>
      obtain ⟨rfl, -⟩ := yields_pure.1 h
      obtain rfl := runAll_nil_iff.1 hrun
      exact ⟨hs, by rwa [show ρ' = ρ from hs]⟩
  | cons id rest ih =>
      simp only [instsCode, yields_bind, yields_pure] at h
      obtain ⟨first, s₁, hfirst, others, s₂, hothers, rfl, rfl⟩ := h
      obtain ⟨hid, hrest⟩ := List.forall_mem_cons.1 hnumeric
      obtain ⟨hnew, hn⟩ := List.nodup_cons.1 hn
      obtain ⟨hrecord, hrecords⟩ := List.forall_mem_cons.1 hrecords
      have hlater := (sc.instsCode_grows _ _ _ _ hothers).trans hF
      unfold Body.Executes at hs ⊢
      cases hphi : sc.body.isPhi id with
      | true =>
          rw [if_pos hphi] at hs
          rw [phiInst_code hphi hfirst, List.nil_append] at hrun
          rw [if_pos rfl]
          exact ih hn hrest hothers hs hrun hrecords hagrees
      | false =>
          rw [hphi] at hs
          obtain ⟨n, ⟨inst, hinst, hresult⟩, hs⟩ := hs
          obtain ⟨hint, hkind⟩ := hid inst hinst
          obtain ⟨σ₁, hrun₁, hrun⟩ := runAll_append_iff.1 hrun
          have hwrites := (instCode_runs hbody hinst hint hkind hhavoc hfirst hlater hagrees
            hresult).1 hrun₁
          have hfinal : ρ' id = some n := by
            rw [executes_other hs hnew, Function.update_self]
          have hrecord₁ : sc.Records F id n σ₁ := by
            intro hcomparison hshown x hx
            rw [← hrecord hphi n hfinal hcomparison hshown x hx]
            refine
              (hrun.frame (instsCode_untouched hbody hrest hothers hF fun id' hid' hx' => ?_)).symm
            have hsame := VarSupply.find?_injective hx hx'
            exact hnew ((Value.inst.inj (Referent.value.inj hsame).2) ▸ hid')
          obtain ⟨hallowed, hagrees₁⟩ := hwrites.agrees hagrees
            (hagrees.coherent.update hinst hkind hresult) hrecord₁
          obtain ⟨hexecutes, hend⟩ := ih hn hrest hothers hs hrun hrecords hagrees₁
          exact ⟨⟨n, hallowed, hexecutes⟩, hend⟩

end Instructions

end Scope

end AffineFlow
