import AffineFlow.Proofs.Memory.Home
import AffineFlow.Proofs.Statements.Emission

/-!
# Calls that change cells

A call that is not written as a call site changes cells in ways that only the
oracle knows, or as a block operation. It writes to the arrays of the cells,
whereas loads read the variable of the object where a cell has just one. So a
cell loses its contents just if it has no such object and its array is written,
or if the object is a value that the call forgets.
-/
namespace AffineFlow

open Ssa Lowering

/-- The number that a fill with the value leaves everywhere, if it can be expressed. -/
def Ssa.Value.fill? : Value → Option Int
  | .int bits n => if bits = 1 then some (if n = 0 then 0 else 1) else fit64 n
  | .null => some 0
  | _ => none

namespace Scope

variable {sc : Scope} {F : VarSupply} {s s' : Session} {i : InstId} {c : Cell} {o : Value}
  {code code' : List Stmt} {values values' : Value → Prop} {cells cells' : Cell → Prop}

/-- The code overwrites or forgets the contents of the cell. -/
def Overwrites (sc : Scope) (F : VarSupply) (code : List Stmt) (c : Cell) : Prop :=
  ∃ x, sc.Home F c x ∧ ∃ stmt ∈ code, stmt.target? = some x

/-- The code writes to the variables of the tracked ones among the values and to the arrays of the
cells, and to nothing else. -/
structure WritesTo (sc : Scope) (F : VarSupply) (code : List Stmt) (values : Value → Prop)
    (cells : Cell → Prop) : Prop where
  target_iff : ∀ x, (∃ stmt ∈ code, stmt.target? = some x) ↔
    (∃ o, values o ∧ sc.tracks o = .ok true ∧ sc.Denotes F o x) ∨
      ∃ c, cells c ∧ F.find? (.cell c) = some x
  variable_exists : ∀ o, values o → sc.tracks o = .ok true → ∃ x, sc.Denotes F o x
  array_exists : ∀ c, cells c → ∃ x, F.find? (.cell c) = some x

theorem writesTo_nothing (h : ∀ stmt ∈ code, stmt.target? = none) (hvalues : ∀ o, ¬values o)
    (hcells : ∀ c, ¬cells c) : sc.WritesTo F code values cells := by
  refine ⟨fun x => ?_, fun o ho => (hvalues o ho).elim, fun c hc => (hcells c hc).elim⟩
  constructor
  · intro hwritten
    obtain ⟨stmt, hs, hx⟩ := hwritten
    cases (h stmt hs).symm.trans hx
  · rintro (⟨o, ho, -⟩ | ⟨c, hc, -⟩)
    · exact (hvalues o ho).elim
    · exact (hcells c hc).elim

theorem WritesTo.append (h : sc.WritesTo F code values cells)
    (h' : sc.WritesTo F code' values' cells') :
    sc.WritesTo F (code ++ code') (fun o => values o ∨ values' o) fun c => cells c ∨ cells' c := by
  refine ⟨fun x => ?_, fun o ho htracked => ?_, fun c hc => ?_⟩
  · simp only [List.mem_append, or_and_right, exists_or, h.target_iff, h'.target_iff]
    exact or_or_or_comm
  · exact ho.elim (h.variable_exists o · htracked) (h'.variable_exists o · htracked)
  · exact hc.elim (h.array_exists c) (h'.array_exists c)

theorem WritesTo.congr (h : sc.WritesTo F code values cells) (hvalues : ∀ o, values o ↔ values' o)
    (hcells : ∀ c, cells c ↔ cells' c) : sc.WritesTo F code values' cells' := by
  obtain rfl : values = values' := funext fun o => propext (hvalues o)
  obtain rfl : cells = cells' := funext fun c => propext (hcells c)
  exact h

/-- What becomes of the contents of a cell where the values and the arrays are written. -/
theorem WritesTo.overwrites_iff (h : sc.WritesTo F code values cells) :
    sc.Overwrites F code c ↔
      (∃ o, sc.HeldBy c o ∧ values o) ∨ (∀ o, ¬sc.HeldBy c o) ∧ cells c := by
  constructor
  · intro hoverwrites
    obtain ⟨x, hhome, hwritten⟩ := hoverwrites
    cases hhome with
    | @object o _ hheld hx =>
        rcases (h.target_iff x).1 hwritten with ⟨o', ho', -, hx'⟩ | ⟨c', -, hx'⟩
        · obtain rfl := hx.value_unique hx'
          exact .inl ⟨o, hheld, ho'⟩
        · exact absurd rfl (hx.ne_cell hx')
    | array hnone hx =>
        rcases (h.target_iff x).1 hwritten with ⟨o, -, -, hx'⟩ | ⟨c', hc', hx'⟩
        · exact absurd rfl (hx'.ne_cell hx)
        · cases VarSupply.find?_injective hx hx'
          exact .inr ⟨hnone, hc'⟩
  · rintro (⟨o, hheld, ho⟩ | ⟨hnone, hc⟩)
    · obtain ⟨x, hx⟩ := h.variable_exists o ho hheld.tracked
      exact ⟨x, .object hheld hx, (h.target_iff x).2 (.inl ⟨o, ho, hheld.tracked, hx⟩)⟩
    · obtain ⟨x, hx⟩ := h.array_exists c hc
      exact ⟨x, .array hnone hx, (h.target_iff x).2 (.inr ⟨c, hc, hx⟩)⟩

theorem writesTo_array {array : Var} (hfind : F.find? (.cell c) = some array)
    (hcode : ∀ x, (∃ stmt ∈ code, stmt.target? = some x) ↔ x = array) :
    sc.WritesTo F code (fun _ => False) (· = c) := by
  refine ⟨fun x => ?_, fun o ho => ho.elim, ?_⟩
  · rw [hcode]
    simp [hfind, eq_comm]
  · rintro _ rfl
    exact ⟨array, hfind⟩

/-- Code that writes at most to the variable of one value, where that is tracked. -/
theorem writesTo_variable {stmts : Var → List Stmt} {written : Prop}
    (hstmts : ∀ x y, (∃ stmt ∈ stmts x, stmt.target? = some y) ↔ written ∧ y = x)
    (h : Yields (onlyIf (sc.tracks o) (sc.variableOf o >>= fun x => pure (stmts x))) s code s')
    (hF : s'.supply.Extends F) :
    sc.WritesTo F code (fun o' => written ∧ o = o') fun _ => False := by
  rcases yields_onlyIf.1 h with ⟨htracked, h⟩ | ⟨hnot, rfl, -⟩
  · obtain ⟨x, s₁, hx, hcode⟩ := yields_bind.1 h
    obtain ⟨rfl, rfl⟩ := yields_pure.1 hcode
    have hdenotes := (variableOf_spec hx hF).2
    refine ⟨fun y => ?_, ?_, fun c hc => hc.elim⟩
    · rw [hstmts]
      simp only [false_and, exists_false, or_false]
      constructor
      · intro hboth
        obtain ⟨hwritten, rfl⟩ := hboth
        exact ⟨o, ⟨hwritten, rfl⟩, htracked, hdenotes⟩
      · rintro ⟨_, ⟨hwritten, rfl⟩, -, hy⟩
        exact ⟨hwritten, hy.unique hdenotes⟩
    · rintro _ ⟨-, rfl⟩ -
      exact ⟨x, hdenotes⟩
  · refine ⟨fun y => ?_, ?_, fun c hc => hc.elim⟩
    · simp [hnot]
    · rintro _ ⟨-, rfl⟩ htracked
      cases hnot.symm.trans htracked

theorem forgetResult_writesTo (h : Yields (sc.forgetResult i) s code s')
    (hF : s'.supply.Extends F) :
    sc.WritesTo F code (fun o => sc.settings.explicitHavoc = true ∧ .inst i = o)
      fun _ => False := by
  refine writesTo_variable (fun x y => ?_) h hF
  unfold forget
  split
  next hset => simp [hset, Stmt.target?, eq_comm]
  next hset => simp [hset]

theorem forgetCells_writesTo {list : List Cell} (h : Yields (forgetCells list) s code s')
    (hF : s'.supply.Extends F) : sc.WritesTo F code (fun _ => False) (· ∈ list) := by
  induction list generalizing s code with
  | nil =>
      obtain ⟨rfl, -⟩ := yields_pure.1 h
      exact writesTo_nothing (List.forall_mem_nil _) (fun _ => id) fun _ => List.not_mem_nil
  | cons c rest ih =>
      simp only [forgetCells, yields_bind, yields_pure] at h
      obtain ⟨array, s₁, harray, others, _, hrest, rfl, rfl⟩ := h
      have hfind := cellVariable_spec harray ((forgetCells_grows rest _ _ _ hrest).trans hF)
      have hfirst : sc.WritesTo F [.havoc array] (fun _ => False) (· = c) :=
        writesTo_array hfind fun x => by simp [Stmt.target?, eq_comm]
      exact (hfirst.append (ih hrest)).congr (fun _ => or_self_iff) fun _ => List.mem_cons.symm

/-- A call with only its effects writes to its result and to the arrays of the cells. -/
theorem unmodelledCallCode_writesTo (hmemory : sc.modelsMemory = true)
    (h : Yields (sc.unmodelledCallCode i) s code s') (hF : s'.supply.Extends F) :
    sc.WritesTo F code (fun o => sc.settings.explicitHavoc = true ∧ .inst i = o)
      (· ∈ (sc.oracle.callEffects sc.funcId i).modified) := by
  simp only [unmodelledCallCode, hmemory, if_true, yields_bind, yields_pure] at h
  obtain ⟨result, s₁, hresult, cells, s₂, hcells, rfl, rfl⟩ := h
  have hgrown := (forgetCells_grows _ _ _ _ hcells).trans hF
  exact ((forgetResult_writesTo hresult hgrown).append (forgetCells_writesTo hcells hF)).congr
    (fun _ => by simp) fun _ => by simp

theorem express_fill {v : Value} {e? : Option AffineForm} (hmemory : sc.modelsMemory = true)
    (h : Yields (sc.express v) s e? s') : e?.bind (·.toConst?) = v.fill? := by
  cases v with
  | int bits n =>
      simp only [express] at h
      simp only [Value.fill?]
      split at h
      next hb =>
        obtain ⟨rfl, -⟩ := yields_pure.1 h
        rw [if_pos hb]
        rfl
      next hb =>
        obtain ⟨rfl, -⟩ := yields_pure.1 h
        rw [if_neg hb]
        cases fit64 n <;> rfl
  | null =>
      obtain ⟨rfl, -⟩ := yields_pure.1 h
      rw [hmemory]
      rfl
  | undef bits =>
      obtain ⟨rfl, -⟩ := yields_pure.1 h
      rfl
  | _ =>
      -- what has a variable is not known to be a constant
      simp only [express, yields_bind, yields_ofExcept] at h
      obtain ⟨tracked, _, -, h⟩ := h
      split at h
      · simp only [yields_bind, yields_pure] at h
        obtain ⟨x, -, -, rfl, -⟩ := h
        rfl
      · obtain ⟨rfl, -⟩ := yields_pure.1 h
        rfl

/-- The cell that a fill with these arguments writes. -/
def setCell? (sc : Scope) : List Value → Option Cell
  | ptr :: value :: _ => if value.fill?.isSome then sc.cellAt? ptr else none
  | _ => none

/-- The cell that a copy with these arguments writes. -/
def copiedCell? (sc : Scope) : List Value → Option Cell
  | dst :: src :: _ => if (sc.cellAt? src).isSome then sc.cellAt? dst else none
  | _ => none

theorem writesTo_nil {c? : Option Cell} (hcode : code = []) (hnone : c? = none) :
    sc.WritesTo F code (fun _ => False) (c? = some ·) := by
  subst hcode hnone
  exact writesTo_nothing (List.forall_mem_nil _) (fun _ => id) fun c => by simp

theorem memorySetCode_writesTo {args : List Value} (hmemory : sc.modelsMemory = true)
    (h : Yields (sc.memorySetCode args) s code s') (hF : s'.supply.Extends F) :
    sc.WritesTo F code (fun _ => False) (sc.setCell? args = some ·) := by
  unfold memorySetCode at h
  split at h
  next ptr value rest =>
    simp only [setCell?]
    split at h
    next hnone => exact writesTo_nil (yields_pure.1 h).1 (by simp [hnone])
    next cell hcell =>
      obtain ⟨e?, s₁, hexpress, h⟩ := yields_bind.1 h
      rw [express_fill hmemory hexpress] at h
      split at h
      next hnone => exact writesTo_nil (yields_pure.1 h).1 (by simp [hnone])
      next n hn =>
        simp only [yields_bind, yields_pure] at h
        obtain ⟨array, _, harray, rfl, rfl⟩ := h
        refine (writesTo_array (cellVariable_spec harray hF) fun x => ?_).congr (fun _ => .rfl)
          fun c => ?_
        · simp [Stmt.target?, eq_comm]
        · simp [hn, hcell, eq_comm]
  next hshort =>
    refine writesTo_nil (yields_pure.1 h).1 ?_
    unfold setCell?
    split
    next => exact absurd rfl (hshort _ _ _)
    next => rfl

theorem memoryCopyCode_writesTo {args : List Value}
    (h : Yields (sc.memoryCopyCode args) s code s') (hF : s'.supply.Extends F) :
    sc.WritesTo F code (fun _ => False) (sc.copiedCell? args = some ·) := by
  unfold memoryCopyCode at h
  split at h
  next dst src rest =>
    simp only [copiedCell?]
    split at h
    next cell cell' hcell hcell' =>
      simp only [yields_bind, yields_pure] at h
      obtain ⟨array, s₁, harray, array', _, harray', rfl, rfl⟩ := h
      have hfind := cellVariable_spec harray ((cellVariable_grows _ _ _ _ harray').trans hF)
      refine (writesTo_array hfind fun x => ?_).congr (fun _ => .rfl) fun c => ?_
      · simp [Stmt.target?, eq_comm]
      · simp [hcell, hcell', eq_comm]
    next hnot =>
      refine writesTo_nil (yields_pure.1 h).1 ?_
      cases hsrc : sc.cellAt? src with
      | none => rfl
      | some cell' =>
          cases hdst : sc.cellAt? dst with
          | none => rfl
          | some cell => exact absurd hsrc (hnot _ _ hdst)
  next hshort =>
    refine writesTo_nil (yields_pure.1 h).1 ?_
    unfold copiedCell?
    split
    next => exact absurd rfl (hshort _ _ _)
    next => rfl

theorem zeroedCode_targetless {c? : Option Cell} (h : Yields (zeroedCode c?) s code s') :
    ∀ stmt ∈ code, stmt.target? = none := by
  unfold zeroedCode at h
  split at h
  next =>
    simp only [yields_bind, yields_pure] at h
    obtain ⟨array, -, -, rfl, -⟩ := h
    exact List.forall_mem_singleton.2 rfl
  next =>
    obtain ⟨rfl, -⟩ := yields_pure.1 h
    exact List.forall_mem_nil _

/-- Code that has no targets. -/
def Targetless (code : Lowering (List Stmt)) : Prop :=
  Ensures (fun stmts : List Stmt => ∀ stmt ∈ stmts, stmt.target? = none) code

theorem pinTracked_targetless {cond : Value} {negated : Bool} :
    Targetless (sc.pinTracked cond negated) :=
  .onlyIf (List.forall_mem_nil _) (.after fun _ => .pure (List.forall_mem_singleton.2 rfl))

theorem targetless_assume (constraints : List Constraint) :
    ∀ stmt ∈ constraints.map Stmt.assume, stmt.target? = none :=
  List.forall_mem_map.2 fun _ _ => rfl

theorem comparisonAssumptions_targetless {cond a b : Value} {pred : Predicate} {negated : Bool} :
    Targetless (sc.comparisonAssumptions cond pred a b negated) := by
  refine .onlyIf (List.forall_mem_nil _) (.after fun constraints => ?_)
  have hlast : ∀ pinned : List Stmt, (∀ stmt ∈ pinned, stmt.target? = none) →
      Targetless (pure (constraints.map .assume ++ pinned)) := fun pinned hpinned =>
    .pure (List.forall_mem_append.2 ⟨targetless_assume _, hpinned⟩)
  split
  · exact Ensures.bind pinTracked_targetless hlast
  · exact Ensures.bind (.pure (List.forall_mem_nil _)) hlast

theorem bothAssumptions_targetless {a b : Value} {negated : Bool} :
    Targetless (sc.bothAssumptions a b negated) := by
  refine .after fun first => .after fun second => ?_
  split
  · exact .after fun left => .after fun right => .pure (targetless_assume _)
  · exact .pure (List.forall_mem_nil _)

/-- The value that an assumption of the condition forgets: the result of an operation other than a
conjunction or disjunction. -/
def forgottenCondition? (sc : Scope) (cond : Value) : Option Value :=
  match sc.body.kind? cond with
  | some (.binary op _ _) => if op = .and ∨ op = .or then none else some cond
  | _ => none

theorem connectiveAssumptions_writesTo {cond a b : Value} {op : BinaryOp} {negated : Bool}
    (hkind : sc.body.kind? cond = some (.binary op a b))
    (h : Yields (sc.connectiveAssumptions cond op a b negated) s code s')
    (hF : s'.supply.Extends F) :
    sc.WritesTo F code
      (fun o => sc.settings.explicitHavoc = true ∧ sc.forgottenCondition? cond = some o)
      fun _ => False := by
  have nothing : (∀ stmt ∈ code, stmt.target? = none) → op = .and ∨ op = .or →
      sc.WritesTo F code
        (fun o => sc.settings.explicitHavoc = true ∧ sc.forgottenCondition? cond = some o)
        fun _ => False := by
    intro hcode hop
    exact writesTo_nothing hcode (fun o => by simp [forgottenCondition?, hkind, hop]) fun _ => id
  unfold connectiveAssumptions at h
  split at h
  · exact nothing (bothAssumptions_targetless _ _ _ h) (.inl rfl)
  · exact nothing (bothAssumptions_targetless _ _ _ h) (.inr rfl)
  · obtain ⟨rfl, -⟩ := yields_pure.1 h
    exact nothing (List.forall_mem_nil _) (.inl rfl)
  · obtain ⟨rfl, -⟩ := yields_pure.1 h
    exact nothing (List.forall_mem_nil _) (.inr rfl)
  next hnot₁ hnot₂ hnot₃ hnot₄ =>
    have hop : ¬(op = .and ∨ op = .or) := by
      cases negated <;> grind
    have hforgotten : sc.forgottenCondition? cond = some cond := by
      simp [forgottenCondition?, hkind, hop]
    simp only [hforgotten, Option.some.injEq]
    split at h
    next hset =>
      have hwrites : sc.WritesTo F code (fun o => True ∧ cond = o) fun _ => False :=
        writesTo_variable (fun x y => by simp [Stmt.target?, eq_comm]) h hF
      exact hwrites.congr (fun o => by simp [hset]) fun _ => .rfl
    next hset =>
      obtain ⟨rfl, -⟩ := yields_pure.1 h
      exact writesTo_nothing (List.forall_mem_nil _) (fun o => by simp [hset]) fun _ => id

theorem assumptions_writesTo {cond : Value} {negated : Bool}
    (h : Yields (sc.assumptions cond negated) s code s') (hF : s'.supply.Extends F) :
    sc.WritesTo F code
      (fun o => sc.settings.explicitHavoc = true ∧ sc.forgottenCondition? cond = some o)
      fun _ => False := by
  have nothing : (∀ stmt ∈ code, stmt.target? = none) → sc.forgottenCondition? cond = none →
      sc.WritesTo F code
        (fun o => sc.settings.explicitHavoc = true ∧ sc.forgottenCondition? cond = some o)
        fun _ => False := by
    intro hcode hnone
    exact writesTo_nothing hcode (fun o => by simp [hnone]) fun _ => id
  unfold assumptions at h
  split at h
  next n hn =>
    obtain ⟨bits, rfl⟩ : ∃ bits, cond = .int bits n := by
      cases cond <;> simp_all [Value.toInt?]
    obtain ⟨rfl, -⟩ := yields_pure.1 h
    refine nothing ?_ rfl
    split
    · exact List.forall_mem_singleton.2 rfl
    · exact List.forall_mem_nil _
  next =>
    split at h
    next pred a b hkind =>
      exact nothing (comparisonAssumptions_targetless _ _ _ h)
        (by simp [forgottenCondition?, hkind])
    next op a b hkind => exact connectiveAssumptions_writesTo hkind h hF
    next hnotComparison hnotBinary =>
      refine nothing (pinTracked_targetless _ _ _ h) ?_
      unfold forgottenCondition?
      split
      next hkind => exact absurd hkind (hnotBinary _ _ _)
      next => rfl

theorem assumptionCode_writesTo {args : List Value} {negated : Bool}
    (h : Yields (sc.assumptionCode negated args) s code s') (hF : s'.supply.Extends F) :
    sc.WritesTo F code
      (fun o => sc.settings.explicitHavoc = true ∧ (args.head?.bind fun cond =>
        sc.forgottenCondition? (sc.beneathZeroExtension cond)) = some o) fun _ => False := by
  cases args with
  | nil =>
      obtain ⟨rfl, -⟩ := yields_pure.1 h
      exact writesTo_nothing (List.forall_mem_nil _) (fun o => by simp) fun _ => id
  | cons cond rest => exact assumptions_writesTo h hF

/-- The value that a direct call forgets if it is not written as a call site. -/
def forgottenBy? (sc : Scope) (i : InstId) (calleeId : FuncId) (args : List Value) :
    Option Value :=
  match (sc.program.func? calleeId).map sc.meaning with
  | none | some .variadic | some .ordinary => some (.inst i)
  | some (.assumption _) =>
      args.head?.bind fun cond => sc.forgottenCondition? (sc.beneathZeroExtension cond)
  | _ => none

/-- The cells whose arrays a direct call writes if it is not written as a call site. -/
def filledBy (sc : Scope) (i : InstId) (calleeId : FuncId) (args : List Value) : List Cell :=
  match (sc.program.func? calleeId).map sc.meaning with
  | some .variadic | some .ordinary => (sc.oracle.callEffects sc.funcId i).modified
  | some .memorySet => (sc.setCell? args).toList
  | some .memoryCopy => (sc.copiedCell? args).toList
  | _ => []

/-- The call of the function is written as a call site. -/
def isCallSite (sc : Scope) (calleeId : FuncId) : Bool :=
  sc.settings.interprocedural && (sc.program.func? calleeId).any (sc.meaning · = .ordinary)

theorem directCallCode_writesTo {ty : Ty} {calleeId : FuncId} {callee : Function}
    {args : List Value} (hmemory : sc.modelsMemory = true)
    (hcallee : sc.program.func? calleeId = some callee) (hsite : sc.isCallSite calleeId = false)
    (h : Yields (sc.directCallCode i ty calleeId callee args) s code s')
    (hF : s'.supply.Extends F) :
    sc.WritesTo F code
      (fun o => sc.settings.explicitHavoc = true ∧ sc.forgottenBy? i calleeId args = some o)
      (· ∈ sc.filledBy i calleeId args) := by
  have unmodelled : ∀ t, Yields (sc.unmodelledCallCode i) t code s' → sc.WritesTo F code
      (fun o => sc.settings.explicitHavoc = true ∧ some (.inst i) = some o)
      (· ∈ (sc.oracle.callEffects sc.funcId i).modified) :=
    fun t h => (unmodelledCallCode_writesTo hmemory h hF).congr (fun o => by simp) fun c => .rfl
  unfold directCallCode at h
  unfold forgottenBy? filledBy
  simp only [hcallee, Option.map_some]
  cases hmeaning : sc.meaning callee with
  | bookkeeping =>
      rw [hmeaning] at h
      obtain ⟨rfl, -⟩ := yields_pure.1 h
      exact writesTo_nothing (List.forall_mem_nil _) (by simp) (by simp)
  | allocation =>
      rw [hmeaning] at h
      exact writesTo_nothing (zeroedCode_targetless h) (by simp) (by simp)
  | memorySet =>
      rw [hmeaning] at h
      exact (memorySetCode_writesTo hmemory h hF).congr (fun o => by simp) fun c => by simp
  | memoryCopy =>
      rw [hmeaning] at h
      exact (memoryCopyCode_writesTo h hF).congr (fun o => by simp) fun c => by simp
  | unmodelledIntrinsic =>
      rw [hmeaning] at h
      obtain ⟨rfl, -⟩ := yields_pure.1 h
      exact writesTo_nothing (List.forall_mem_nil _) (by simp) (by simp)
  | assumption negated =>
      rw [hmeaning] at h
      exact (assumptionCode_writesTo h hF).congr (fun o => .rfl) fun c => by simp
  | «variadic» =>
      rw [hmeaning] at h
      dsimp only at h
      split at h
      · obtain ⟨-, t, -, h⟩ := yields_bind.1 h
        exact unmodelled t h
      · exact unmodelled s h
  | ordinary =>
      rw [hmeaning] at h
      have hmode : ¬sc.settings.interprocedural = true := by
        simpa [isCallSite, hcallee, hmeaning] using hsite
      simp only [if_neg hmode] at h
      exact unmodelled s h

/-- What a direct call writes to, if it is not written as a call site. -/
theorem instCode_writesTo {inst : Inst} {calleeId : FuncId} {args : List Value}
    (hmemory : sc.modelsMemory = true) (hinst : sc.body.inst? i = some inst)
    (hkind : inst.kind = .call (.direct calleeId) args) (hsite : sc.isCallSite calleeId = false)
    (h : Yields (sc.instCode i) s code s') (hF : s'.supply.Extends F) :
    sc.WritesTo F code
      (fun o => sc.settings.explicitHavoc = true ∧ sc.forgottenBy? i calleeId args = some o)
      (· ∈ sc.filledBy i calleeId args) := by
  simp only [instCode, hinst, hkind, callCode] at h
  cases hcallee : sc.program.func? calleeId with
  | none =>
      rw [hcallee] at h
      refine (forgetResult_writesTo h hF).congr (fun o => ?_) fun c => ?_
      · simp [forgottenBy?, hcallee]
      · simp [filledBy, hcallee]
  | some callee =>
      rw [hcallee] at h
      exact directCallCode_writesTo hmemory hcallee hsite h hF

end Scope

end AffineFlow
