import AffineFlow.Proofs.PlainGraph
import AffineFlow.Proofs.Shape.Code
import AffineFlow.Proofs.Statements.Simplified

/-!
# What the graphs are made of

A property that is admitted, and that call sites have, holds of every statement
of every graph, simplified or not. The one that says what the forms and the
constraints look like is of this kind.
-/
namespace AffineFlow

open Ssa Lowering

namespace Scope

variable {sc : Scope} {P : Stmt → Prop}

theorem callSiteCode_only (hP : AdmitsActions P) (hcall : ∀ site, P (.call site)) (id : InstId)
    (ty : Ty) (callee : FuncId) (args : List Value) :
    Ensures (Only P) (sc.callSiteCode id ty callee args) := by
  have finish : ∀ setup : List Stmt, Only P setup → ∀ r : List TypedVar × List Stmt, Only P r.2 →
      ∀ scalars, Ensures (Only P) (do
        let ret ← sc.receiver? id ty
        let func ← sc.functionVariable callee
        return setup ++ r.2 ++ [.call ⟨ret, func, scalars ++ r.1⟩]) :=
    fun setup hs r hr scalars => .after fun ret => .after fun func =>
      .pure (Only.append_iff.2 ⟨Only.append_iff.2 ⟨hs, hr⟩, .single (hcall _)⟩)
  unfold callSiteCode
  refine (sc.passScalars_only hP args).bind fun scalars hs => ?_
  dsimp only
  split
  · exact (passCells_only hP _).bind fun r hr => finish _ hs r hr _
  · exact .bind (R := fun r : List TypedVar × List Stmt => Only P r.2) (.pure .nil)
      fun r hr => finish _ hs r hr _

/-- The instructions whose code need not consist of actions: casts, assumptions, and calls that
are written as call sites. -/
inductive Exceptional (sc : Scope) (id : InstId) (s : Session) (stmts : List Stmt) (s' : Session) :
    Prop
  | cast {inst : Inst} {op : CastOp} {value : Value} : sc.body.inst? id = some inst →
      inst.kind = .cast op value → Yields (sc.castCode id inst.ty op value) s stmts s' →
      Exceptional sc id s stmts s'
  | assumption {inst : Inst} {calleeId : FuncId} {callee : Function} {args : List Value}
      {negated : Bool} : sc.body.inst? id = some inst → inst.kind = .call (.direct calleeId) args →
      sc.program.func? calleeId = some callee → sc.meaning callee = .assumption negated →
      Yields (sc.assumptionCode negated args) s stmts s' → Exceptional sc id s stmts s'
  | callSite {inst : Inst} {calleeId : FuncId} {args : List Value} :
      sc.body.inst? id = some inst → inst.kind = .call (.direct calleeId) args →
      Yields (sc.callSiteCode id inst.ty calleeId args) s stmts s' → Exceptional sc id s stmts s'

theorem instCode_actions (hP : AdmitsActions P) {id : InstId} {s s' : Session}
    {stmts : List Stmt} (h : Yields (sc.instCode id) s stmts s') :
    Only P stmts ∨ sc.Exceptional id s stmts s' := by
  have only {c : Lowering (List Stmt)} (hc : Ensures (Only P) c) (h : Yields c s stmts s') :
      Only P stmts ∨ sc.Exceptional id s stmts s' := .inl (hc _ _ _ h)
  unfold instCode at h
  split at h
  next => exact absurd h not_yields_fault
  next inst hinst =>
  split at h
  case h_4 op value hkind => exact .inr (.cast hinst hkind h)
  case h_10 callee args hkind =>
    unfold callCode at h
    split at h
    next => exact only (sc.forgetResult_only hP id) h
    next calleeId =>
    split at h
    next => exact only (sc.forgetResult_only hP id) h
    next callee hcallee =>
    unfold directCallCode at h
    split at h
    case h_6 negated hmeaning => exact .inr (.assumption hinst hkind hcallee hmeaning h)
    · exact only (.pure .nil) h
    · exact only (zeroedCode_only hP _) h
    · exact only (sc.memorySetCode_only hP _) h
    · exact only (sc.memoryCopyCode_only hP _) h
    · exact only (.pure .nil) h
    · split at h
      · exact only (.after fun _ => sc.unmodelledCallCode_only hP id) h
      · exact only (sc.unmodelledCallCode_only hP id) h
    · split at h
      · exact .inr (.callSite hinst hkind h)
      · exact only (sc.unmodelledCallCode_only hP id) h
  · exact only (.pure .nil) h
  · exact only (.pure .nil) h
  · exact only (sc.binaryCode_only hP _ _ _ _) h
  · exact only (sc.addressCode_only hP _ _ _ _) h
  · exact only (sc.loadCode_only hP _ _ _) h
  · exact only (sc.storeCode_only hP _ _) h
  · exact only (sc.allocaCode_only hP _) h
  · exact only (sc.selectCode_only hP _ _ _ _) h
  · exact only (sc.forgetResult_only hP _) h

variable (hP : Admits P)
include hP

theorem edgeCode_only {source : BlockId} {block : Block} {index : Nat} {succ : BlockId} :
    Ensures (fun edge : EdgeCode => Only P edge.stmts)
      (sc.edgeCode source block index succ) := by
  intro s edge s' h
  obtain ⟨_, condition, phis, _, _, -, -, -, he, -, hcondition, hphis⟩ := edgeCode_spec h
  rw [he]
  exact Only.append_iff.2 ⟨sc.edgeCondition_only hP _ _ _ _ _ hcondition,
    sc.phiCode_only hP.toAdmitsActions _ _ _ _ _ _ _ hphis⟩

/-- The property holds of all code of a block, except perhaps of that of its instructions. -/
theorem Leaves.only {s s' : Session} {code : BlockCode} {block : Block} {last : List Stmt}
    (h : sc.Leaves code.source block s s' last code.leaving) :
    Only P last ∧ ∀ part ∈ code.parts, part = code.stmts ∨ Only P part := by
  obtain ⟨id, stmts, leaving⟩ := code
  cases h with
  | nothing _ _ => simp [BlockCode.parts]
  | value _ hcode =>
      simpa [BlockCode.parts] using sc.returnCode_only hP.toAdmitsActions _ _ _ _ hcode
  | stuck _ _ => simpa [BlockCode.parts] using hP.unreachable
  | jump _ _ _ hcode =>
      simpa [BlockCode.parts] using sc.phiCode_only hP.toAdmitsActions _ _ _ _ _ _ _ hcode
  | branch _ hedges =>
      refine ⟨.nil, List.forall_mem_cons.2 ⟨.inl rfl, fun part hp => .inr ?_⟩⟩
      obtain ⟨edge, hedge, rfl⟩ := List.mem_map.1 hp
      obtain ⟨i, hi⟩ := List.mem_iff_getElem?.1 hedge
      obtain ⟨succ, t₁, t₂, -, hcode⟩ := (edgesCode_spec hedges).2 i edge hi
      exact edgeCode_only hP _ _ _ hcode

variable (hcall : ∀ site, P (.call site))
include hcall

theorem instCode_only (id : InstId) : Ensures (Only P) (sc.instCode id) := by
  intro s stmts s' h
  rcases instCode_actions hP.toAdmitsActions h with honly | hother
  · exact honly
  · cases hother with
    | cast _ _ hcode => exact sc.castCode_only hP _ _ _ _ _ _ _ hcode
    | assumption _ _ _ _ hcode => exact sc.assumptionCode_only hP _ _ _ _ _ hcode
    | callSite _ _ hcode => exact callSiteCode_only hP.toAdmitsActions hcall _ _ _ _ _ _ _ hcode

theorem instsCode_only (ids : List InstId) : Ensures (Only P) (sc.instsCode ids) := by
  induction ids with
  | nil => exact .pure .nil
  | cons id rest ih =>
      exact (instCode_only hP hcall id).bind fun stmts hs =>
        ih.bind fun l hl => .pure (Only.append_iff.2 ⟨hs, hl⟩)

theorem blockCode_only (id : BlockId) :
    Ensures (fun code : BlockCode => ∀ part ∈ code.parts, Only P part) (sc.blockCode id) := by
  intro s code s' h part hpart
  obtain ⟨block, stmts, last, s₁, s₂, -, -, hsource, hstmts, -, hinsts, hleaves⟩ :=
    blockCode_spec h
  obtain ⟨hlast, hedges⟩ := Leaves.only hP (hsource ▸ hleaves)
  rcases hedges part hpart with rfl | hpart
  · rw [hstmts]
    exact Only.append_iff.2 ⟨instsCode_only hP hcall _ _ _ _ hinsts, hlast⟩
  · exact hpart

theorem graph_only {s s' : Session} {g : FlowGraph} (h : Yields sc.graph s g s') {k : Handle}
    {n : Node} (hn : g.nodes.get? k = some n) : Only P n.stmts := by
  obtain ⟨codes, pre, s₁, s₂, s₃, hcodes, -, hprologue, -, hparts, -⟩ := graph_composed h
  intro stmt hs
  obtain ⟨part, hpart, hmem, -⟩ := hparts k n hn stmt hs
  rcases List.mem_cons.1 hpart with rfl | hpart
  · exact sc.prologue_only hP.toAdmitsActions _ _ _ hprologue stmt hmem
  · obtain ⟨code, hcode, hpart⟩ := List.mem_flatMap.1 hpart
    obtain ⟨t₁, t₂, hblock⟩ := (blocksCode_spec hcodes).2 code hcode
    exact blockCode_only hP hcall _ _ _ _ hblock part hpart stmt hmem

end Scope

theorem Stmt.admits_regular : Admits Stmt.Regular where
  assign he := ⟨List.forall_mem_singleton.2 he, List.forall_mem_nil _⟩
  havoc := ⟨List.forall_mem_nil _, List.forall_mem_nil _⟩
  assume hc := ⟨List.forall_mem_nil _, List.forall_mem_singleton.2 hc⟩
  arith ha hb :=
    ⟨List.forall_mem_cons.2 ⟨ha, List.forall_mem_singleton.2 hb⟩, List.forall_mem_nil _⟩
  bitwise ha hb :=
    ⟨List.forall_mem_cons.2 ⟨ha, List.forall_mem_singleton.2 hb⟩, List.forall_mem_nil _⟩
  selectOn hc ha hb := ⟨List.forall_mem_cons.2 ⟨ha, List.forall_mem_singleton.2 hb⟩,
    List.forall_mem_singleton.2 hc⟩
  selectBy ha hb :=
    ⟨List.forall_mem_cons.2 ⟨ha, List.forall_mem_singleton.2 hb⟩, List.forall_mem_nil _⟩
  arrayLoad hindex := ⟨List.forall_mem_singleton.2 hindex, List.forall_mem_nil _⟩
  arrayStore hindex hvalue :=
    ⟨List.forall_mem_cons.2 ⟨hindex, List.forall_mem_singleton.2 hvalue⟩, List.forall_mem_nil _⟩
  arrayInit := ⟨List.forall_mem_nil _, List.forall_mem_nil _⟩
  assumeArray := ⟨List.forall_mem_nil _, List.forall_mem_nil _⟩
  ret := ⟨List.forall_mem_nil _, List.forall_mem_nil _⟩
  unreachable := ⟨List.forall_mem_nil _, List.forall_mem_nil _⟩

end AffineFlow
