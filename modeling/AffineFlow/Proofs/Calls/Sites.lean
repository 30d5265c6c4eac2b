import AffineFlow.Proofs.Calls.Passing
import AffineFlow.Proofs.Shape.Graph

/-!
# Call sites and declarations

A call site in a graph is the last statement of the code of a call instruction
in a laid-out block, whatever the settings. Its arguments and the parameters of a
declaration are described by the roles that their places have.
-/
namespace AffineFlow

open Ssa Lowering

/-- No statement of the list is a call site. -/
def CallFree (stmts : List Stmt) : Prop := ∀ stmt ∈ stmts, stmt.callSite? = none

theorem admitsActions_callFree : AdmitsActions fun stmt => stmt.callSite? = none := by
  constructor <;> intros <;> rfl

/-- Nothing but an ordinary call is written as a call site. -/
theorem admits_callFree : Admits fun stmt => stmt.callSite? = none :=
  { admitsActions_callFree with assume := fun _ => rfl }

theorem forall₂_append_left {α β : Type} {R : α → β → Prop} {l₁ l₂ : List α} {l : List β}
    (h : List.Forall₂ R (l₁ ++ l₂) l) :
    ∃ r₁ r₂, List.Forall₂ R l₁ r₁ ∧ List.Forall₂ R l₂ r₂ ∧ l = r₁ ++ r₂ := by
  induction l₁ generalizing l with
  | nil => exact ⟨[], l, .nil, h, rfl⟩
  | cons x rest ih =>
      cases h with
      | @cons _ y _ l hxy hrest =>
          obtain ⟨r₁, r₂, h₁, h₂, rfl⟩ := ih hrest
          exact ⟨y :: r₁, r₂, .cons hxy h₁, h₂, rfl⟩

/-- What a place in a list of arguments or of parameters is for. -/
inductive Role where
  | argument (index : Nat)
  /-- The array of the cell as it is before the call. -/
  | input (c : Cell)
  /-- The array itself, as the callee leaves it. -/
  | output (c : Cell)
  /-- A cell that the callee allocates. -/
  | allocated (c : Cell)

def Effects.roles (e : Effects) : List Role :=
  e.touched.map .input ++ (e.touched.map .output ++ e.new.map .allocated)

namespace Scope

variable {sc : Scope} {F : VarSupply} {s s' : Session}

/-- The roles of the scalars with these indices and then of the cells, where there are any. -/
def roles (sc : Scope) (indices : List Nat) (effects : Effects) : List Role :=
  indices.map .argument ++ if sc.modelsMemory then effects.roles else []

/-- The variable has the role among the arguments of a call behind the statements `before`. -/
def Actual (sc : Scope) (F : VarSupply) (before : List Stmt) (args : List Value) :
    Role → TypedVar → Prop
  | .argument i, v => ∃ a, args[i]? = some a ∧ sc.isPassed a = .ok true ∧ sc.Carries F before a v
  | .input c, v => F.CopiedFrom before c v
  | .output c, v => F.IsCell c v
  | .allocated c, v => F.IsCell c v

/-- The variable has the role among the parameters of a function that starts with `entry`. -/
def Formal (sc : Scope) (F : VarSupply) (entry : List Stmt) : Role → TypedVar → Prop
  | .argument i, v => ∃ p, sc.func.params[i]? = some p ∧
      F.find? (.value sc.funcId (.arg i)) = some v.1 ∧ v.2 = .ofTy p.ty
  | .input c, v => F.CopiedTo entry c v
  | .output c, v => F.IsCell c v
  | .allocated c, v => F.IsCell c v

theorem Actual.mono {before before' : List Stmt} {args : List Value} {role : Role} {v : TypedVar}
    (h : sc.Actual F before args role v) (hsub : before ⊆ before') :
    sc.Actual F before' args role v := by
  cases role with
  | argument i =>
      obtain ⟨a, ha, hpassed, hcarries⟩ := h
      exact ⟨a, ha, hpassed, hcarries.mono hsub⟩
  | input c => exact VarSupply.CopiedFrom.mono h hsub
  | output c => exact h
  | allocated c => exact h

theorem Formal.mono {entry entry' : List Stmt} {role : Role} {v : TypedVar}
    (h : sc.Formal F entry role v) (hsub : entry ⊆ entry') : sc.Formal F entry' role v := by
  cases role with
  | argument i => exact h
  | input c => exact VarSupply.CopiedTo.mono h hsub
  | output c => exact h
  | allocated c => exact h

/-- The cells of a call site have the roles of the effects. -/
theorem passCells_spec {effects : Effects} {args : List Value} {vs : List TypedVar}
    {stmts : List Stmt} (h : Yields (passCells effects) s (vs, stmts) s')
    (hF : s'.supply.Extends F) :
    List.Forall₂ (sc.Actual F stmts args) effects.roles vs := by
  simp only [passCells, yields_bind, yields_pure] at h
  obtain ⟨⟨copies, stmts'⟩, s₁, hcopies, cells, s₂, hcells, he, rfl⟩ := h
  obtain ⟨rfl, rfl⟩ := Prod.mk.inj he
  have hgrown := (cellVariables_grows _ _ _ _ hcells).trans hF
  obtain ⟨outputs, allocated, houtputs, hallocated, rfl⟩ :=
    forall₂_append_left (cellVariables_spec hcells hF)
  have hinputs := passCopies_spec hcopies hgrown
  refine List.rel_append ?_ (List.rel_append ?_ ?_)
  · exact List.forall₂_map_left_iff.2 hinputs
  · exact List.forall₂_map_left_iff.2 houtputs
  · exact List.forall₂_map_left_iff.2 hallocated

/-- The cells of a declaration have the roles of the effects. -/
theorem receiveCells_spec {effects : Effects} {vs : List TypedVar} {stmts : List Stmt}
    (h : Yields (receiveCells effects) s (vs, stmts) s') (hF : s'.supply.Extends F) :
    List.Forall₂ (sc.Formal F stmts) effects.roles vs := by
  simp only [receiveCells, yields_bind, yields_pure] at h
  obtain ⟨⟨copies, stmts'⟩, s₁, hcopies, cells, s₂, hcells, he, rfl⟩ := h
  obtain ⟨rfl, rfl⟩ := Prod.mk.inj he
  have hgrown := (cellVariables_grows _ _ _ _ hcells).trans hF
  obtain ⟨outputs, allocated, houtputs, hallocated, rfl⟩ :=
    forall₂_append_left (cellVariables_spec hcells hF)
  have hinputs := receiveCopies_spec hcopies hgrown
  refine List.rel_append ?_ (List.rel_append ?_ ?_)
  · exact List.forall₂_map_left_iff.2 hinputs
  · exact List.forall₂_map_left_iff.2 houtputs
  · exact List.forall₂_map_left_iff.2 hallocated

/-- A call site passes the scalars that are passed, and then the cells. -/
theorem callSiteCode_spec {id : InstId} {ty : Ty} {callee : FuncId} {args : List Value}
    {stmts : List Stmt} (h : Yields (sc.callSiteCode id ty callee args) s stmts s')
    (hF : s'.supply.Extends F) :
    ∃ before site taken, stmts = before ++ [.call site] ∧ CallFree before ∧
      Picks (fun a _ => sc.isPassed a = .ok true) 0 args taken ∧
      List.Forall₂ (sc.Actual F before args)
        (sc.roles (taken.map (·.2)) (sc.oracle.callEffects sc.funcId id)) site.args := by
  simp only [callSiteCode, yields_bind, yields_ite_bind, yields_pure] at h
  obtain ⟨⟨scalars, setup⟩, s₁, hscalars, ⟨cells, copies⟩, s₂, hcells, ret, s₃, hret, func, s₄,
    hfunc, rfl, rfl⟩ := h
  have hgrown₃ := (sc.functionVariable_grows _ _ _ _ hfunc).trans hF
  have hgrown₂ := (sc.receiver?_grows _ _ _ _ _ hret).trans hgrown₃
  have hcells' : s₁.supply.Extends s₂.supply ∧ CallFree copies ∧
      List.Forall₂ (sc.Actual F copies args)
        (if sc.modelsMemory then (sc.oracle.callEffects sc.funcId id).roles else []) cells := by
    split at hcells
    next hmemory =>
      rw [if_pos hmemory]
      exact ⟨passCells_grows _ _ _ _ hcells, passCells_only admitsActions_callFree _ _ _ _ hcells,
        passCells_spec hcells hgrown₂⟩
    next hmemory =>
      rw [if_neg hmemory]
      obtain ⟨he, rfl⟩ := yields_pure.1 hcells
      obtain ⟨rfl, rfl⟩ := Prod.mk.inj he
      exact ⟨.refl _, Only.nil, .nil⟩
  obtain ⟨hgrown₁, hfree, hcells'⟩ := hcells'
  obtain ⟨taken, hpicks, hall⟩ := passScalars_spec 0 hscalars (hgrown₁.trans hgrown₂)
  refine ⟨setup ++ copies, _, taken, rfl, ?_, hpicks, List.rel_append ?_ ?_⟩
  · exact Only.append_iff.2 ⟨sc.passScalars_only admitsActions_callFree _ _ _ _ hscalars, hfree⟩
  · rw [List.map_map, List.forall₂_map_left_iff]
    have hpassed : ∀ p ∈ taken, args[p.2]? = some p.1 ∧ sc.isPassed p.1 = .ok true := by
      intro p hp
      obtain ⟨hmem, hp⟩ := hpicks.mem_iff.1 hp
      exact ⟨List.mem_zipIdx_iff_getElem?.1 hmem, hp⟩
    apply ((List.forall₂_and_left taken scalars).2 ⟨hpassed, hall⟩).imp
    intro p v h
    exact ⟨p.1, h.1.1, h.1.2, h.2.mono (List.subset_append_left _ _)⟩
  · exact hcells'.imp fun role v h => h.mono (List.subset_append_right _ _)

/-- A declaration has the scalars that are received, and then the cells. -/
theorem signature_spec {decl : Declaration} {stmts : List Stmt} (hentry : sc.isProgramEntry = false)
    (h : Yields sc.signature s (decl, stmts) s') (hF : s'.supply.Extends F) :
    ∃ taken, Picks (fun p i => sc.isParamReceived i p.ty = .ok true) 0 sc.func.params taken ∧
      List.Forall₂ (sc.Formal F stmts)
        (sc.roles (taken.map (·.2)) (sc.oracle.funcEffects sc.funcId)) decl.params := by
  simp only [signature, hentry, Bool.not_false, Bool.and_true, yields_bind,
    yields_ite_bind, yields_pure] at h
  obtain ⟨scalars, s₁, hscalars, ⟨cells, stmts'⟩, s₂, hcells, name, s₃, hname, he, rfl⟩ := h
  obtain ⟨rfl, rfl⟩ := Prod.mk.inj he
  have hgrown₂ := (sc.functionVariable_grows _ _ _ _ hname).trans hF
  have hcells' : s₁.supply.Extends s₂.supply ∧ List.Forall₂ (sc.Formal F stmts)
      (if sc.modelsMemory then (sc.oracle.funcEffects sc.funcId).roles else []) cells := by
    split at hcells
    next hmemory =>
      rw [if_pos hmemory]
      exact ⟨receiveCells_grows _ _ _ _ hcells, receiveCells_spec hcells hgrown₂⟩
    next hmemory =>
      rw [if_neg hmemory]
      obtain ⟨he, rfl⟩ := yields_pure.1 hcells
      obtain ⟨rfl, rfl⟩ := Prod.mk.inj he
      exact ⟨.refl _, .nil⟩
  obtain ⟨taken, hpicks, hall⟩ := scalarParams_spec hscalars (hcells'.1.trans hgrown₂)
  refine ⟨taken, hpicks, List.rel_append ?_ hcells'.2⟩
  rw [List.map_map, List.forall₂_map_left_iff]
  have hplaced : ∀ p ∈ taken, sc.func.params[p.2]? = some p.1 := by
    intro p hp
    exact List.mem_zipIdx_iff_getElem?.1 (hpicks.mem_iff.1 hp).1
  apply ((List.forall₂_and_left taken scalars).2 ⟨hplaced, hall⟩).imp
  intro p v h
  exact ⟨p.1, h.1, h.2⟩

/-- The declaration that the prologue makes, and the code behind it. -/
theorem prologue_spec {decl? : Option Declaration} {stmts : List Stmt}
    (hinter : sc.settings.interprocedural = true) (hentry : sc.isProgramEntry = false)
    (h : Yields sc.prologue s (decl?, stmts) s') (hF : s'.supply.Extends F) :
    ∃ decl taken, decl? = some decl ∧
      Picks (fun p i => sc.isParamReceived i p.ty = .ok true) 0 sc.func.params taken ∧
      List.Forall₂ (sc.Formal F stmts)
        (sc.roles (taken.map (·.2)) (sc.oracle.funcEffects sc.funcId)) decl.params := by
  simp only [prologue, hinter, if_true, yields_bind, yields_ite_bind, yields_pure] at h
  obtain ⟨⟨decl, received⟩, s₁, hsignature, _, s₂, ⟨rfl, hs₂⟩, memory, _, hmemory, he, rfl⟩ := h
  subst hs₂
  obtain ⟨rfl, rfl⟩ := Prod.mk.inj he
  have hgrown : s₂.supply.Extends s'.supply := by
    split at hmemory
    next => exact sc.memoryCode_grows _ _ _ hmemory
    next =>
      obtain ⟨-, rfl⟩ := yields_pure.1 hmemory
      exact .refl _
  obtain ⟨taken, hpicks, hall⟩ := signature_spec hentry hsignature (hgrown.trans hF)
  exact ⟨decl, taken, rfl, hpicks,
    hall.imp fun role v hv => hv.mono (List.subset_append_left _ _)⟩

/-- An instruction that was lowered to a call site is a direct call. -/
theorem instCode_spec_of_call {id : InstId} {stmts : List Stmt} {site : CallSite}
    (h : Yields (sc.instCode id) s stmts s') (hsite : .call site ∈ stmts) :
    ∃ inst calleeId args, sc.body.inst? id = some inst ∧
      inst.kind = .call (.direct calleeId) args ∧
      Yields (sc.callSiteCode id inst.ty calleeId args) s stmts s' := by
  have hfree : ¬CallFree stmts := fun hfree => nomatch hfree _ hsite
  cases (instCode_actions admitsActions_callFree h).resolve_left hfree with
  | cast _ _ hcode => exact absurd (sc.castCode_only admits_callFree _ _ _ _ _ _ _ hcode) hfree
  | assumption _ _ _ _ hcode =>
      exact absurd (sc.assumptionCode_only admits_callFree _ _ _ _ _ hcode) hfree
  | callSite hinst hkind hcode => exact ⟨_, _, _, hinst, hkind, hcode⟩

theorem instsCode_mem {ids : List InstId} {stmts : List Stmt} {stmt : Stmt}
    (h : Yields (sc.instsCode ids) s stmts s') (hs : stmt ∈ stmts) :
    ∃ id ∈ ids, ∃ part s₁ s₂, Yields (sc.instCode id) s₁ part s₂ ∧
      s₂.supply.Extends s'.supply ∧ stmt ∈ part ∧ part <:+: stmts := by
  induction ids generalizing s stmts with
  | nil =>
      obtain ⟨rfl, -⟩ := yields_pure.1 h
      cases hs
  | cons id rest ih =>
      simp only [instsCode, yields_bind, yields_pure] at h
      obtain ⟨first, s₁, hfirst, others, s₂, hrest, rfl, rfl⟩ := h
      rcases List.mem_append.1 hs with hs | hs
      · exact ⟨id, List.mem_cons_self, first, s, s₁, hfirst, sc.instsCode_grows _ _ _ _ hrest, hs,
          (List.prefix_append _ _).isInfix⟩
      · obtain ⟨id', hid, part, t₁, t₂, hpart, hgrown, hmem, hinfix⟩ := ih hrest hs
        exact ⟨id', List.mem_cons_of_mem _ hid, part, t₁, t₂, hpart, hgrown, hmem,
          hinfix.trans (List.suffix_append _ _).isInfix⟩

theorem blocksCode_mem {ids : List BlockId} {codes : List BlockCode} {code : BlockCode}
    (h : Yields (sc.blocksCode ids) s codes s') (hcode : code ∈ codes) :
    ∃ id ∈ ids, ∃ s₁ s₂, Yields (sc.blockCode id) s₁ code s₂ ∧ s₂.supply.Extends s'.supply := by
  induction ids generalizing s codes with
  | nil =>
      obtain ⟨rfl, -⟩ := yields_pure.1 h
      cases hcode
  | cons id rest ih =>
      simp only [blocksCode, yields_bind, yields_pure] at h
      obtain ⟨first, s₁, hfirst, others, s₂, hrest, rfl, rfl⟩ := h
      rcases List.mem_cons.1 hcode with rfl | hcode
      · exact ⟨id, List.mem_cons_self, s, s₁, hfirst, sc.blocksCode_grows _ _ _ _ hrest⟩
      · obtain ⟨id', hid, t₁, t₂, hrun, hgrown⟩ := ih hrest hcode
        exact ⟨id', List.mem_cons_of_mem _ hid, t₁, t₂, hrun, hgrown⟩

theorem edgesCode_get {source : BlockId} {index : Nat} {succs : List BlockId}
    {edges : List EdgeCode} {block : Block}
    (h : Yields (sc.edgesCode source block index succs) s edges s') {i : Nat} {edge : EdgeCode}
    (hi : edges[i]? = some edge) : ∃ succ s₁ s₂, succs[i]? = some succ ∧ edge.target = succ ∧
      Yields (sc.edgeCode source block (index + i) succ) s₁ edge s₂ ∧
      s₂.supply.Extends s'.supply := by
  induction succs generalizing index s edges i with
  | nil =>
      obtain ⟨rfl, rfl⟩ := yields_pure.1 h
      cases hi
  | cons succ rest ih =>
      simp only [edgesCode, yields_bind, yields_pure] at h
      obtain ⟨first, s₁, hfirst, others, s₂, hothers, rfl, rfl⟩ := h
      cases i with
      | zero =>
          obtain rfl := Option.some.inj hi
          obtain ⟨_, _, _, _, _, _, _, htarget, _⟩ := edgeCode_spec hfirst
          exact ⟨succ, s, s₁, rfl, htarget, hfirst, sc.edgesCode_grows _ _ _ _ _ _ _ hothers⟩
      | succ i =>
          obtain ⟨succ', t₁, t₂, hsucc, htarget, hcode, hgrown⟩ := ih hothers hi
          rw [Nat.add_right_comm, Nat.add_assoc] at hcode
          exact ⟨succ', t₁, t₂, hsucc, htarget, hcode, hgrown⟩

theorem Leaves.grows {id : BlockId} {block : Block} {last : List Stmt} {leaving : Leaving}
    (h : sc.Leaves id block s s' last leaving) : s.supply.Extends s'.supply := by
  cases h with
  | nothing _ he => exact he ▸ .refl _
  | value _ hcode => exact sc.returnCode_grows _ _ _ _ hcode
  | stuck _ he => exact he ▸ .refl _
  | jump _ _ _ hcode => exact sc.phiCode_grows _ _ _ _ _ _ _ hcode
  | branch _ hedges => exact sc.edgesCode_grows _ _ _ _ _ _ _ hedges

end Scope

end AffineFlow
