import AffineFlow.Proofs.Calls.Sites
import Mathlib.Data.List.Perm.Subperm

/-!
# Calls and declarations agree

A call site and the declaration of its callee are written far apart: one by the
caller, from the arguments, the other by the callee, from its parameters. Their
lists agree if each place has the same role in both. The cells always do. A
scalar is dropped at the call site if it is undefined or named like bookkeeping,
and from the declaration if the parameter is named like bookkeeping; the lists
agree just if these always coincide.
-/
namespace AffineFlow

open Ssa Lowering

namespace Scope

variable {F G : VarSupply} {caller callee : Scope} {before entry : List Stmt} {args : List Value}
  {actuals formals : List TypedVar}

/-- The instruction has been lowered to the call site, behind the statements `before`. -/
def Calls (sc : Scope) (F : VarSupply) (i : InstId) (before : List Stmt) (site : CallSite) : Prop :=
  ∃ s s', Yields (sc.instCode i) s (before ++ [.call site]) s' ∧ s'.supply.Extends F

/-- Values of the type take part in calls. -/
def flows (sc : Scope) (ty : Ty) : Bool :=
  sc.tracksType ty && (!sc.settings.integersOnly || ty.isInt)

/-- Each place has the same role among the arguments and among the parameters. -/
def Agree (caller : Scope) (F : VarSupply) (before : List Stmt) (args : List Value)
    (actuals : List TypedVar) (callee : Scope) (G : VarSupply) (entry : List Stmt)
    (formals : List TypedVar) : Prop :=
  ∃ roles, List.Forall₂ (caller.Actual F before args) roles actuals ∧
    List.Forall₂ (callee.Formal G entry) roles formals

theorem isPassed_iff {sc : Scope} {a : Value} {ty : Ty} (hty : sc.typeOf a = .ok ty) :
    sc.isPassed a = .ok true ↔ (a.isUndef || sc.isShadow a) = false ∧ sc.flows ty = true := by
  have hint : sc.hasIntType a = .ok ty.isInt := by rw [hasIntType, hty]; rfl
  have htracks : sc.tracks a =
      if a.isUndef || sc.isShadow a then .ok false else .ok (sc.tracksType ty) := by
    rw [tracks, hty]
    rfl
  simp only [isPassed, htracks, hint, flows]
  cases a.isUndef || sc.isShadow a with
  | true => simp [bind, Except.bind, pure, Except.pure]
  | false =>
      cases sc.tracksType ty with
      | false => simp [bind, Except.bind, pure, Except.pure]
      | true =>
          cases sc.settings.integersOnly with
          | false => simp [bind, Except.bind, pure, Except.pure]
          | true => simp [bind, Except.bind]

theorem isParamReceived_iff {sc : Scope} {i : Nat} {p : Param}
    (hp : sc.func.params[i]? = some p) :
    sc.isParamReceived i p.ty = .ok true ↔
      startsWith shadowStem p.name = false ∧ sc.flows p.ty = true := by
  have htype : sc.typeOf (.arg i) = .ok p.ty := by
    simp [typeOf, Function.typeOf, hp, Except.mapError]
  have hshadow : sc.isShadow (.arg i) = startsWith shadowStem p.name := by
    simp [isShadow, name?, hp]
  have htracks : sc.tracks (.arg i) =
      if startsWith shadowStem p.name then .ok false else .ok (sc.tracksType p.ty) := by
    rw [tracks, htype, hshadow]
    rfl
  simp only [isParamReceived, htracks, flows]
  cases startsWith shadowStem p.name with
  | true => simp [Except.map]
  | false => simp [Except.map]

theorem roles_length (sc : Scope) (is : List Nat) (effects : Effects) :
    (sc.roles is effects).length = is.length + (sc.roles [] effects).length := by
  simp only [roles, List.length_append, List.length_map, List.length_nil, Nat.zero_add]

/-- A parameter that is received is passed at the same place, if the lists agree. -/
theorem passed_of_agree {effects : Effects} {taken : List (Param × Nat)}
    (hformals : List.Forall₂ (callee.Formal G entry) (callee.roles (taken.map (·.2)) effects)
      formals)
    (hagree : Agree caller F before args actuals callee G entry formals) :
    ∀ i ∈ taken.map (·.2), ∃ a, args[i]? = some a ∧ caller.isPassed a = .ok true := by
  intro i hi
  obtain ⟨roles, hactual, hformal⟩ := hagree
  obtain ⟨j, hj⟩ := List.mem_iff_getElem?.1 (List.mem_append_left _ (List.mem_map_of_mem hi))
  obtain ⟨v, hv, p, hp, hfind, -⟩ := exists_of_forall₂ hformals hj
  obtain ⟨role, hrole, hplays⟩ := exists_of_forall₂ hformal.flip hv
  cases role with
  | argument i' =>
      obtain ⟨_, -, hfind', -⟩ := hplays
      have he := VarSupply.find?_injective hfind hfind'
      obtain ⟨_, -, a, ha, hpassed, -⟩ := exists_of_forall₂ hactual hrole
      simp only [Referent.value.injEq, Value.arg.injEq, true_and] at he
      exact ⟨a, he ▸ ha, hpassed⟩
  | input c => exact absurd hfind (hplays.2.1 _)
  | output c => cases VarSupply.find?_injective hfind hplays.2
  | allocated c => cases VarSupply.find?_injective hfind hplays.2

/-- The lists agree just if the same arguments are passed as parameters are received. -/
theorem agree_iff {effects : Effects} {taken : List (Value × Nat)} {taken' : List (Param × Nat)}
    (hlen : args.length = callee.func.params.length)
    (hpassed : Picks (fun a _ => caller.isPassed a = .ok true) 0 args taken)
    (hactuals : List.Forall₂ (caller.Actual F before args)
      (caller.roles (taken.map (·.2)) effects) actuals)
    (hreceived : Picks (fun p i => callee.isParamReceived i p.ty = .ok true) 0
      callee.func.params taken')
    (hformals : List.Forall₂ (callee.Formal G entry)
      (callee.roles (taken'.map (·.2)) effects) formals)
    (hmemory : caller.modelsMemory = callee.modelsMemory) :
    Agree caller F before args actuals callee G entry formals ↔
      ∀ (i : Nat) (a : Value) (p : Param), args[i]? = some a → callee.func.params[i]? = some p →
        (caller.isPassed a = .ok true ↔ callee.isParamReceived i p.ty = .ok true) := by
  have hroles : ∀ is : List Nat, caller.roles is effects = callee.roles is effects := by
    intro is
    rw [roles, roles, hmemory]
  constructor
  · intro hagree i a p ha hp
    -- received implies passed, and there are equally many of both
    have hsub : taken'.map (·.2) ⊆ taken.map (·.2) := by
      intro j hj
      obtain ⟨b, hb, hbpassed⟩ := passed_of_agree hformals hagree j hj
      exact (hpassed.mem_indices_iff hb).2 hbpassed
    have hcount : (taken.map (·.2)).length = (taken'.map (·.2)).length := by
      obtain ⟨roles', hactual, hformal⟩ := hagree
      have hsame := hactual.length_eq.symm.trans hformal.length_eq
      have hlengths := hactuals.length_eq.trans (hsame.trans hformals.length_eq.symm)
      have hleft := callee.roles_length (taken.map (·.2)) effects
      have hright := callee.roles_length (taken'.map (·.2)) effects
      rw [hroles] at hlengths
      omega
    have hperm := (List.Nodup.subperm hreceived.nodup hsub).perm_of_length_le (Nat.le_of_eq hcount)
    rw [← hpassed.mem_indices_iff ha, ← hreceived.mem_indices_iff hp]
    exact hperm.symm.mem_iff
  · intro hsame
    have hindices := hpassed.indices_eq hreceived hlen fun i a p ha hp => by
      rw [Nat.zero_add]
      exact hsame i a p ha hp
    refine ⟨_, hactuals, ?_⟩
    rw [hroles, hindices]
    exact hformals

/-- Every call site of the graph is the end of the code of a laid-out instruction. -/
theorem calls_of_mem {g : FlowGraph} {s s' : Session} {k : Handle} {n : Node} {site : CallSite}
    (h : Yields caller.graph s g s') (hn : g.nodes.get? k = some n) (hsite : .call site ∈ n.stmts) :
    ∃ id ∈ caller.body.order, ∃ block, caller.body.block? id = some block ∧
      ∃ i ∈ block.insts, ∃ before, before ++ [.call site] <:+: n.stmts ∧
        caller.Calls s'.supply i before site := by
  obtain ⟨codes, pre, s₁, s₂, s₃, hcodes, hsupply, hprologue, hsupply', hparts, -⟩ :=
    graph_composed h
  obtain ⟨part, hpart, hmem, hinfix⟩ := hparts k n hn _ hsite
  rcases List.mem_cons.1 hpart with rfl | hpart
  · cases caller.prologue_only admitsActions_callFree _ _ _ hprologue _ hmem
  obtain ⟨code, hcode, hpart⟩ := List.mem_flatMap.1 hpart
  obtain ⟨id, hid, t₁, t₂, hblock, hgrown⟩ := blocksCode_mem hcodes hcode
  obtain ⟨block, stmts, last, u₁, u₂, -, hget, hsource, hstmts, -, hinsts, hleaves⟩ :=
    blockCode_spec hblock
  have hgrown' : u₂.supply.Extends s'.supply := by
    have hend := caller.prologue_grows _ _ _ hprologue
    rw [hsupply] at hend
    rw [hsupply']
    exact (hleaves.grows.trans hgrown).trans hend
  obtain ⟨hlast, hedges⟩ := (hsource ▸ hleaves).only admits_callFree
  obtain rfl : part = code.stmts :=
    (hedges part hpart).resolve_right fun hfree => nomatch hfree _ hmem
  rw [hstmts] at hmem hinfix
  have hinst : .call site ∈ stmts :=
    (List.mem_append.1 hmem).resolve_right fun hm => nomatch hlast _ hm
  obtain ⟨i, hi, part, v₁, v₂, hcode', hgrown₂, hsite', hpart'⟩ := instsCode_mem hinsts hinst
  have hend := hgrown₂.trans hgrown'
  obtain ⟨inst, calleeId, args, -, -, hcall⟩ := instCode_spec_of_call hcode' hsite'
  obtain ⟨before, site', -, rfl, hfree, -, -⟩ := callSiteCode_spec hcall hend
  obtain rfl : site' = site := by
    rcases List.mem_append.1 hsite' with hm | hm
    · cases hfree _ hm
    · exact (Stmt.call.inj (List.mem_singleton.1 hm)).symm
  refine ⟨id, hid, block, hget, i, hi, before, ?_, v₁, v₂, hcode', hend⟩
  exact hpart'.trans ((List.prefix_append stmts last).isInfix.trans hinfix)

end Scope

/-- In the interprocedural setting, the call sites of a graph are those of the laid-out calls,
and where a call fits its callee, the arguments of its site agree with the parameters of the
declaration just if each scalar that takes part in calls is hidden from both or from neither. -/
theorem callSites_agree_iff {program : Module} {callerId : FuncId} {oracle : Oracle}
    {settings : Settings} {s s' : Session} {g : FlowGraph}
    (hinter : settings.interprocedural = true)
    (h : Yields (functionGraph program callerId oracle settings) s g s') :
    ∃ caller, Scope.ofFunction program callerId oracle settings = .ok caller ∧
      (∀ k n site, g.nodes.get? k = some n → .call site ∈ n.stmts →
        ∃ id ∈ caller.body.order, ∃ block, caller.body.block? id = some block ∧
          ∃ i ∈ block.insts, ∃ before, before ++ [.call site] <:+: n.stmts ∧
            caller.Calls s'.supply i before site) ∧
      ∀ i before site, caller.Calls s'.supply i before site →
        ∃ inst calleeId args, caller.body.inst? i = some inst ∧
          inst.kind = .call (.direct calleeId) args ∧
          ∀ callee t t' g', Scope.ofFunction program calleeId oracle settings = .ok callee →
            callee.isProgramEntry = false →
            List.Forall₂ (fun a p => caller.typeOf a = .ok p.ty) args callee.func.params →
            oracle.callEffects callerId i = oracle.funcEffects calleeId →
            Yields (functionGraph program calleeId oracle settings) t g' t' →
            ∃ decl entry, g'.decl = some decl ∧ g'.nodes.get? g'.entry = some entry ∧
              (Scope.Agree caller s'.supply before args site.args callee t'.supply entry.stmts
                  decl.params ↔
                ∀ (i : Nat) (a : Value) (p : Param), args[i]? = some a →
                  callee.func.params[i]? = some p → caller.flows p.ty = true →
                  (a.isUndef || caller.isShadow a) = startsWith shadowStem p.name) := by
  obtain ⟨caller, hcaller, hgraph⟩ := functionGraph_scope h
  obtain ⟨func, body, -, -, rfl⟩ := Scope.ofFunction_spec hcaller
  refine ⟨_, hcaller, fun k n site hn hsite => Scope.calls_of_mem hgraph hn hsite, ?_⟩
  rintro i before site ⟨u, u', hcode, hgrown⟩
  obtain ⟨inst, calleeId, args, hinst, hkind, hcall⟩ :=
    Scope.instCode_spec_of_call hcode (List.mem_append_right _ List.mem_cons_self)
  obtain ⟨before', site', taken, he, -, hpassed, hactuals⟩ := Scope.callSiteCode_spec hcall hgrown
  obtain ⟨rfl, hlast⟩ := List.append_inj' he rfl
  obtain rfl : site = site' := Stmt.call.inj (List.singleton_inj.1 hlast)
  refine ⟨inst, calleeId, args, hinst, hkind, ?_⟩
  intro callee t t' g' hcallee hentry htypes heffects hg'
  obtain ⟨callee', hcallee', hgraph'⟩ := functionGraph_scope hg'
  obtain rfl : callee' = callee := Except.ok.inj (hcallee'.symm.trans hcallee)
  obtain ⟨func', body', -, -, rfl⟩ := Scope.ofFunction_spec hcallee'
  obtain ⟨codes, pre, s₁, s₂, s₃, -, -, hprologue, hsupply, -, entry, hentryNode, hprefix⟩ :=
    Scope.graph_composed hgraph'
  obtain ⟨decl, taken', hdecl, hreceived, hformals⟩ :=
    Scope.prologue_spec hinter hentry hprologue (.refl _)
  rw [← hsupply] at hformals
  refine ⟨decl, entry, hdecl, hentryNode, ?_⟩
  rw [heffects] at hactuals
  have hformals' := hformals.imp fun role v hv => hv.mono hprefix.subset
  apply (Scope.agree_iff htypes.length_eq hpassed hactuals hreceived hformals' rfl).trans
  refine forall_congr' fun j => forall_congr' fun a => forall_congr' fun p =>
    imp_congr_right fun ha => imp_congr_right fun hp => ?_
  obtain ⟨p', hp', htype⟩ := exists_of_forall₂ htypes ha
  obtain rfl : p' = p := Option.some.inj (hp'.symm.trans hp)
  have hflows : Scope.flows ⟨program, callerId, func, body, oracle, settings⟩ p'.ty =
      Scope.flows ⟨program, calleeId, func', body', oracle, settings⟩ p'.ty := rfl
  rw [Scope.isPassed_iff htype, Scope.isParamReceived_iff hp, hflows]
  constructor
  · intro hboth hf
    simp only [hf, and_true] at hboth
    rw [Bool.eq_iff_iff, ← not_iff_not, Bool.not_eq_true, Bool.not_eq_true]
    exact hboth
  · intro hsame
    constructor
    · intro hboth
      obtain ⟨hhidden, hf⟩ := hboth
      exact ⟨(hsame hf).symm.trans hhidden, hf⟩
    · intro hboth
      obtain ⟨hhidden, hf⟩ := hboth
      exact ⟨(hsame hf).trans hhidden, hf⟩

/-- A function of two numbers, and two functions that call it. -/
def pairCalls : Module where
  funcs := #[
    { name := "pair", params := [⟨"a", .int 32⟩, ⟨"b", .int 32⟩], ret := .void
      body := some (Body.ofListing [⟨"entry", [], .ret none⟩]) },
    { name := "known", params := [⟨"x", .int 32⟩], ret := .void
      body := some (Body.ofListing [⟨"entry",
        [(none, .void, .call (.direct ⟨0⟩) [.arg 0, .int 32 7])], .ret none⟩]) },
    { name := "undefined", params := [], ret := .void
      body := some (Body.ofListing [⟨"entry",
        [(none, .void, .call (.direct ⟨0⟩) [.undef (some 32), .int 32 7])], .ret none⟩]) }]

def withCallSites : Settings := { interprocedural := true }

theorem callSites_agree_iff_known :
    ∃ g s' n site caller before callee g' t' decl entry,
      Yields (functionGraph pairCalls ⟨1⟩ .silent withCallSites) {} g s' ∧
      g.nodes.get? g.entry = some n ∧ .call site ∈ n.stmts ∧
      Yields (functionGraph pairCalls ⟨0⟩ .silent withCallSites) {} g' t' ∧
      g'.decl = some decl ∧ g'.nodes.get? g'.entry = some entry ∧
      Scope.Agree caller s'.supply before [.arg 0, .int 32 7] site.args callee t'.supply
        entry.stmts decl.params := by
  have hrun : ∃ g s' n site,
      Yields (functionGraph pairCalls ⟨1⟩ .silent withCallSites) {} g s' ∧
      g.nodes.get? g.entry = some n ∧ .call site ∈ n.stmts :=
    ⟨_, _, _, _, rfl, rfl, .tail _ (.head _)⟩
  have hcallee : ∃ g' t', Yields (functionGraph pairCalls ⟨0⟩ .silent withCallSites) {} g' t' :=
    ⟨_, _, rfl⟩
  obtain ⟨g, s', n, site, hg, hn, hsite⟩ := hrun
  obtain ⟨g', t', hg'⟩ := hcallee
  obtain ⟨caller, hcaller, hsites, hagree⟩ := callSites_agree_iff rfl hg
  obtain rfl := Except.ok.inj hcaller
  obtain ⟨id, hid, block, hblock, i, hi, before, -, hcalls⟩ := hsites _ n site hn hsite
  obtain rfl : id = ⟨0⟩ := List.mem_singleton.1 hid
  obtain rfl := Option.some.inj hblock
  obtain rfl : i = ⟨0⟩ := List.mem_singleton.1 hi
  obtain ⟨inst, calleeId, args, hinst, hkind, hfits⟩ := hagree ⟨0⟩ before site hcalls
  obtain rfl := Option.some.inj hinst
  cases hkind
  obtain ⟨decl, entry, hdecl, hentry, hiff⟩ :=
    hfits _ {} t' g' rfl rfl (.cons rfl (.cons rfl .nil)) rfl hg'
  refine ⟨g, s', n, site, _, before, _, g', t', decl, entry, hg, hn, hsite, hg', hdecl, hentry,
    hiff.2 fun j a p ha hp _ => ?_⟩
  match j with
  | 0 =>
      obtain rfl := Option.some.inj ha
      obtain rfl := Option.some.inj hp
      decide
  | 1 =>
      obtain rfl := Option.some.inj ha
      obtain rfl := Option.some.inj hp
      decide
  | j + 2 => cases ha

/-- An undefined argument is dropped, and its parameter is not. -/
theorem callSite_length_ne_undefined :
    ∃ pair s undefined s' decl n site,
      Yields (functionGraph pairCalls ⟨0⟩ .silent withCallSites) {} pair s ∧
      Yields (functionGraph pairCalls ⟨2⟩ .silent withCallSites) s undefined s' ∧
      pair.decl = some decl ∧ undefined.nodes.get? undefined.entry = some n ∧
      .call site ∈ n.stmts ∧ site.args.length ≠ decl.params.length :=
  ⟨_, _, _, _, _, _, _, rfl, rfl, rfl, rfl, .tail _ (.head _), by decide⟩

end AffineFlow
