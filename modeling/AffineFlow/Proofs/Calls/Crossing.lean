import AffineFlow.Proofs.Calls.Arrays
import AffineFlow.Proofs.Memory.Home

/-!
# Cells that cross calls

A call site hands over the arrays of the touched cells, and the callee takes
over the arrays. A cell that stands for a single tracked object has its contents
in the variable of the object, and this variable is neither copied nor given up
nor set. So the contents of a cell cross the call just if neither the caller nor
the callee has them in an object. The array of the cell crosses in any case, but
where an object holds the cell, no load reads the array.
-/
namespace AffineFlow

open Ssa Lowering

namespace Scope

/-- The code leaves in the copy what the contents of the cell were. -/
def HandsOver (sc : Scope) (F : VarSupply) (before : List Stmt) (c : Cell) (copy : Var) : Prop :=
  ∃ x, sc.Home F c x ∧ ∀ μ ν, StoreRunAll before μ ν → ν copy = μ x

/-- The code leaves the contents of the cell open. -/
def GivesUp (sc : Scope) (F : VarSupply) (before : List Stmt) (c : Cell) : Prop :=
  ∃ x, sc.Home F c x ∧ ∀ μ d, ∃ ν, StoreRunAll before μ ν ∧ ν x = d

/-- The code makes what the copy holds the contents of the cell. -/
def TakesOver (sc : Scope) (G : VarSupply) (entry : List Stmt) (c : Cell) (copy : Var) : Prop :=
  ∃ y, sc.Home G c y ∧ ∀ ρ τ, StoreRunAll entry ρ τ → τ y = ρ copy

/-- The contents of the cell are in the callee what they were in the caller, whenever the formals
for the copies are bound to the actuals. -/
def Crosses (caller : Scope) (F : VarSupply) (before : List Stmt) (p : Passage) (callee : Scope)
    (G : VarSupply) (entry : List Stmt) (q : Passage) (c : Cell) : Prop :=
  ∃ x y, caller.Home F c x ∧ callee.Home G c y ∧ ∀ μ ν ρ τ, StoreRunAll before μ ν →
    Bound ν ρ p.copies q.copies → StoreRunAll entry ρ τ → τ y = μ x

end Scope

/-- The store in which one variable holds a number, and every other one the zeros. -/
def numberAt (x : Var) : Store := Function.update (fun _ => .zeros) x (.number 0)

section Contents

variable {sc caller callee : Scope} {F G : VarSupply} {size size' : Nat} {effects : Effects}
  {args : List Value} {before entry : List Stmt} {p q : Passage} {c : Cell} {o : Value}
  {v w : TypedVar} {x y : Var} {j : Nat} {μ ν ρ τ : Store}

theorem numberAt_self (x : Var) : numberAt x x = .number 0 := Function.update_self ..

theorem numberAt_of_ne (h : y ≠ x) : numberAt x y = .zeros := Function.update_of_ne h ..

theorem eq_of_numberAt (h : numberAt x y = numberAt x x) : y = x := by
  by_contra hne
  rw [numberAt_of_ne hne, numberAt_self] at h
  cases h

namespace Scope.PassesArrays

variable (hp : sc.PassesArrays F size effects args before p)
include hp

/-- The object of a cell is as it was before. -/
theorem object_kept (hx : sc.Denotes F o x) (hrun : StoreRunAll before μ ν) : ν x = μ x := by
  refine hp.kept μ ν hrun x (fun hm => ?_) (fun c _ hc => hx.ne_cell hc rfl)
    fun htemporary => hx.ne_spare htemporary.1 rfl
  obtain ⟨v, hv, he⟩ := List.mem_map.1 hm
  exact hx.ne_spare (hp.fresh v hv).2.1 he.symm

theorem copy_eq (hj : effects.touched[j]? = some c) (hv : p.copies[j]? = some v)
    (hx : F.find? (.cell c) = some x) (hrun : StoreRunAll before μ ν) : ν v.1 = μ x := by
  obtain ⟨v', hv', hcopied⟩ := exists_of_forall₂ (hp.copied μ ν hrun) hj
  obtain rfl := Option.some.inj (hv.symm.trans hv')
  rw [array?_eq hx] at hcopied
  exact (Option.some.inj hcopied).symm

/-- The contents of a cell are handed over just if no object has them. -/
theorem handsOver_iff (hj : effects.touched[j]? = some c) (hv : p.copies[j]? = some v) :
    sc.HandsOver F before c v.1 ↔ ∀ o, ¬sc.HeldBy c o := by
  obtain ⟨array, harray⟩ := hp.exists_array (List.mem_of_getElem? hj)
  constructor
  · intro hover o hheld
    obtain ⟨x, hhome, hcopied⟩ := hover
    obtain ⟨ν, hrun, -⟩ := hp.free (numberAt x) (numberAt x)
    have he : numberAt x array = numberAt x x :=
      (hp.copy_eq hj hv harray hrun).symm.trans (hcopied _ ν hrun)
    exact (hhome.denotes hheld).ne_cell harray (eq_of_numberAt he).symm
  · intro hnone
    exact ⟨array, .array hnone harray, fun μ ν hrun => hp.copy_eq hj hv harray hrun⟩

/-- The contents of a cell are left open just if no object has them. -/
theorem givesUp_iff (hc : c ∈ effects.touched) :
    sc.GivesUp F before c ↔ ∀ o, ¬sc.HeldBy c o := by
  obtain ⟨array, harray⟩ := hp.exists_array hc
  constructor
  · intro hopen o hheld
    obtain ⟨x, hhome, hfree⟩ := hopen
    obtain ⟨ν, hrun, hν⟩ := hfree (numberAt x) .zeros
    rw [hp.object_kept (hhome.denotes hheld) hrun, numberAt_self] at hν
    cases hν
  · intro hnone
    refine ⟨array, .array hnone harray, fun μ d => ?_⟩
    obtain ⟨ν, hrun, hfree⟩ := hp.free μ fun _ => d
    have hν := hfree c hc
    rw [array?_eq harray, array?_eq harray] at hν
    exact ⟨ν, hrun, Option.some.inj hν⟩

end Scope.PassesArrays

namespace ReceivesArrays

variable (hq : ReceivesArrays G size' effects entry q)
include hq

theorem object_kept (hy : callee.Denotes G o y) (hrun : StoreRunAll entry ρ τ) : τ y = ρ y :=
  hq.kept ρ τ hrun y fun _ _ hc => hy.ne_cell hc rfl

theorem array_eq (hj : effects.touched[j]? = some c) (hw : q.copies[j]? = some w)
    (hy : G.find? (.cell c) = some y) (hrun : StoreRunAll entry ρ τ) : τ y = ρ w.1 := by
  obtain ⟨w', hw', hreceived⟩ := exists_of_forall₂ (hq.received ρ τ hrun) hj
  obtain rfl := Option.some.inj (hw.symm.trans hw')
  rw [array?_eq hy] at hreceived
  exact Option.some.inj hreceived

theorem new_zeros (hρ : ∀ c y, G.find? (.cell c) = some y → ρ y = .zeros) :
    ∀ c ∈ effects.new, G.array? ρ c = some .zeros := by
  intro c hc
  obtain ⟨w, -, -, hw⟩ := exists_mem_of_forall₂ hq.cells (List.mem_append_right _ hc)
  rw [array?_eq hw, hρ c w.1 hw]

/-- The callee can start where the object of a cell is a number and everything else zeros. -/
theorem new_zeros_of_denotes (hy : callee.Denotes G o y) :
    ∀ c ∈ effects.new, G.array? (numberAt y) c = some .zeros :=
  hq.new_zeros fun _ _ hz => numberAt_of_ne (hy.ne_cell hz).symm

/-- The contents of a cell are taken over just if no object has them. -/
theorem takesOver_iff (hj : effects.touched[j]? = some c) (hw : q.copies[j]? = some w) :
    callee.TakesOver G entry c w.1 ↔ ∀ o, ¬callee.HeldBy c o := by
  obtain ⟨array, harray⟩ := hq.exists_array (List.mem_of_getElem? hj)
  constructor
  · intro hover o hheld
    obtain ⟨y, hhome, htaken⟩ := hover
    have hy := hhome.denotes hheld
    obtain ⟨τ, hrun⟩ := hq.runs (numberAt y) (hq.new_zeros_of_denotes hy)
    have he : numberAt y w.1 = numberAt y y :=
      (htaken _ τ hrun).symm.trans (hq.object_kept hy hrun)
    exact hy.ne_spare (hq.fresh w (List.mem_of_getElem? hw)).2.1 (eq_of_numberAt he).symm
  · intro hnone
    exact ⟨array, .array hnone harray, fun ρ τ hrun => hq.array_eq hj hw harray hrun⟩

end ReceivesArrays

/-- The contents of a cell cross just if neither the caller nor the callee has them in an object. -/
theorem Scope.PassesArrays.crosses_iff (hp : caller.PassesArrays F size effects args before p)
    (hq : ReceivesArrays G size' effects entry q) (hj : effects.touched[j]? = some c)
    (hv : p.copies[j]? = some v) (hw : q.copies[j]? = some w) :
    caller.Crosses F before p callee G entry q c ↔
      (∀ o, ¬caller.HeldBy c o) ∧ ∀ o, ¬callee.HeldBy c o := by
  constructor
  · intro hcrosses
    obtain ⟨x, y, hx, hy, hcross⟩ := hcrosses
    -- what an object of the callee is at first has nothing to do with the caller
    have hcallee : ∀ o, ¬callee.HeldBy c o := by
      intro o hheld
      have hobject := hy.denotes hheld
      have ⟨r, _, hfind⟩ := hobject
      obtain ⟨ν, τ, hbefore, hentry⟩ := hp.exists_crossing hq (fun _ => .zeros) (numberAt y)
        (hq.new_zeros_of_denotes hobject)
      have he : τ y = .zeros := hcross _ ν _ τ hbefore (bound_bindFormals hq.nodup) hentry
      rw [hq.object_kept hobject hentry, bindFormals_of_find? hq.toOfEffects hfind,
        numberAt_self] at he
      cases he
    refine ⟨fun o hheld => ?_, hcallee⟩
    -- the copy has the array, and not what the object of the caller is
    obtain ⟨array, harray⟩ := hp.exists_array (List.mem_of_getElem? hj)
    obtain ⟨y', hy', htaken⟩ := (hq.takesOver_iff hj hw).2 hcallee
    obtain rfl := hy.unique hy'
    obtain ⟨ν, τ, hbefore, hentry⟩ := hp.exists_crossing hq (numberAt x) (fun _ => .zeros)
      (hq.new_zeros fun _ _ _ => rfl)
    have hbound : Bound ν (bindFormals ν p.copies q.copies fun _ => .zeros) p.copies q.copies :=
      bound_bindFormals hq.nodup
    have he : numberAt x array = numberAt x x := by
      rw [← hcross _ ν _ τ hbefore hbound hentry, htaken _ τ hentry, hbound j v w hv hw,
        hp.copy_eq hj hv harray hbefore]
    exact (hx.denotes hheld).ne_cell harray (eq_of_numberAt he).symm
  · intro hnone
    obtain ⟨x, hx, hcopied⟩ := (hp.handsOver_iff hj hv).2 hnone.1
    obtain ⟨y, hy, htaken⟩ := (hq.takesOver_iff hj hw).2 hnone.2
    refine ⟨x, y, hx, hy, fun μ ν ρ τ hbefore hbound hentry => ?_⟩
    rw [htaken ρ τ hentry, hbound j v w hv hw, hcopied μ ν hbefore]

end Contents

/-- In the interprocedural setting with memory, the call sites of a graph are those of the
laid-out calls. Where the oracle reports the same cells for a call and its callee, none of them
read twice or both touched and allocated, the arrays of the touched cells cross the call intact,
once each formal for a copy is bound to the actual at the same place. The contents of a touched
cell cross with its array just if no object has them, neither in the caller nor in the callee: an
object of the caller is neither copied nor given up, and one of the callee is not set. -/
theorem functionGraph_cells_cross_iff {program : Module} {callerId : FuncId} {oracle : Oracle}
    {settings : Settings} {s s' : Session} {g : FlowGraph}
    (hinter : settings.interprocedural = true) (hmemory : oracle.modelsMemory = true)
    (h : Yields (functionGraph program callerId oracle settings) s g s') :
    ∃ caller, Scope.ofFunction program callerId oracle settings = .ok caller ∧
      (∀ k n site, g.nodes.get? k = some n → .call site ∈ n.stmts →
        ∃ id ∈ caller.body.order, ∃ block, caller.body.block? id = some block ∧
          ∃ i ∈ block.insts, ∃ before, before ++ [.call site] <:+: n.stmts ∧
            caller.Calls s'.supply i before site) ∧
      ∀ i before site u u', Yields (caller.instCode i) u (before ++ [.call site]) u' →
        u'.supply.Extends s'.supply →
        ∃ inst calleeId args, caller.body.inst? i = some inst ∧
          inst.kind = .call (.direct calleeId) args ∧
          ∀ callee effects t t' g', Scope.ofFunction program calleeId oracle settings = .ok callee →
            callee.isProgramEntry = false → oracle.callEffects callerId i = effects →
            oracle.funcEffects calleeId = effects → effects.read.Nodup →
            (∀ c ∈ effects.new, c ∉ effects.touched) →
            Yields (functionGraph program calleeId oracle settings) t g' t' →
            ∃ decl entry p q t₁ t₂, g'.decl = some decl ∧ g'.EntryStarts entry ∧
              Yields callee.prologue t₁ (some decl, entry) t₂ ∧
              site.args = p.all ∧ decl.params = q.all ∧
              caller.PassesArrays s'.supply u.supply.size effects args before p ∧
              ReceivesArrays t'.supply t₁.supply.size effects entry q ∧
              (∀ μ ρ, (∀ c ∈ effects.new, t'.supply.array? ρ c = some .zeros) →
                ∃ ν τ, StoreRunAll before μ ν ∧
                  StoreRunAll entry (bindFormals ν p.copies q.copies ρ) τ) ∧
              (∀ μ ν ρ τ, StoreRunAll before μ ν → Bound ν ρ p.copies q.copies →
                StoreRunAll entry ρ τ → ∀ c ∈ effects.touched,
                  ∃ d, s'.supply.array? μ c = some d ∧ t'.supply.array? τ c = some d) ∧
              ∀ (j : Nat) (c : Cell), effects.touched[j]? = some c → ∃ v w,
                p.copies[j]? = some v ∧ q.copies[j]? = some w ∧
                (caller.HandsOver s'.supply before c v.1 ↔ ∀ o, ¬caller.HeldBy c o) ∧
                (caller.GivesUp s'.supply before c ↔ ∀ o, ¬caller.HeldBy c o) ∧
                (callee.TakesOver t'.supply entry c w.1 ↔ ∀ o, ¬callee.HeldBy c o) ∧
                (caller.Crosses s'.supply before p callee t'.supply entry q c ↔
                  (∀ o, ¬caller.HeldBy c o) ∧ ∀ o, ¬callee.HeldBy c o) := by
  obtain ⟨caller, hcaller, hgraph⟩ := functionGraph_scope h
  obtain ⟨func, body, -, -, rfl⟩ := Scope.ofFunction_spec hcaller
  refine ⟨_, hcaller, fun k n site hn hsite => Scope.calls_of_mem hgraph hn hsite, ?_⟩
  intro i before site u u' hcode hgrown
  obtain ⟨inst, calleeId, args, hinst, hkind, hcall⟩ :=
    Scope.instCode_spec_of_call hcode (List.mem_append_right _ List.mem_cons_self)
  refine ⟨inst, calleeId, args, hinst, hkind, ?_⟩
  intro callee effects t t' g' hcallee hentry hcallEffects hfuncEffects hn hnew hg'
  obtain ⟨before', site', p, he, hargs, hp⟩ :=
    Scope.callSiteCode_passesArrays hcall hgrown hmemory (hcallEffects ▸ hn)
  obtain ⟨rfl, hlast⟩ := List.append_inj' he rfl
  obtain rfl : site = site' := Stmt.call.inj (List.singleton_inj.1 hlast)
  obtain ⟨callee', hcallee', hgraph'⟩ := functionGraph_scope hg'
  obtain rfl : callee' = callee := Except.ok.inj (hcallee'.symm.trans hcallee)
  obtain ⟨func', body', -, -, rfl⟩ := Scope.ofFunction_spec hcallee'
  obtain ⟨codes, entry, t₀, t₁, t₂, -, -, hprologue, hsupply, -, hstarts⟩ :=
    Scope.graph_composed hgraph'
  obtain ⟨decl, q, hdecl, hparams, hq⟩ := Scope.prologue_receivesArrays hprologue (.refl _)
    hinter hmemory hentry (hfuncEffects ▸ hn) (hfuncEffects ▸ hnew)
  rw [← hsupply] at hq
  rw [hdecl] at hprologue
  subst hcallEffects
  rw [hfuncEffects] at hq
  refine ⟨decl, entry, p, q, t₁, t₂, hdecl, hstarts, hprologue, hargs, hparams, hp, hq,
    hp.exists_crossing hq, ?_, ?_⟩
  · intro μ ν ρ τ hbefore hbound hentry c hc
    exact hp.arrays_cross hq hbefore hbound hentry hc
  · intro j c hj
    obtain ⟨v, hv⟩ := hp.exists_copy hj
    obtain ⟨w, hw⟩ := hq.exists_copy hj
    exact ⟨v, w, hv, hw, hp.handsOver_iff hj hv, hp.givesUp_iff (List.mem_of_getElem? hj),
      hq.takesOver_iff hj hw, hp.crosses_iff hq hj hv hw⟩

/-- A function that is passed a number, and one that stores to a global, calls the first one, and
loads from the global. -/
def storePassLoad : Module where
  funcs := #[
    { name := "h", params := [⟨"n", .int 32⟩], ret := .void
      body := some (Body.ofListing [⟨"entry", [], .ret none⟩]) },
    { name := "f", params := [], ret := .void
      body := some (Body.ofListing [⟨"entry",
        [(none, .void, .store (.int 32 7) (.global ⟨0⟩)),
          (none, .void, .call (.direct ⟨0⟩) [.int 32 5]),
          (some "x", .int 32, .load (.global ⟨0⟩))], .ret none⟩]) }]
  globals := #[⟨"g", .int 32, none⟩]

/-- One cell is read and modified, another one only modified, and a third one allocated. -/
def overlapping : Effects := { read := [⟨0⟩], modified := [⟨0⟩, ⟨1⟩], new := [⟨2⟩] }

/-- The global is alone in the first of the touched cells. -/
def globalPassed : Oracle :=
  Tables.toOracle
    { tracking := .memory
      cells := [((⟨1⟩, .global ⟨0⟩), ⟨0⟩)]
      singletons := [(⟨0⟩, .global ⟨0⟩)]
      calls := [((⟨1⟩, ⟨1⟩), overlapping)]
      funcs := [(⟨0⟩, overlapping)] }

/-- What the call is compiled to: the literal is set, and the arrays of the two cells are copied. -/
def passing : List Stmt :=
  [.assign ⟨1⟩ (.const 5), .assign ⟨3⟩ (.ofVar ⟨2⟩), .havoc ⟨2⟩, .assign ⟨5⟩ (.ofVar ⟨4⟩),
    .havoc ⟨4⟩]

def passed : CallSite :=
  ⟨none, ⟨7⟩, [(⟨1⟩, .int), (⟨3⟩, .arr), (⟨5⟩, .arr), (⟨2⟩, .arr), (⟨4⟩, .arr), (⟨6⟩, .arr)]⟩

theorem storePassLoad_yields : ∃ g s',
    Yields (functionGraph storePassLoad ⟨1⟩ globalPassed withCallSites) {} g s' ∧
    (g.nodes.get? g.entry).map (·.stmts) =
      some (.assign ⟨0⟩ (.const 7) :: passing ++ [.call passed, .assign ⟨8⟩ (.ofVar ⟨0⟩)]) ∧
    s'.supply.find? (.global ⟨0⟩) = some ⟨0⟩ :=
  exists_of_check (by decide +kernel)

/-- Of the two touched cells, only the one that has no object crosses. -/
theorem functionGraph_cells_cross_storePassLoad :
    ∃ caller callee g s' g' t' n before site entry p q, globalPassed.modelsMemory = true ∧
      Scope.ofFunction storePassLoad ⟨1⟩ globalPassed withCallSites = .ok caller ∧
      Scope.ofFunction storePassLoad ⟨0⟩ globalPassed withCallSites = .ok callee ∧
      Yields (functionGraph storePassLoad ⟨1⟩ globalPassed withCallSites) {} g s' ∧
      Yields (functionGraph storePassLoad ⟨0⟩ globalPassed withCallSites) {} g' t' ∧
      g.nodes.get? g.entry = some n ∧ before ++ [.call site] <:+: n.stmts ∧
      g'.EntryStarts entry ∧
      caller.Crosses s'.supply before p callee t'.supply entry q ⟨1⟩ ∧
      ¬caller.Crosses s'.supply before p callee t'.supply entry q ⟨0⟩ := by
  obtain ⟨g, s', hg, hstmts, -⟩ := storePassLoad_yields
  obtain ⟨n, hn, hstmts⟩ := Option.map_eq_some_iff.1 hstmts
  have hsite : .call passed ∈ n.stmts := hstmts ▸ List.mem_of_getElem? (i := 6) rfl
  have hcallee : ∃ g' t',
      Yields (functionGraph storePassLoad ⟨0⟩ globalPassed withCallSites) {} g' t' :=
    exists_of_endsWell (by decide +kernel)
  obtain ⟨g', t', hg'⟩ := hcallee
  obtain ⟨caller, hcaller, hsites, hcross⟩ := functionGraph_cells_cross_iff rfl rfl hg
  obtain rfl := Except.ok.inj hcaller
  obtain ⟨id, hid, block, hblock, i, hi, before, hinfix, u, u', hcode, hgrown⟩ :=
    hsites _ n passed hn hsite
  obtain rfl : id = ⟨0⟩ := List.mem_singleton.1 hid
  obtain rfl := Option.some.inj hblock
  obtain ⟨inst, calleeId, args, hinst, hkind, hcross⟩ := hcross i before passed u u' hcode hgrown
  -- of the three instructions, only the second one is a call
  obtain rfl : i = ⟨1⟩ := by
    have hi : i ∈ [⟨0⟩, ⟨1⟩, ⟨2⟩] := hi
    simp only [List.mem_cons, List.not_mem_nil, or_false] at hi
    obtain rfl | rfl | rfl := hi
    · obtain rfl := Option.some.inj hinst
      cases hkind
    · rfl
    · obtain rfl := Option.some.inj hinst
      cases hkind
  obtain rfl := Option.some.inj hinst
  obtain ⟨he, -⟩ := InstKind.call.inj hkind
  obtain rfl := Callee.direct.inj he
  obtain ⟨decl, entry, p, q, t₁, t₂, -, hstarts, -, -, -, -, -, -, -, hiff⟩ :=
    hcross _ overlapping {} t' g' rfl rfl rfl rfl (by decide) (by decide) hg'
  obtain ⟨_, _, -, -, -, -, -, hheld⟩ := hiff 0 ⟨0⟩ rfl
  obtain ⟨_, _, -, -, -, -, -, hfree⟩ := hiff 1 ⟨1⟩ rfl
  refine ⟨_, _, g, s', g', t', n, before, passed, entry, p, q, rfl, rfl, rfl, hg, hg', hn, hinfix,
    hstarts, hfree.2 ⟨?_, ?_⟩, fun h => ?_⟩
  · intro o ho
    cases ho.singleton
  · intro o ho
    cases ho.singleton
  · exact (hheld.1 h).1 (.global ⟨0⟩) ⟨rfl, rfl, rfl⟩

/-- No argument of the call has the number that was stored, and the load after the call reads it,
although the callee reads and modifies the cell. -/
theorem staleLoad_storePassLoad :
    ∃ caller callee g s' n x y before site,
      Scope.ofFunction storePassLoad ⟨1⟩ globalPassed withCallSites = .ok caller ∧
      Scope.ofFunction storePassLoad ⟨0⟩ globalPassed withCallSites = .ok callee ∧
      callee.isProgramEntry = false ∧
      Yields (functionGraph storePassLoad ⟨1⟩ globalPassed withCallSites) {} g s' ∧
      globalPassed.callEffects ⟨1⟩ ⟨1⟩ = overlapping ∧
      globalPassed.funcEffects ⟨0⟩ = overlapping ∧ overlapping.read.Nodup ∧
      overlapping.modified.Nodup ∧ (∀ c ∈ overlapping.new, c ∉ overlapping.touched) ∧
      ⟨0⟩ ∈ overlapping.touched ∧
      caller.Home s'.supply ⟨0⟩ x ∧ g.nodes.get? g.entry = some n ∧
      n.stmts = .assign x (.const 7) :: before ++ [.call site, .assign y (.ofVar x)] ∧
      (∀ v ∈ site.args, ∃ μ ν, StoreRunAll before μ ν ∧ ν v.1 ≠ μ x) ∧
      ∀ μ ν, StoreRunAll before μ ν → ν x = μ x := by
  obtain ⟨g, s', hg, hstmts, hglobal⟩ := storePassLoad_yields
  obtain ⟨n, hn, hstmts⟩ := Option.map_eq_some_iff.1 hstmts
  refine ⟨_, _, g, s', n, ⟨0⟩, ⟨8⟩, passing, passed, rfl, rfl, rfl, hg, rfl, rfl, by decide,
    by decide, by decide, .head _,
    .object (o := .global ⟨0⟩) ⟨rfl, rfl, rfl⟩ ⟨_, rfl, hglobal⟩, hn, hstmts, ?_, ?_⟩
  · intro v hv
    refine ⟨numberAt ⟨0⟩, _, ⟨_, .assign (AffineForm.gives_const _ 5), _, .assign (.copy rfl), _,
      .havoc .zeros, _, .assign (.copy rfl), _, .havoc .zeros, rfl⟩, ?_⟩
    simp only [passed, List.mem_cons, List.not_mem_nil, or_false] at hv
    obtain rfl | rfl | rfl | rfl | rfl | rfl := hv <;> exact fun h => nomatch h
  · intro μ ν hrun
    have hpassing : Untouched ⟨0⟩ passing := by
      unfold Untouched
      decide
    exact hrun.frame hpassing

end AffineFlow
