import AffineFlow.Proofs.Memory.Overwriting

/-!
# Stale cells

Whether a load after a call can still read what its cell held before the call.
The call overwrites the contents of a cell just if it writes the array and the
contents are there, or if it forgets the object that has them.
-/
namespace AffineFlow

open Ssa Lowering

/-- In a graph with memory, every load reads one cell where it has its contents, if it reads at all,
and a direct call that is not written as a call site overwrites the contents of just two sorts of
cells: those that are written and have no object of their own, and those whose object is
forgotten. -/
theorem functionGraph_overwrites_iff {program : Module} {id : FuncId} {oracle : Oracle}
    {settings : Settings} {s s' : Session} {g : FlowGraph} (hmemory : oracle.modelsMemory = true)
    (h : Yields (functionGraph program id oracle settings) s g s') :
    ∃ sc, Scope.ofFunction program id oracle settings = .ok sc ∧
      ∀ b ∈ sc.body.order, ∀ block, sc.body.block? b = some block → ∀ i ∈ block.insts,
        ∃ inst code, sc.body.inst? i = some inst ∧ sc.Emits s'.supply i code ∧
          (settings.simplify = false → sc.body.order.Nodup →
            ∃ k n, g.nodes.get? k = some n ∧ code <:+: n.stmts) ∧
          (∀ ptr, inst.kind = .load ptr →
            (∃ c dst x stmt, sc.cellAt? ptr = some c ∧ sc.Home s'.supply c x ∧ code = [stmt] ∧
              Scope.ReadsAt dst x stmt) ∨ ∀ stmt ∈ code, ∃ x, stmt = .havoc x) ∧
          ∀ calleeId args, inst.kind = .call (.direct calleeId) args →
            sc.isCallSite calleeId = false → ∀ c, sc.Overwrites s'.supply code c ↔
              (∃ o, sc.HeldBy c o ∧ settings.explicitHavoc = true ∧
                sc.forgottenBy? i calleeId args = some o) ∨
              (∀ o, ¬sc.HeldBy c o) ∧ c ∈ sc.filledBy i calleeId args := by
  obtain ⟨sc, hscope, hinsts⟩ := functionGraph_emits h
  obtain ⟨func, body, -, -, rfl⟩ := Scope.ofFunction_spec hscope
  refine ⟨_, hscope, fun b hb block hblock i hi => ?_⟩
  obtain ⟨inst, code, u, u', hinst, hcode, hgrown, hplaced⟩ := hinsts b hb block hblock i hi
  refine ⟨inst, code, hinst, ⟨u, u', hcode, hgrown⟩, hplaced, fun ptr hkind => ?_, ?_⟩
  · simp only [Scope.instCode, hinst, hkind] at hcode
    exact Scope.loadCode_spec hcode hgrown
  · intro calleeId args hkind hsite c
    have hwrites := Scope.instCode_writesTo (by exact hmemory) hinst hkind hsite hcode hgrown
    exact hwrites.overwrites_iff

/-- A function that stores to a global, makes a call that nothing is known about, and loads from the
global. -/
def storeCallLoad : Module where
  funcs := #[
    { name := "ext", params := [], ret := .void },
    { name := "f", params := [], ret := .void
      body := some (Body.ofListing [⟨"entry",
        [(none, .void, .store (.int 32 7) (.global ⟨0⟩)),
          (none, .void, .call (.direct ⟨0⟩) []),
          (some "x", .int 32, .load (.global ⟨0⟩))], .ret none⟩]) }]
  globals := #[⟨"g", .int 32, none⟩]

/-- The global is alone in a cell, and the call modifies that cell and another one. -/
def globalModified : Oracle :=
  Tables.toOracle
    { tracking := .memory
      cells := [((⟨1⟩, .global ⟨0⟩), ⟨0⟩)]
      singletons := [(⟨0⟩, .global ⟨0⟩)]
      calls := [((⟨1⟩, ⟨1⟩), { modified := [⟨0⟩, ⟨1⟩] })] }

/-- Of the two cells, the call only overwrites the one that has no object. -/
theorem functionGraph_overwrites_storeCallLoad :
    ∃ g s' sc code, globalModified.modelsMemory = true ∧
      Yields (functionGraph storeCallLoad ⟨1⟩ globalModified {}) {} g s' ∧
      Scope.ofFunction storeCallLoad ⟨1⟩ globalModified {} = .ok sc ∧
      sc.Emits s'.supply ⟨1⟩ code ∧ sc.Overwrites s'.supply code ⟨1⟩ ∧
      ¬sc.Overwrites s'.supply code ⟨0⟩ := by
  have hrun : ∃ g s', Yields (functionGraph storeCallLoad ⟨1⟩ globalModified {}) {} g s' :=
    ⟨_, _, rfl⟩
  obtain ⟨g, s', hg⟩ := hrun
  obtain ⟨sc, hscope, hinsts⟩ := functionGraph_overwrites_iff rfl hg
  obtain rfl := Except.ok.inj hscope
  obtain ⟨inst, code, hinst, hemits, -, -, hcalls⟩ :=
    hinsts ⟨0⟩ (.head _) _ rfl ⟨1⟩ (.tail _ (.head _))
  obtain rfl := Option.some.inj hinst
  have hiff := hcalls ⟨0⟩ [] rfl rfl
  refine ⟨g, s', _, code, rfl, hg, hscope, hemits, (hiff ⟨1⟩).2 (.inr ⟨?_, ?_⟩), fun h => ?_⟩
  · intro o ho
    cases ho.singleton
  · exact .tail _ (.head _)
  · rcases (hiff ⟨0⟩).1 h with ⟨o, ho, -, hforgotten⟩ | ⟨hnone, -⟩
    · obtain rfl := Option.some.inj ho.singleton
      cases hforgotten
    · exact hnone (.global ⟨0⟩) ⟨rfl, rfl, rfl⟩

/-- The load after the call reads the number that was stored before, although the call modifies the
cell. -/
theorem staleLoad_storeCallLoad :
    ∃ sc g s' n x y middle, Scope.ofFunction storeCallLoad ⟨1⟩ globalModified {} = .ok sc ∧
      Yields (functionGraph storeCallLoad ⟨1⟩ globalModified {}) {} g s' ∧
      ⟨0⟩ ∈ (globalModified.callEffects ⟨1⟩ ⟨1⟩).modified ∧ sc.Home s'.supply ⟨0⟩ x ∧
      (∀ code, sc.Emits s'.supply ⟨1⟩ code → ¬sc.Overwrites s'.supply code ⟨0⟩) ∧
      g.nodes.get? g.entry = some n ∧
      n.stmts = .assign x (.const 7) :: middle ++ [.assign y (.ofVar x)] ∧
      ∀ stmt ∈ middle, stmt.target? ≠ some x := by
  refine ⟨_, _, _, _, ⟨0⟩, ⟨3⟩, [.havoc ⟨1⟩, .havoc ⟨2⟩], rfl, rfl, .head _,
    .object (o := .global ⟨0⟩) ⟨rfl, rfl, rfl⟩ ⟨_, rfl, rfl⟩, ?_, rfl, rfl, ?_⟩
  · rintro code ⟨u, u', hcode, hgrown⟩ h
    have hwrites := Scope.instCode_writesTo rfl rfl rfl rfl hcode hgrown
    rcases hwrites.overwrites_iff.1 h with ⟨o, ho, -, hforgotten⟩ | ⟨hnone, -⟩
    · obtain rfl := Option.some.inj ho.singleton
      cases hforgotten
    · exact hnone (.global ⟨0⟩) ⟨rfl, rfl, rfl⟩
  · decide

end AffineFlow
