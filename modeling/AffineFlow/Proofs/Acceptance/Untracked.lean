import AffineFlow.Proofs.Acceptance.Function

/-!
# Asking for a variable that does not exist

Only tracked values that are not literals have variables. In a well-formed
function there is just one way to ask for another one: a load that is lowered to
a read of a cell, and whose result is hidden by its name.
-/
namespace AffineFlow

open Ssa Lowering

theorem functionGraph_eq {program : Module} {id : FuncId} {oracle : Oracle} {settings : Settings}
    {sc : Scope} (h : Scope.ofFunction program id oracle settings = .ok sc) :
    functionGraph program id oracle settings = sc.graph := by
  rw [functionGraph, h]

namespace Scope

variable {sc : Scope} {i : InstId} {b : BlockId} {f : Fault}

/-- The instruction is a load that is lowered to a read of a cell, although its result is hidden. -/
def HiddenLoad (sc : Scope) (i : InstId) : Prop :=
  ∃ inst ptr, sc.body.inst? i = some inst ∧ inst.kind = .load ptr ∧
    sc.hidesLoad i inst.ty ptr = true

theorem rejected_ne_faulted {reason? : Option Rejection} :
    reason?.map Failure.rejected ≠ some (.faulted f) := by
  cases reason? <;> simp

theorem instDefect?_eq_faulted_iff :
    sc.instDefect? i = some (.faulted f) ↔ sc.HiddenLoad i ∧ f = .untracked (.inst i) := by
  constructor
  · intro h
    unfold instDefect? at h
    split at h
    next => cases h
    next inst hinst =>
      split at h
      next =>
        split at h
        · exact absurd h rejected_ne_faulted
        · cases h
      next ptr hkind =>
        split at h
        next hhides => exact ⟨⟨inst, ptr, hinst, hkind, hhides⟩, by cases h; rfl⟩
        next => cases h
      next => cases h
  · rintro ⟨⟨inst, ptr, hinst, hkind, hhides⟩, rfl⟩
    simp [instDefect?, hinst, hkind, hhides]

theorem edgeDefect?_ne_faulted {block : Block} {succ : BlockId} :
    sc.edgeDefect? b block succ ≠ some (.faulted f) := by
  unfold edgeDefect?
  split
  · exact rejected_ne_faulted
  · nofun

theorem blockDefect?_eq_faulted_iff : sc.blockDefect? b = some (.faulted f) ↔
    ∃ block before after, sc.body.block? b = some block ∧
      ∃ i, block.insts = before ++ i :: after ∧ (∀ j ∈ before, sc.instDefect? j = none) ∧
        sc.HiddenLoad i ∧ f = .untracked (.inst i) := by
  unfold blockDefect?
  cases hblock : sc.body.block? b with
  | none => simp
  | some block =>
      have hedges : block.term.successors.findSome? (sc.edgeDefect? b block) ≠
          some (.faulted f) := by
        intro h
        obtain ⟨before, succ, after, -, hdefect, -⟩ := List.findSome?_eq_some_iff.1 h
        exact edgeDefect?_ne_faulted hdefect
      have hinsts : ((block.insts.findSome? sc.instDefect?).or
          (block.term.successors.findSome? (sc.edgeDefect? b block)) = some (.faulted f)) ↔
          block.insts.findSome? sc.instDefect? = some (.faulted f) := by
        cases block.insts.findSome? sc.instDefect? with
        | none => simpa using hedges
        | some failure => rfl
      refine hinsts.trans (List.findSome?_eq_some_iff.trans ?_)
      constructor
      · intro h
        obtain ⟨before, i, after, he, hdefect, hbefore⟩ := h
        obtain ⟨hload, hf⟩ := instDefect?_eq_faulted_iff.1 hdefect
        exact ⟨block, before, after, rfl, i, he, hbefore, hload, hf⟩
      · rintro ⟨_, before, after, ⟨⟩, i, he, hbefore, hload, hf⟩
        exact ⟨before, i, after, he, instDefect?_eq_faulted_iff.2 ⟨hload, hf⟩, hbefore⟩

end Scope

/-- The lowering of a well-formed function faults just if it comes to a hidden load before anything
that it rejects, and then it asks for the variable of that load. -/
theorem functionGraph_faults_iff {program : Module} {id : FuncId} {oracle : Oracle}
    {settings : Settings}
    (hw : ∀ sc, Scope.ofFunction program id oracle settings = .ok sc → sc.WellFormed)
    (s : Session) (f : Fault) :
    (∃ s', functionGraph program id oracle settings s = .error (.faulted f) s') ↔
      ∃ sc done b todo, Scope.ofFunction program id oracle settings = .ok sc ∧
        sc.body.order = done ++ b :: todo ∧ (∀ a ∈ done, sc.blockDefect? a = none) ∧
        ∃ block before after, sc.body.block? b = some block ∧
          ∃ i, block.insts = before ++ i :: after ∧ (∀ j ∈ before, sc.instDefect? j = none) ∧
            sc.HiddenLoad i ∧ f = .untracked (.inst i) := by
  cases hscope : Scope.ofFunction program id oracle settings with
  | error reason =>
      have hrejects : functionGraph program id oracle settings s = .error (.rejected reason) s := by
        rw [functionGraph, hscope]
        rfl
      rw [hrejects]
      constructor
      · rintro ⟨s', ⟨⟩⟩
      · rintro ⟨sc, done, b, todo, ⟨⟩, -⟩
  | ok sc =>
      rw [functionGraph_eq hscope, (hw sc hscope).graph_settles.error_iff, Scope.defect?,
        List.findSome?_eq_some_iff]
      constructor
      · intro h
        obtain ⟨done, b, todo, horder, hdefect, hdone⟩ := h
        exact ⟨sc, done, b, todo, rfl, horder, hdone, Scope.blockDefect?_eq_faulted_iff.1 hdefect⟩
      · rintro ⟨_, done, b, todo, ⟨⟩, horder, hdone, hload⟩
        exact ⟨done, b, todo, horder, Scope.blockDefect?_eq_faulted_iff.2 hload, hdone⟩

/-- A function that loads into a result with a hidden name. -/
def shadowedLoad : Module where
  funcs := #[
    { name := "f", params := [⟨"p", .ptr⟩], ret := .void
      body := some (Body.ofListing [⟨"entry",
        [(some "shadow.mem.x", .int 32, .load (.arg 0))], .ret none⟩]) }]

/-- The argument of the function points into a cell. -/
def argumentInCell : Oracle :=
  Tables.toOracle { tracking := .memory, cells := [((⟨0⟩, .arg 0), ⟨0⟩)] }

theorem shadowedLoad_wellFormed (sc : Scope)
    (h : Scope.ofFunction shadowedLoad ⟨0⟩ argumentInCell {} = .ok sc) : sc.WellFormed := by
  obtain rfl := Except.ok.inj h
  exact
    { body_eq := rfl
      order_ne_nil := by decide
      order_nodup := by decide
      blocks := by decide
      operands_live := by decide
      objects_live := nofun
      pointers_wide := by decide }

theorem functionGraph_faults_shadowedLoad :
    (∀ sc, Scope.ofFunction shadowedLoad ⟨0⟩ argumentInCell {} = .ok sc → sc.WellFormed) ∧
      ∃ s', functionGraph shadowedLoad ⟨0⟩ argumentInCell {} {} =
        .error (.faulted (.untracked (.inst ⟨0⟩))) s' := by
  refine ⟨shadowedLoad_wellFormed, ?_⟩
  rw [functionGraph_faults_iff shadowedLoad_wellFormed]
  refine ⟨_, [], ⟨0⟩, [], rfl, rfl, nofun, _, [], [], rfl, ⟨0⟩, rfl, nofun, ?_, rfl⟩
  exact ⟨_, .arg 0, rfl, rfl, by decide⟩

/-- The function is well-formed, and its lowering asks for the variable of a value that is not
tracked. -/
theorem untracked_shadowedLoad :
    ∃ sc s', Scope.ofFunction shadowedLoad ⟨0⟩ argumentInCell {} = .ok sc ∧ sc.WellFormed ∧
      sc.tracks (.inst ⟨0⟩) = .ok false ∧
      functionGraph shadowedLoad ⟨0⟩ argumentInCell {} {} =
        .error (.faulted (.untracked (.inst ⟨0⟩))) s' :=
  ⟨_, _, rfl, shadowedLoad_wellFormed _ rfl, rfl, rfl⟩

end AffineFlow
