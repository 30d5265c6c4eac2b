import AffineFlow.Lowering.Function
import AffineFlow.Proofs.Renaming.Blocks
import AffineFlow.Proofs.Renaming.Simplification

/-!
# The supply does not matter

Whatever a supply has minted before, lowering a function from it ends the same
way: with the same failure, or with graphs that are equal up to one renaming,
which takes what stands for something to what stands for the same, and
temporaries to temporaries in minting order. So the functions of a module can be
lowered in any order, from one supply or from several.
-/
namespace AffineFlow

open Ssa Lowering

variable {s₀ t₀ : VarSupply}

namespace Lowering.Uniform

variable {α : Type} [Renamable α] {W : World s₀ t₀}

/-- What notes were made before does not matter. -/
theorem ofNoted {c d : Noted Dangling α} (h : ∀ π, W.Renames π → c.Mirrors π d) :
    Uniform W (ofNoted c) (ofNoted d) := by
  intro s t hs ht
  obtain ⟨π, hπ⟩ := W.exists_renaming
  have hcd := h π hπ s.notes t.notes
  unfold Lowering.ofNoted
  generalize hc : c s.notes = x at hcd
  generalize hd : d t.notes = y at hcd
  cases hcd with
  | ok a notes notes' =>
      refine .ok W (.refl W) hs ht fun π' hπ' => ?_
      have hcd' := h π' hπ' s.notes t.notes
      rw [hc, hd] at hcd'
      exact hcd'.eq_rename
  | error e notes notes' => exact .error _ _ _

end Lowering.Uniform

namespace Scope

variable (sc : Scope)

theorem assemble_uniform (W : World s₀ t₀) (entry : BlockId × String)
    (others : List (BlockId × String)) :
    Uniform W (sc.assemble entry others) (sc.assemble entry others) := by
  refine (sc.blocksCode_uniform W _).bind fun W₁ codes codes' _ hcodes => ?_
  have hassembly : Alike W₁ (Assembly.addBlocks codes (.ofLayout entry others))
      (Assembly.addBlocks codes' (.ofLayout entry others)) := by
    refine hcodes.map (f := fun l => Assembly.addBlocks l (.ofLayout entry others)) ?_
    intro π _ l
    rw [Assembly.rename_addBlocks, Assembly.rename_ofLayout]
  have hfinish := hassembly.map fun π _ s => Assembly.rename_finish π s
  have hreturning : (Assembly.addBlocks codes' (.ofLayout entry others)).returning =
      (Assembly.addBlocks codes (.ofLayout entry others)).returning := by
    obtain ⟨π, -, h⟩ := hassembly.exists_renaming
    rw [h, Assembly.returning_rename]
  dsimp only
  rw [hreturning]
  split
  · exact .pure hfinish
  · exact .tell_bind (.pure hfinish)

theorem plainGraph_uniform (W : World s₀ t₀) : Uniform W sc.plainGraph sc.plainGraph := by
  refine .ofExcept_bind fun blocks => ?_
  split
  · exact .fault _
  · refine (sc.assemble_uniform W _ _).bind fun W₁ g g' _ hg => ?_
    refine (sc.prologue_uniform W₁).bind fun W₂ p p' h₂ hp => .pure fun π hπ => ?_
    rw [hg.later h₂ π hπ, hp π hπ]
    show _ = FlowGraph.mk (rename π (FlowGraph.prepend _ _ _)).nodes _ _ _ _
    rw [FlowGraph.rename_prepend]
    rfl

theorem graph_uniform (W : World s₀ t₀) : Uniform W sc.graph sc.graph := by
  refine (sc.plainGraph_uniform W).bind fun W₁ g g' _ hg => ?_
  refine .ite_bind (.ofNoted fun π hπ => ?_) (.pure hg) fun W₂ f f' _ hf => ?_
  · rw [hg π hπ]
    exact FlowGraph.simplify_mirrors π g
  · exact .get_bind fun s t => .tell_bind (.pure hf)

end Scope

theorem functionGraph_uniform (W : World s₀ t₀) (program : Module) (id : FuncId)
    (oracle : Oracle) (settings : Settings) :
    Uniform W (functionGraph program id oracle settings)
      (functionGraph program id oracle settings) := by
  unfold functionGraph
  split
  · exact .reject _
  · exact Scope.graph_uniform _ W

/-- The graphs differ in the names of their variables only. -/
def FlowGraph.SameUpToRenaming (g g' : FlowGraph) : Prop :=
  ∃ π, Function.Injective π ∧ g' = rename π g

section Functions

variable (program : Module) (oracle : Oracle) (settings : Settings)

/-- Two runs of one function from any two supplies. -/
theorem functionGraph_outcomesAlike (id : FuncId) (s t : Session) :
    OutcomesAlike (World.start s.supply t.supply) (functionGraph program id oracle settings s)
      (functionGraph program id oracle settings t) :=
  functionGraph_uniform (World.start s.supply t.supply) program id oracle settings s t rfl rfl

variable {program oracle settings} {id : FuncId} {s s' t t' : Session} {g g' : FlowGraph}
  {e e' : Failure}

theorem sameUpToRenaming_of_ok (hs : functionGraph program id oracle settings s = .ok g s')
    (ht : functionGraph program id oracle settings t = .ok g' t') : g.SameUpToRenaming g' := by
  have houtcomes := functionGraph_outcomesAlike program oracle settings id s t
  rw [hs, ht] at houtcomes
  cases houtcomes with
  | ok W' _ _ _ hg => exact hg.exists_renaming

/-- A function that can be lowered from one supply can be lowered from every supply. -/
theorem exists_ok_of_ok (hs : functionGraph program id oracle settings s = .ok g s')
    (t : Session) : ∃ g' t', functionGraph program id oracle settings t = .ok g' t' := by
  have houtcomes := functionGraph_outcomesAlike program oracle settings id s t
  rw [hs] at houtcomes
  generalize functionGraph program id oracle settings t = y at houtcomes
  cases houtcomes
  exact ⟨_, _, rfl⟩

theorem exists_error_of_error (hs : functionGraph program id oracle settings s = .error e s')
    (t : Session) : ∃ t', functionGraph program id oracle settings t = .error e t' := by
  have houtcomes := functionGraph_outcomesAlike program oracle settings id s t
  rw [hs] at houtcomes
  generalize functionGraph program id oracle settings t = y at houtcomes
  cases houtcomes
  exact ⟨_, rfl⟩

variable (program oracle settings)

/-- Lowering functions one after the other lowers each of them from some supply. -/
theorem functionGraphs_outcome (ids : List FuncId) (s : Session) :
    match functionGraphs program oracle settings ids s with
    | .ok graphs _ => graphs.map (·.1) = ids ∧ ∀ p ∈ graphs,
        ∃ t t', functionGraph program p.1 oracle settings t = .ok p.2 t'
    | .error e _ => ∃ id ∈ ids, ∃ t t',
        functionGraph program id oracle settings t = .error e t' := by
  induction ids generalizing s with
  | nil => exact ⟨rfl, List.forall_mem_nil _⟩
  | cons id rest ih =>
      simp only [functionGraphs, bind, EStateM.bind]
      cases hg : functionGraph program id oracle settings s with
      | error e s' => exact ⟨id, List.mem_cons_self, s, s', hg⟩
      | ok g s' =>
          have ih := ih s'
          dsimp only
          cases hrest : functionGraphs program oracle settings rest s' with
          | error e s'' =>
              rw [hrest] at ih
              obtain ⟨id', hid', hfail⟩ := ih
              exact ⟨id', List.mem_cons_of_mem _ hid', hfail⟩
          | ok graphs s'' =>
              rw [hrest] at ih
              obtain ⟨hids, hgraphs⟩ := ih
              refine ⟨congrArg (id :: ·) hids, List.forall_mem_cons.2 ⟨⟨s, s', hg⟩, hgraphs⟩⟩

variable {program oracle settings} {ids ids' : List FuncId} {graphs : List (FuncId × FlowGraph)}

/-- What fails when functions are lowered one after the other fails from every supply. -/
theorem exists_error_of_functionGraphs_error
    (h : functionGraphs program oracle settings ids s = .error e s') :
    ∃ id ∈ ids, ∀ t, ∃ t', functionGraph program id oracle settings t = .error e t' := by
  have hs := functionGraphs_outcome program oracle settings ids s
  rw [h] at hs
  obtain ⟨id, hid, u, u', hu⟩ := hs
  exact ⟨id, hid, exists_error_of_error hu⟩

/-- Functions that can be lowered one after the other can be lowered in any order. -/
theorem functionGraphs_ok_of_subset
    (h : functionGraphs program oracle settings ids s = .ok graphs s') (hsub : ids' ⊆ ids)
    (t : Session) :
    ∃ graphs' t', functionGraphs program oracle settings ids' t = .ok graphs' t' := by
  have hs := functionGraphs_outcome program oracle settings ids s
  rw [h] at hs
  cases hy : functionGraphs program oracle settings ids' t with
  | ok graphs' t' => exact ⟨graphs', t', rfl⟩
  | error e t' =>
      obtain ⟨id, hid, hfails⟩ := exists_error_of_functionGraphs_error hy
      obtain ⟨p, hp, rfl⟩ := List.mem_map.1 (hs.1.symm ▸ hsub hid)
      obtain ⟨u, u', hu⟩ := hs.2 p hp
      obtain ⟨u'', hu''⟩ := hfails u
      rw [hu] at hu''
      cases hu''

variable (program oracle settings)

/-- From any two supplies, a function ends with the same failure or with graphs that every
renaming of what the two runs minted takes to each other. So all functions of a module, in any
order and from any supply, or each from a supply of its own, get the graphs that lowering the
module gives them, up to renaming; a function that fails does so in any of these ways. -/
theorem functionGraph_independent_of_supply :
    (∀ (id : FuncId) (s t : Session),
      match functionGraph program id oracle settings s,
        functionGraph program id oracle settings t with
      | .ok g s', .ok g' t' =>
          (∃ π, VarSupply.Renaming s.supply s'.supply t.supply t'.supply π) ∧
            ∀ π, VarSupply.Renaming s.supply s'.supply t.supply t'.supply π → g' = rename π g
      | .error e _, .error e' _ => e = e'
      | _, _ => False) ∧
    (∀ (ids : List FuncId) (s t : Session), ids.Perm program.defined →
      match moduleGraphs program oracle settings s,
        functionGraphs program oracle settings ids t with
      | .ok graphs _, .ok graphs' _ => graphs'.map (·.1) = ids ∧
          ∀ id g g', (id, g) ∈ graphs → (id, g') ∈ graphs' → g.SameUpToRenaming g'
      | .error _ _, .error e _ => ∃ id ∈ ids, ∀ u, ∃ u',
          functionGraph program id oracle settings u = .error e u'
      | _, _ => False) ∧
    (∀ s : Session,
      match moduleGraphs program oracle settings s with
      | .ok graphs _ => graphs.map (·.1) = program.defined ∧ ∀ p ∈ graphs, ∀ t, ∃ g t',
          functionGraph program p.1 oracle settings t = .ok g t' ∧ p.2.SameUpToRenaming g
      | .error e _ => ∃ id ∈ program.defined, ∀ t, ∃ t',
          functionGraph program id oracle settings t = .error e t') := by
  refine ⟨fun id s t => ?_, fun ids s t hids => ?_, fun s => ?_⟩
  · have houtcomes := functionGraph_outcomesAlike program oracle settings id s t
    generalize functionGraph program id oracle settings s = x at houtcomes
    generalize functionGraph program id oracle settings t = y at houtcomes
    cases houtcomes with
    | ok W' _ hs ht hg =>
        dsimp only
        rw [hs, ht]
        exact ⟨W'.exists_renaming, hg⟩
    | error e s' t' => rfl
  · have hs := functionGraphs_outcome program oracle settings program.defined s
    have ht := functionGraphs_outcome program oracle settings ids t
    unfold moduleGraphs
    cases hx : functionGraphs program oracle settings program.defined s with
    | ok graphs s' =>
        rw [hx] at hs
        cases hy : functionGraphs program oracle settings ids t with
        | ok graphs' t' =>
            rw [hy] at ht
            refine ⟨ht.1, fun id g g' hg hg' => ?_⟩
            obtain ⟨u, u', hu⟩ := hs.2 _ hg
            obtain ⟨v, v', hv⟩ := ht.2 _ hg'
            exact sameUpToRenaming_of_ok hu hv
        | error e t' =>
            obtain ⟨graphs', u, hu⟩ := functionGraphs_ok_of_subset hx hids.subset t
            rw [hy] at hu
            cases hu
    | error e s' =>
        cases hy : functionGraphs program oracle settings ids t with
        | ok graphs' t' =>
            obtain ⟨graphs, u, hu⟩ := functionGraphs_ok_of_subset hy hids.symm.subset s
            rw [hx] at hu
            cases hu
        | error e' t' => exact exists_error_of_functionGraphs_error hy
  · have hs := functionGraphs_outcome program oracle settings program.defined s
    unfold moduleGraphs
    cases hx : functionGraphs program oracle settings program.defined s with
    | ok graphs s' =>
        rw [hx] at hs
        refine ⟨hs.1, fun p hp t => ?_⟩
        obtain ⟨u, u', hu⟩ := hs.2 p hp
        obtain ⟨g, t', ht⟩ := exists_ok_of_ok hu t
        exact ⟨g, t', ht, sameUpToRenaming_of_ok hu ht⟩
    | error e s' => exact exists_error_of_functionGraphs_error hx

end Functions

end AffineFlow
