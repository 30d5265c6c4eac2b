import AffineFlow.FlowGraph.Merge
import AffineFlow.Proofs.Statements.Composition

/-!
# What simplification retains

Whatever the graph, simplification keeps the declaration, the pieces of code
that its blocks are put together from, and the statements that the entry starts
with: blocks are dropped whole or appended to others.
-/
namespace AffineFlow

open Ssa

namespace FlowGraph

variable {g g' : FlowGraph} {b t k : Handle}

/-- Apart from the blocks and the exit, the graphs are the same. -/
structure SameFrame (g g' : FlowGraph) : Prop where
  decl_eq : g'.decl = g.decl
  entry_eq : g'.entry = g.entry
  labels_eq : g'.labels = g.labels

structure Retains (g g' : FlowGraph) : Prop where
  decl_eq : g'.decl = g.decl
  composed : ∀ parts, g.ComposedOf parts → g'.ComposedOf parts
  entry_starts : ∀ stmts, g.EntryStarts stmts → g'.EntryStarts stmts

namespace Retains

theorem refl (g : FlowGraph) : g.Retains g := ⟨rfl, fun _ h => h, fun _ h => h⟩

theorem trans {g'' : FlowGraph} (h : g.Retains g') (h' : g'.Retains g'') : g.Retains g'' :=
  ⟨h'.decl_eq.trans h.decl_eq, fun parts hg => h'.composed parts (h.composed parts hg),
    fun stmts hg => h'.entry_starts stmts (h.entry_starts stmts hg)⟩

/-- Blocks that go, apart from the entry, and successors that change. -/
theorem of_stmts (hdecl : g'.decl = g.decl) (hentry : g'.entry = g.entry)
    (hk : ∀ k n', g'.nodes.get? k = some n' →
      ∃ n, g.nodes.get? k = some n ∧ n'.stmts = n.stmts)
    (hlive : ∀ n, g.nodes.get? g.entry = some n → g'.nodes.contains g.entry = true) :
    g.Retains g' := by
  refine ⟨hdecl, fun parts hg => hg.of_stmts fun k n' hn' => ?_, fun stmts hg =>
    hg.of_prefix hentry fun n hn => ?_⟩
  · obtain ⟨n, hn, he⟩ := hk k n' hn'
    exact ⟨k, n, hn, he⟩
  · obtain ⟨n', hn'⟩ := exists_node (hlive n hn)
    obtain ⟨m, hm, he⟩ := hk _ n' hn'
    obtain rfl : m = n := Option.some.inj (hm.symm.trans hn)
    exact ⟨n', hn', he ▸ List.prefix_rfl⟩

end Retains

theorem subset_of_exploreFrom {fuel : Nat} {stack seen reached : List Handle}
    (h : g.exploreFrom fuel stack seen = .ok reached) : seen ⊆ reached := by
  induction fuel generalizing stack seen with
  | zero =>
      cases stack with
      | nil => exact Except.ok.inj h ▸ List.Subset.refl _
      | cons k rest => exact Except.ok.inj h ▸ List.Subset.refl _
  | succ fuel ih =>
      cases stack with
      | nil => exact Except.ok.inj h ▸ List.Subset.refl _
      | cons k rest =>
          unfold exploreFrom at h
          split at h
          next => cases h
          next n _ => exact fun k hk => ih h (List.mem_append_left _ hk)

theorem removeUnreachable_keeps {notes notes' : List Note}
    (h : Yields g.removeUnreachable notes g' notes') : ∃ reached, g.reachable = .ok reached ∧
      g' = { g with nodes := g.nodes.retain fun k => k ∈ reached || k = g.exit } := by
  simp only [removeUnreachable, yields_bind, Noted.yields_ofExcept, Noted.yields_tellAll,
    yields_pure] at h
  obtain ⟨reached, _, ⟨hreached, rfl⟩, -, _, rfl, rfl, rfl⟩ := h
  exact ⟨reached, hreached, rfl⟩

theorem removeUnreachable_retains {notes notes' : List Note}
    (h : Yields g.removeUnreachable notes g' notes') : g.Retains g' := by
  obtain ⟨reached, hreached, rfl⟩ := removeUnreachable_keeps h
  have hentry : g.entry ∈ reached := subset_of_exploreFrom hreached (List.mem_singleton_self _)
  refine .of_stmts rfl rfl (fun k n' hn' => ?_) fun n hn => ?_
  · rw [Arena.get?_retain] at hn'
    split at hn'
    next => exact ⟨n', hn', rfl⟩
    next => cases hn'
  · rw [Arena.contains, Arena.get?_retain, if_pos (by simp [hentry]), hn]
    rfl

end FlowGraph

namespace Merging

variable {s s' : Merging} {b t : Handle} {g g' : FlowGraph}

/-- Redirection changes nothing but successors. -/
theorem redirectAll_keeps {β : Type} {f : Node → β} (hf : ∀ n, f (redirect b t n) = f n)
    {ps : List Handle} (h : redirectAll b t ps g = .ok g') :
    g.SameFrame g' ∧ ∀ k, (g'.nodes.get? k).map f = (g.nodes.get? k).map f := by
  induction ps generalizing g with
  | nil =>
      obtain rfl := Except.ok.inj h
      exact ⟨⟨rfl, rfl, rfl⟩, fun _ => rfl⟩
  | cons p rest ih =>
      unfold redirectAll at h
      split at h
      next => cases h
      next =>
        obtain ⟨hframe, hnodes⟩ := ih h
        refine ⟨⟨hframe.decl_eq, hframe.entry_eq, hframe.labels_eq⟩,
          fun k => (hnodes k).trans ?_⟩
        rw [show (g.modifyNode p (redirect b t)).nodes.get? k = _ from g.nodes.get?_modify p k _]
        split
        · rw [Option.map_map]
          exact congrArg (Option.map · _) (funext hf)
        · rfl

/-- Bypassing a block drops it and changes nothing else but successors. -/
theorem bypass_keeps {β : Type} {f : Node → β} (hf : ∀ n, f (redirect b t n) = f n)
    (h : s.bypass b t = .ok s') : s.graph.SameFrame s'.graph ∧
      ∀ k, (s'.graph.nodes.get? k).map f =
        if k = b then none else (s.graph.nodes.get? k).map f := by
  unfold bypass at h
  split at h
  next => cases h
  next =>
  split at h
  next => cases h
  next graph hgraph =>
    obtain rfl := Except.ok.inj h
    obtain ⟨hframe, hnodes⟩ := redirectAll_keeps hf hgraph
    refine ⟨⟨hframe.decl_eq, hframe.entry_eq, hframe.labels_eq⟩, fun k => (hnodes k).trans ?_⟩
    rw [show (s.graph.removeNode b).nodes.get? k = _ from s.graph.nodes.get?_erase b k]
    split
    · rfl
    · rfl

/-- Absorbing a block drops it and appends it to the block that absorbs it. -/
theorem absorb_keeps (h : s.absorb b t = .ok s') : ∃ m, s.graph.nodes.get? t = some m ∧
    s.graph.SameFrame s'.graph ∧ ∀ k, s'.graph.nodes.get? k =
      if k = b then (if k = t then none else s.graph.nodes.get? k).map (followedBy m)
      else if k = t then none else s.graph.nodes.get? k := by
  unfold absorb at h
  split at h
  next => cases h
  next m hm =>
  split at h
  next => cases h
  next =>
    obtain rfl := Except.ok.inj h
    refine ⟨m, FlowGraph.node_eq_ok_iff.1 hm, ⟨rfl, rfl, rfl⟩, fun k => ?_⟩
    simp only [FlowGraph.modifyNode, FlowGraph.removeNode, Arena.get?_modify, Arena.get?_erase]

theorem bypass_retains (hb : b ≠ s.graph.entry) (h : s.bypass b t = .ok s') :
    s.graph.Retains s'.graph := by
  obtain ⟨hframe, hstmts⟩ := bypass_keeps (f := Node.stmts) (fun _ => rfl) h
  refine .of_stmts hframe.decl_eq hframe.entry_eq (fun k n' hn' => ?_) fun n hn => ?_
  · have hk := hstmts k
    rw [hn', Option.map_some] at hk
    split at hk
    next => cases hk
    next =>
      obtain ⟨n, hn, he⟩ := Option.map_eq_some_iff.1 hk.symm
      exact ⟨n, hn, he.symm⟩
  · have hk := hstmts s.graph.entry
    rw [if_neg hb.symm, hn, Option.map_some] at hk
    obtain ⟨n', hn', -⟩ := Option.map_eq_some_iff.1 hk
    exact FlowGraph.contains_of_get? hn'

theorem absorb_retains (ht : t ≠ s.graph.entry) (h : s.absorb b t = .ok s') :
    s.graph.Retains s'.graph := by
  obtain ⟨m, hm, hframe, hget⟩ := absorb_keeps h
  refine ⟨hframe.decl_eq, fun parts hg k n' hn' stmt hs => ?_,
    fun stmts hg => hg.of_prefix hframe.entry_eq fun n hn => ?_⟩
  · rw [hget] at hn'
    split at hn'
    next =>
      obtain ⟨n, hn, rfl⟩ := Option.map_eq_some_iff.1 hn'
      split at hn
      next => cases hn
      next =>
        rcases List.mem_append.1 hs with hs | hs
        · obtain ⟨part, hp, hmem, hinfix⟩ := hg k n hn stmt hs
          exact ⟨part, hp, hmem, hinfix.trans (List.prefix_append _ _).isInfix⟩
        · obtain ⟨part, hp, hmem, hinfix⟩ := hg t m hm stmt hs
          exact ⟨part, hp, hmem, hinfix.trans (List.suffix_append _ _).isInfix⟩
    next =>
      split at hn'
      next => cases hn'
      next => exact hg k n' hn' stmt hs
  · by_cases he : s.graph.entry = b
    · refine ⟨followedBy m n, (hget _).trans ?_, List.prefix_append _ _⟩
      rw [if_pos he, if_neg ht.symm, hn, Option.map_some]
    · refine ⟨n, (hget _).trans ?_, List.prefix_rfl⟩
      rw [if_neg he, if_neg ht.symm, hn]

/-- The entry is neither bypassed nor absorbed. -/
theorem action_spares_entry {action : Action} (h : s.action b = .ok action) :
    match action with
    | .keep => True
    | .bypass _ => b ≠ s.graph.entry
    | .absorb t => t ≠ s.graph.entry := by
  unfold Merging.action at h
  split at h
  next => cases h
  next n _ =>
  split at h
  next t _ =>
    unfold actionTowards at h
    split at h
    next =>
      obtain rfl := Except.ok.inj h
      trivial
    next hguard =>
    split at h
    next hforwarder =>
      split at h
      next =>
        obtain rfl := Except.ok.inj h
        simp only [isForwarder, Bool.and_eq_true, decide_eq_true_eq] at hforwarder
        exact hforwarder.1.2
      next =>
        obtain rfl := Except.ok.inj h
        trivial
    next =>
      split at h
      next => cases h
      next =>
        split at h
        next =>
          obtain rfl := Except.ok.inj h
          exact (not_or.1 hguard).1
        next =>
          obtain rfl := Except.ok.inj h
          trivial
  next =>
    obtain rfl := Except.ok.inj h
    trivial

section

/-! What holds between the graphs before and after each reduction holds between those before and
after merging, if it is reflexive and transitive. -/

variable {R : FlowGraph → FlowGraph → Prop} (hrefl : ∀ g, R g g)
  (hbypass : ∀ {s s' : Merging} {b t : Handle}, b ≠ s.graph.entry → s.bypass b t = .ok s' →
    R s.graph s'.graph)
  (habsorb : ∀ {s s' : Merging} {b t : Handle}, t ≠ s.graph.entry → s.absorb b t = .ok s' →
    R s.graph s'.graph)

include hrefl hbypass habsorb

theorem step_rel {notes notes' : List Note} (h : Yields (s.step b) notes s' notes') :
    R s.graph s'.graph := by
  simp only [step, yields_bind, Noted.yields_ofExcept] at h
  obtain ⟨action, _, ⟨haction, rfl⟩, h⟩ := h
  have hspares := action_spares_entry haction
  cases action with
  | keep =>
      obtain ⟨rfl, rfl⟩ := yields_pure.1 h
      exact hrefl _
  | bypass t =>
      simp only [yields_bind, Noted.yields_ofExcept, Noted.yields_tell] at h
      obtain ⟨_, _, -, _, _, -, -, _, -, hdone, -⟩ := h
      exact hbypass hspares hdone
  | absorb t =>
      simp only [yields_bind, Noted.yields_ofExcept, Noted.yields_tell] at h
      obtain ⟨_, _, -, _, _, -, -, _, -, hdone, -⟩ := h
      exact habsorb hspares hdone

theorem run_rel (htrans : ∀ {g₁ g₂ g₃}, R g₁ g₂ → R g₂ g₃ → R g₁ g₃) {fuel : Nat}
    {notes notes' : List Note} (h : Yields (s.run fuel) notes s' notes') :
    R s.graph s'.graph := by
  induction fuel generalizing s notes with
  | zero =>
      obtain ⟨rfl, rfl⟩ := yields_pure.1 h
      exact hrefl _
  | succ fuel ih =>
      unfold run at h
      split at h
      next =>
        obtain ⟨rfl, rfl⟩ := yields_pure.1 h
        exact hrefl _
      next b rest _ =>
        obtain ⟨s₁, notes₁, hstep, hrun⟩ := yields_bind.1 h
        have hfirst := step_rel hrefl hbypass habsorb hstep
        exact htrans hfirst (ih hrun)

end

theorem run_retains {fuel : Nat} {notes notes' : List Note}
    (h : Yields (s.run fuel) notes s' notes') : s.graph.Retains s'.graph :=
  run_rel .refl bypass_retains absorb_retains .trans h

end Merging

theorem FlowGraph.simplify_retains {g g' : FlowGraph} {notes notes' : List Note}
    (h : Yields g.simplify notes g' notes') : g.Retains g' := by
  simp only [simplify, merge, yields_bind, Noted.yields_tell, yields_pure] at h
  obtain ⟨-, _, -, closed, notes₁, hclosed, merged, notes₂, ⟨s, notes₃, hrun, rfl, rfl⟩, -, _, -,
    rfl, -⟩ := h
  exact (removeUnreachable_retains hclosed).trans (Merging.run_retains hrun)

/-- The graph of a function, simplified or not, is put together from the prologue and the code of
the blocks, and it starts with the prologue. -/
theorem Scope.graph_composed {sc : Scope} {s s' : Session} {g : FlowGraph}
    (h : Yields sc.graph s g s') :
    ∃ codes pre s₁ s₂ s₃, Yields (sc.blocksCode sc.body.order) s codes s₁ ∧
      s₂.supply = s₁.supply ∧ Yields sc.prologue s₂ (g.decl, pre) s₃ ∧ s'.supply = s₃.supply ∧
      g.ComposedOf (pre :: codes.flatMap (·.parts)) ∧ g.EntryStarts pre := by
  obtain ⟨plain, s₃, hplain, hsupply, hsame, hsimplify⟩ := graph_spec h
  obtain ⟨codes, pre, s₁, s₂, hcodes, hsupply', hprologue, hparts, hentry⟩ :=
    plainGraph_composed hplain
  have hretains : plain.Retains g := by
    cases hset : sc.settings.simplify with
    | false => exact hsame hset ▸ .refl _
    | true =>
        obtain ⟨notes', hrun⟩ := hsimplify hset
        exact FlowGraph.simplify_retains hrun
  rw [← hretains.decl_eq] at hprologue
  exact ⟨codes, pre, s₁, s₂, s₃, hcodes, hsupply', hprologue, hsupply,
    hretains.composed _ hparts, hretains.entry_starts _ hentry⟩

end AffineFlow
