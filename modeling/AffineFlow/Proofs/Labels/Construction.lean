import AffineFlow.Proofs.Labels.Suffixes
import AffineFlow.Proofs.Statements.Simplified

/-!
# Labels over the life of a graph

A graph starts with its entry, gets further blocks one by one, and in between
its blocks are changed, removed and merged. None of this touches what is known
of the labels that were granted, and no block takes over the label of another
one. So a new block has a label that no block of the graph ever had, also if the
block that had it is gone, and a label leads to at most one live block.
-/
namespace AffineFlow

open LabelCounts

namespace FlowGraph

variable {g g' g'' : FlowGraph} {h : Handle} {n : Node}

/-- The blocks of the second graph are blocks of the first one under the same labels. -/
structure KeepsLabels (g g' : FlowGraph) : Prop where
  labels_eq : g'.labels = g.labels
  exists_node : ∀ h n', g'.nodes.get? h = some n' →
    ∃ n, g.nodes.get? h = some n ∧ n.label = n'.label

namespace KeepsLabels

theorem refl (g : FlowGraph) : g.KeepsLabels g := ⟨rfl, fun _ n hn => ⟨n, hn, rfl⟩⟩

theorem trans (hg : g.KeepsLabels g') (hg' : g'.KeepsLabels g'') : g.KeepsLabels g'' := by
  refine ⟨hg'.labels_eq.trans hg.labels_eq, fun h n'' hn'' => ?_⟩
  obtain ⟨n', hn', he'⟩ := hg'.exists_node h n'' hn''
  obtain ⟨n, hn, he⟩ := hg.exists_node h n' hn'
  exact ⟨n, hn, he.trans he'⟩

theorem bypass {s s' : Merging} {b t : Handle} (hs : s.bypass b t = .ok s') :
    s.graph.KeepsLabels s'.graph := by
  obtain ⟨hframe, hlabels⟩ := Merging.bypass_keeps (f := Node.label) (fun _ => rfl) hs
  refine ⟨hframe.labels_eq, fun h n' hn' => ?_⟩
  have hh := hlabels h
  rw [hn', Option.map_some] at hh
  split at hh
  next => cases hh
  next => exact Option.map_eq_some_iff.1 hh.symm

theorem absorb {s s' : Merging} {b t : Handle} (hs : s.absorb b t = .ok s') :
    s.graph.KeepsLabels s'.graph := by
  obtain ⟨m, -, hframe, hget⟩ := Merging.absorb_keeps hs
  refine ⟨hframe.labels_eq, fun h n' hn' => ?_⟩
  by_cases ht : h = t
  · simp [hget, ht] at hn'
  · rw [hget, if_neg ht] at hn'
    split at hn'
    next =>
      obtain ⟨n, hn, rfl⟩ := Option.map_eq_some_iff.1 hn'
      exact ⟨n, hn, rfl⟩
    next => exact ⟨n', hn', rfl⟩

theorem merge {notes notes' : List Note} (hg : Yields g.merge notes g' notes') :
    g.KeepsLabels g' := by
  simp only [FlowGraph.merge, yields_bind, yields_pure] at hg
  obtain ⟨s, _, hrun, rfl, -⟩ := hg
  exact Merging.run_rel refl (fun _ => bypass) (fun _ => absorb) trans hrun

theorem removeUnreachable {notes notes' : List Note}
    (hg : Yields g.removeUnreachable notes g' notes') : g.KeepsLabels g' := by
  obtain ⟨reached, -, rfl⟩ := removeUnreachable_keeps hg
  refine ⟨rfl, fun h n' hn' => ⟨n', ?_, rfl⟩⟩
  rw [Arena.get?_retain] at hn'
  split at hn'
  · exact hn'
  · cases hn'

theorem modifyNode {f : Node → Node} (hf : ∀ n, (f n).label = n.label) (k : Handle) :
    g.KeepsLabels (g.modifyNode k f) := by
  refine ⟨rfl, fun h n' hn' => ?_⟩
  rw [show (g.modifyNode k f).nodes.get? h = _ from g.nodes.get?_modify k h f] at hn'
  split at hn'
  · obtain ⟨n, hn, rfl⟩ := Option.map_eq_some_iff.1 hn'
    exact ⟨n, hn, (hf n).symm⟩
  · exact ⟨n', hn', rfl⟩

end KeepsLabels

/-- What is done to a graph apart from adding blocks: edges and statements are put in or changed,
the entry, the exit and the declaration are set, and the graph is made smaller. -/
inductive Edits : FlowGraph → FlowGraph → Prop
  | connect {g : FlowGraph} (source target : Handle) : Edits g (g.connect source target)
  /-- Any change of the statements and the successors of a block. -/
  | modifyNode {g : FlowGraph} (h : Handle) (f : Node → Node) (hf : ∀ n, (f n).label = n.label) :
      Edits g (g.modifyNode h f)
  | setEnds {g : FlowGraph} (entry exit : Handle) : Edits g { g with entry, exit }
  | declare {g : FlowGraph} (decl : Option Declaration) : Edits g { g with decl }
  | merge {g g' : FlowGraph} {notes notes' : List Note} (h : Yields g.merge notes g' notes') :
      Edits g g'
  | removeUnreachable {g g' : FlowGraph} {notes notes' : List Note}
      (h : Yields g.removeUnreachable notes g' notes') : Edits g g'

theorem label_connect (n : Node) (target : Handle) : (n.connect target).label = n.label := by
  unfold Node.connect
  split <;> rfl

theorem Edits.keepsLabels (hg : Edits g g') : g.KeepsLabels g' := by
  cases hg with
  | connect source target => exact .modifyNode (fun n => label_connect n target) source
  | modifyNode h f hf => exact .modifyNode hf h
  | setEnds entry exit => exact ⟨rfl, fun _ n hn => ⟨n, hn, rfl⟩⟩
  | declare decl => exact ⟨rfl, fun _ n hn => ⟨n, hn, rfl⟩⟩
  | merge h => exact .merge h
  | removeUnreachable h => exact .removeUnreachable h

/-- A block that was added to a graph: the label that was asked for, and what was granted. -/
structure Creation extends Grant where
  handle : Handle
  deriving DecidableEq

/-- What the addition of a block under a label is to be remembered by. -/
def creation (g : FlowGraph) (base : String) : Creation where
  request := base
  label := (g.labels.claim base).1
  handle := g.nodes.nextHandle

/-- The graph has come about by the creation of the blocks of the history, the latest one first,
and by edits in between. -/
inductive Arises : FlowGraph → List Creation → Prop
  | singleton (label : String) :
      Arises (singleton label) [⟨⟨label, label⟩, (singleton label).entry⟩]
  | insertNode {g : FlowGraph} {history : List Creation} (base : String) (h : Arises g history) :
      Arises (g.insertNode base) (g.creation base :: history)
  | edit {g g' : FlowGraph} {history : List Creation} (h : Arises g history) (hg : Edits g g') :
      Arises g' history

namespace Arises

variable {history : List Creation}

theorem records (hg : g.Arises history) : g.labels.Records (history.map (·.toGrant)) := by
  induction hg with
  | singleton label => exact Records.empty.claim label
  | insertNode base _ ih => exact ih.claim base
  | edit _ hedit ih => rwa [hedit.keepsLabels.labels_eq]

theorem labels_nodup (hg : g.Arises history) : (history.map (·.label)).Nodup := by
  have hnodup := hg.records.labels_nodup
  rwa [List.map_map] at hnodup

/-- Every live block is in the history, under its label. -/
theorem mem_history (hg : g.Arises history) (hn : g.nodes.get? h = some n) :
    ∃ c ∈ history, c.handle = h ∧ c.label = n.label := by
  induction hg generalizing n with
  | singleton label =>
      rw [show (FlowGraph.singleton label).nodes.get? h = _ from
        Arena.empty.get?_insert ({ label } : Node) h] at hn
      split at hn
      next he =>
        obtain rfl := Option.some.inj hn
        exact ⟨_, List.mem_singleton_self _, he.symm, rfl⟩
      next => cases hn
  | @insertNode g history base _ ih =>
      rw [get?_insertNode] at hn
      split at hn
      next he =>
        obtain rfl := Option.some.inj hn
        exact ⟨g.creation base, List.mem_cons_self, he.symm, rfl⟩
      next =>
        obtain ⟨c, hc, hlabel⟩ := ih hn
        exact ⟨c, List.mem_cons_of_mem _ hc, hlabel⟩
  | edit _ hedit ih =>
      obtain ⟨m, hm, he⟩ := hedit.keepsLabels.exists_node h n hn
      obtain ⟨c, hc, hhandle, hlabel⟩ := ih hm
      exact ⟨c, hc, hhandle, hlabel.trans he⟩

/-- No two live blocks have one label. -/
theorem handle_eq (hg : g.Arises history) {k : Handle} {m : Node} (hn : g.nodes.get? h = some n)
    (hm : g.nodes.get? k = some m) (hlabel : n.label = m.label) : h = k := by
  obtain ⟨c, hc, rfl, hcl⟩ := hg.mem_history hn
  obtain ⟨d, hd, rfl, hdl⟩ := hg.mem_history hm
  rw [List.inj_on_of_nodup_map hg.labels_nodup hc hd (hcl.trans (hlabel.trans hdl.symm))]

theorem byLabel?_eq_some_iff (hg : g.Arises history) {label : String} :
    g.byLabel? label = some h ↔ ∃ n, g.nodes.get? h = some n ∧ n.label = label := by
  unfold byLabel?
  constructor
  · intro hfind
    obtain ⟨⟨k, n⟩, hfound, rfl⟩ := Option.map_eq_some_iff.1 hfind
    exact ⟨n, g.nodes.mem_entries_iff.1 (List.mem_of_find?_eq_some hfound),
      by simpa using List.find?_some hfound⟩
  · rintro ⟨n, hn, rfl⟩
    cases hfound : g.nodes.entries.find? (·.2.label == n.label) with
    | none =>
        have hall := List.find?_eq_none.1 hfound (h, n) (g.nodes.mem_entries_iff.2 hn)
        exact absurd (beq_self_eq_true _) hall
    | some p =>
        have hm := g.nodes.mem_entries_iff.1 (List.mem_of_find?_eq_some hfound)
        have hlabel : p.2.label = n.label := by simpa using List.find?_some hfound
        exact congrArg some (hg.handle_eq hm hn hlabel)

end Arises

/-- Whatever has been done to a graph, the search for the label of a new block ends, with a label
that no block of the graph ever had: the one that was asked for if no block had that one, and
otherwise one with a suffix larger than every suffix that the same request was granted before. No
two of all the blocks that there ever were have one label, so a label leads to the live block that
has it, and to no block if none has it. -/
theorem labels_apart {history : List Creation} (hg : g.Arises history) :
    (∀ base, ∃ n, (g.insertNode base).nodes.get? g.nodes.nextHandle = some n ∧
      g.labels.Granted base n.label ∧ (∀ c ∈ history, c.label ≠ n.label) ∧
      ((∀ c ∈ history, c.label ≠ base) → n.label = base) ∧
      ((∃ c ∈ history, c.label = base) → ∃ k, n.label = base ++ "." ++ Nat.repr k ∧
        ∀ c ∈ history, c.request = base → ∀ j, c.label = base ++ "." ++ Nat.repr j → j < k)) ∧
    (history.map (·.label)).Nodup ∧
    (∀ h n, g.nodes.get? h = some n → ∃ c ∈ history, c.handle = h ∧ c.label = n.label) ∧
    ∀ label h, g.byLabel? label = some h ↔ ∃ n, g.nodes.get? h = some n ∧ n.label = label := by
  have hrecords := hg.records
  refine ⟨fun base => ?_, hg.labels_nodup, fun h n => hg.mem_history,
    fun label h => hg.byLabel?_eq_some_iff⟩
  have hgranted := g.labels.claim_granted base
  refine ⟨{ label := (g.labels.claim base).1 }, ?_, hgranted, ?_, ?_, ?_⟩
  · rw [get?_insertNode, if_pos rfl]
  · simpa using hrecords.ne_of_granted hgranted
  · simpa using hrecords.label_eq_of_new hgranted
  · simpa [suffixed] using hrecords.suffix_of_old hgranted

/-- The second request for a label finds the first suffix taken by a request of its own. -/
def suffixTaken : FlowGraph := ((singleton "b").insertNode "b.1").insertNode "b"

/-- Both labels with a suffix stay taken when their blocks are removed. -/
theorem labels_apart_suffixTaken :
    ∃ g notes history, Yields suffixTaken.removeUnreachable [] g notes ∧ g.Arises history ∧
      g.nodes.handles = [g.entry] ∧ g.byLabel? "b.2" = none ∧
      ∃ n k, (g.insertNode "b").nodes.get? g.nodes.nextHandle = some n ∧
        n.label = "b" ++ "." ++ Nat.repr k ∧ 2 < k := by
  have hbuilt : suffixTaken.Arises _ := .insertNode "b" (.insertNode "b.1" (.singleton "b"))
  obtain ⟨g, notes, hrun, hleft, hgone⟩ : ∃ g notes,
      Yields suffixTaken.removeUnreachable [] g notes ∧ g.nodes.handles = [g.entry] ∧
        g.byLabel? "b.2" = none := ⟨_, _, rfl, by decide, by decide⟩
  have hg := hbuilt.edit (.removeUnreachable hrun)
  obtain ⟨n, hn, -, -, -, hold⟩ := (labels_apart hg).1 "b"
  obtain ⟨k, hlabel, hk⟩ :=
    hold ⟨_, List.mem_cons_of_mem _ (List.mem_cons_of_mem _ List.mem_cons_self), rfl⟩
  have hsecond : (singleton "b" |>.insertNode "b.1").creation "b" = ⟨⟨"b", "b.2"⟩, ⟨2, 2⟩⟩ := by
    decide
  exact ⟨g, notes, _, hrun, hg, hleft, hgone, n, k, hn, hlabel,
    hk _ List.mem_cons_self rfl 2 (by rw [hsecond]; decide)⟩

end FlowGraph

end AffineFlow
