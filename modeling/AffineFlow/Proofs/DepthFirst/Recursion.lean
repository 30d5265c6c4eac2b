import AffineFlow.FlowGraph.ReversePostorder
import AffineFlow.Proofs.Reachability
import Mathlib.Algebra.GroupWithZero.Nat

/-!
# Depth-first search by recursion

The search that enters the blocks of a list one after the other. A block that
was entered before is passed over; any other one is finished when the search has
been through its successors, in the order of its edges. The loop that works off
a stack of visits finishes the same blocks in the same order: it looks at a
successor again when the visit comes up, so it does not matter that some of the
visits that wait are of blocks that were entered in the meantime.
-/
namespace AffineFlow.FlowGraph

variable {g : FlowGraph} {h k : Handle} {todo rest : List Handle}

/-- What a search has come to. -/
structure Progress where
  visited : List Handle := []
  /-- The finished blocks, the first finished one first. -/
  postorder : List Handle := []

namespace Progress

def enter (p : Progress) (h : Handle) : Progress := { p with visited := h :: p.visited }

def finish (p : Progress) (h : Handle) : Progress := { p with postorder := p.postorder ++ [h] }

/-- The finished blocks, the last finished one first. -/
def order (p : Progress) : List Handle := p.postorder.reverse

variable (p : Progress) (h : Handle)

@[simp] theorem enter_visited : (p.enter h).visited = h :: p.visited := rfl

@[simp] theorem finish_visited : (p.finish h).visited = p.visited := rfl

@[simp] theorem finish_order : (p.finish h).order = h :: p.order := by
  simp [order, finish]

end Progress

variable {p : Progress}

theorem length_unseen_le {seen seen' : List Handle} (hsub : seen ⊆ seen') :
    (g.unseen seen').length ≤ (g.unseen seen).length := by
  refine (List.monotone_filter_right g.nodes.handles fun k hk => ?_).length_le
  rw [decide_eq_true_eq] at hk ⊢
  exact fun hseen => hk (hsub hseen)

/-- One live block fewer is unseen. -/
theorem unseen_perm {seen : List Handle} (hlive : g.nodes.contains h = true) (hh : h ∉ seen) :
    (g.unseen seen).Perm (h :: g.unseen (h :: seen)) := by
  have hnodup : ∀ l : List Handle, (g.unseen l).Nodup := fun l => g.nodes.handles_nodup.filter _
  have hgone : h ∉ g.unseen (h :: seen) := by simp [unseen]
  rw [List.perm_ext_iff_of_nodup (hnodup seen) (List.nodup_cons.2 ⟨hgone, hnodup _⟩)]
  intro k
  by_cases hk : k = h
  · simp [unseen, hk, hh, Arena.mem_handles_iff, hlive]
  · simp [unseen, hk]

/-- Goes through the blocks of the list; every block that is entered is new, so there is an end. -/
def goThrough (g : FlowGraph) : (todo : List Handle) → (p : Progress) →
    { q : Progress // p.visited ⊆ q.visited }
  | [], p => ⟨p, List.Subset.refl _⟩
  | h :: rest, p =>
      if _ : h ∈ p.visited then g.goThrough rest p
      else
        let inner := g.goThrough (g.succs h) (p.enter h)
        let outer := g.goThrough rest (inner.1.finish h)
        ⟨outer.1, fun _ hk => outer.2 (inner.2 (.tail _ hk))⟩
termination_by todo p => ((g.unseen p.visited).length, todo.length)
decreasing_by
  · exact Prod.Lex.right _ (Nat.lt_succ_self _)
  · by_cases hlive : g.nodes.contains h = true
    · have hperm := (unseen_perm hlive ‹h ∉ p.visited›).length_eq
      exact Prod.Lex.left _ _ (by rw [hperm]; exact Nat.lt_succ_self _)
    · -- a handle without a block leads nowhere
      have hdead : g.succs h = [] := List.eq_nil_iff_forall_not_mem.2 fun k hk =>
        hlive (contains_of_mem_succs hk)
      refine Prod.Lex.right' _ (length_unseen_le (List.subset_cons_self _ _)) ?_
      rw [hdead]
      exact Nat.succ_pos _
  · refine Prod.Lex.right' _ (length_unseen_le fun k hk => ?_) (Nat.lt_succ_self _)
    exact inner.2 (.tail _ hk)

/-- What the search has come to when it has been through the blocks of the list. -/
def depthFirst (g : FlowGraph) (todo : List Handle) (p : Progress) : Progress :=
  (g.goThrough todo p).1

@[simp] theorem depthFirst_nil (p : Progress) : g.depthFirst [] p = p := by
  rw [depthFirst, goThrough]

theorem depthFirst_cons_visited (hh : h ∈ p.visited) :
    g.depthFirst (h :: rest) p = g.depthFirst rest p := by
  rw [depthFirst, goThrough, dif_pos hh, depthFirst]

theorem depthFirst_cons_new (hh : h ∉ p.visited) :
    g.depthFirst (h :: rest) p =
      g.depthFirst rest ((g.depthFirst (g.succs h) (p.enter h)).finish h) := by
  rw [depthFirst, goThrough, dif_neg hh, depthFirst, depthFirst]

theorem visited_subset_depthFirst (todo : List Handle) (p : Progress) :
    p.visited ⊆ (g.depthFirst todo p).visited := (g.goThrough todo p).2

/-- Induction over the course of a search. -/
@[elab_as_elim]
theorem depthFirst_induction (g : FlowGraph) {motive : List Handle → Progress → Prop}
    (nil : ∀ p, motive [] p)
    (visited : ∀ h rest p, h ∈ p.visited → motive rest p → motive (h :: rest) p)
    (new : ∀ h rest p, h ∉ p.visited → motive (g.succs h) (p.enter h) →
      motive rest ((g.depthFirst (g.succs h) (p.enter h)).finish h) → motive (h :: rest) p)
    (todo : List Handle) (p : Progress) : motive todo p :=
  goThrough.induct g motive nil visited
    (fun h rest p hh hinner houter _ => new h rest p hh hinner houter) todo p

/-! ### The loop over the visits -/

/-- The loop without a bound on its turns: how many it takes until no visit is left, and the order
that it comes to. -/
inductive WorksOff (g : FlowGraph) :
    Nat → List Visit → List Handle → List Handle → List Handle → Prop
  | done {visited order : List Handle} : WorksOff g 0 [] visited order order
  | finish {turns : Nat} {h : Handle} {visits : List Visit} {visited finished order : List Handle} :
      WorksOff g turns visits visited (h :: finished) order →
      WorksOff g (turns + 1) (.finish h :: visits) visited finished order
  | pass {turns : Nat} {h : Handle} {visits : List Visit} {visited finished order : List Handle} :
      h ∈ visited → WorksOff g turns visits visited finished order →
      WorksOff g (turns + 1) (.enter h :: visits) visited finished order
  | enter {turns : Nat} {h : Handle} {n : Node} {visits : List Visit}
      {visited finished order : List Handle} : h ∉ visited → g.nodes.get? h = some n →
      WorksOff g turns ((n.succs.filter (· ∉ h :: visited)).map .enter ++ .finish h :: visits)
        (h :: visited) finished order →
      WorksOff g (turns + 1) (.enter h :: visits) visited finished order

theorem WorksOff.searchFrom_eq {turns fuel : Nat} {visits : List Visit}
    {visited finished order : List Handle} (hw : g.WorksOff turns visits visited finished order)
    (hf : turns ≤ fuel) : g.searchFrom fuel visits visited finished = .ok order := by
  induction hw generalizing fuel with
  | done => simp [searchFrom]
  | finish _ ih =>
      obtain ⟨fuel, rfl⟩ := Nat.exists_eq_add_of_lt hf
      rw [searchFrom]
      exact ih (by omega)
  | pass hh _ ih =>
      obtain ⟨fuel, rfl⟩ := Nat.exists_eq_add_of_lt hf
      rw [searchFrom, if_pos hh]
      exact ih (by omega)
  | enter hh hn _ ih =>
      obtain ⟨fuel, rfl⟩ := Nat.exists_eq_add_of_lt hf
      simp only [searchFrom, if_neg hh, node_eq_ok_iff.2 hn]
      exact ih (by omega)

/-- The turns that entering the unseen blocks can still lead to: each is finished once, and each of
its edges is followed once. -/
def turnsAhead (g : FlowGraph) (visited : List Handle) : Nat :=
  ((g.unseen visited).map fun h => (g.succs h).length + 1).sum

theorem turnsAhead_eq {visited : List Handle} (hlive : g.nodes.contains h = true)
    (hh : h ∉ visited) :
    g.turnsAhead visited = (g.succs h).length + 1 + g.turnsAhead (h :: visited) := by
  rw [turnsAhead, ((unseen_perm hlive hh).map _).sum_nat, List.map_cons, List.sum_cons, turnsAhead]

theorem searchSteps_eq (g : FlowGraph) : g.searchSteps = 1 + g.turnsAhead [] := by
  have hfold : ∀ (l : List (Handle × Node)) (steps : Nat),
      l.foldl (fun steps p => steps + (p.2.succs.length + 1)) steps =
        steps + (l.map fun p => p.2.succs.length + 1).sum := by
    intro l
    induction l with
    | nil => simp
    | cons p rest ih =>
        intro steps
        rw [List.foldl_cons, ih, List.map_cons, List.sum_cons, Nat.add_assoc]
  have hsuccs : ∀ p ∈ g.nodes.entries, p.2.succs.length + 1 = (g.succs p.1).length + 1 := by
    intro p hp
    rw [succs_of_get? (g.nodes.mem_entries_iff.1 hp)]
  have hall : g.unseen [] = g.nodes.entries.map (·.1) := by simp [unseen, Arena.handles]
  rw [searchSteps, hfold, turnsAhead, hall, List.map_map, List.map_congr_left hsuccs]
  rfl

/-- Where only live blocks can be reached, the loop does with visits to the blocks of a list what
the search does with the list, apart from blocks that were entered before. -/
theorem exists_worksOff_depthFirst (g : FlowGraph) (todo : List Handle) (p : Progress)
    (hlive : ∀ t ∈ todo, ∀ k, g.Reaches t k → g.nodes.contains k = true) {skipped : List Handle}
    (hskipped : skipped ⊆ p.visited) {turns : Nat} {visits : List Visit} {order : List Handle}
    (hw : g.WorksOff turns visits (g.depthFirst todo p).visited (g.depthFirst todo p).order order) :
    ∃ turns', g.WorksOff turns' ((todo.filter (· ∉ skipped)).map .enter ++ visits) p.visited p.order
        order ∧
      turns' + g.turnsAhead (g.depthFirst todo p).visited ≤
        turns + (todo.filter (· ∉ skipped)).length + g.turnsAhead p.visited := by
  induction todo, p using depthFirst_induction g generalizing skipped turns visits with
  | nil p =>
      rw [depthFirst_nil] at hw ⊢
      exact ⟨turns, hw, Nat.le_refl _⟩
  | visited h rest p hh ih =>
      rw [depthFirst_cons_visited hh] at hw ⊢
      obtain ⟨turns', hw', hle⟩ := ih (List.forall_mem_cons.1 hlive).2 hskipped hw
      by_cases hs : h ∈ skipped
      · rw [List.filter_cons_of_neg (by simpa using hs)]
        exact ⟨turns', hw', hle⟩
      · rw [List.filter_cons_of_pos (by simpa using hs)]
        refine ⟨turns' + 1, .pass hh hw', ?_⟩
        rw [List.length_cons]
        omega
  | new h rest p hh hinner houter =>
      obtain ⟨hfirst, hrest⟩ := List.forall_mem_cons.1 hlive
      have hhlive := hfirst h .refl
      obtain ⟨n, hn⟩ := exists_node hhlive
      rw [depthFirst_cons_new hh] at hw ⊢
      -- backwards from the end: the rest of the list, the finish, the successors, the entering
      have hskipped' : skipped ⊆ (g.depthFirst (g.succs h) (p.enter h)).visited := fun k hk =>
        visited_subset_depthFirst _ _ (.tail _ (hskipped hk))
      obtain ⟨turns₁, hw₁, hle₁⟩ := houter hrest hskipped' hw
      rw [Progress.finish_visited, Progress.finish_order] at hw₁
      obtain ⟨turns₂, hw₂, hle₂⟩ := hinner (fun t ht k hk => hfirst k (.head ht hk))
        (List.Subset.refl (h :: p.visited)) (.finish hw₁)
      rw [List.filter_cons_of_pos (by simpa using fun hs => hh (hskipped hs))]
      refine ⟨turns₂ + 1, .enter hh hn ?_, ?_⟩
      · rwa [succs_of_get? hn] at hw₂
      · have hahead := turnsAhead_eq hhlive hh
        have hfewer := List.length_filter_le (fun k => decide (k ∉ h :: p.visited)) (g.succs h)
        rw [Progress.finish_visited] at hle₁
        rw [Progress.enter_visited] at hle₂
        rw [List.length_cons]
        omega

/-- The blocks that a search from the entry finishes, the first finished one first. -/
def postorder (g : FlowGraph) : List Handle := (g.depthFirst [g.entry] {}).postorder

/-- Where the entry reaches only live blocks, the loop ends within the bound, with the finished
blocks in reverse order. -/
theorem exists_worksOff_entry (hlive : ∀ k, g.Reaches g.entry k → g.nodes.contains k = true) :
    ∃ turns, g.WorksOff turns [.enter g.entry] [] [] g.postorder.reverse ∧
      turns ≤ g.searchSteps := by
  obtain ⟨turns, hw, hle⟩ := exists_worksOff_depthFirst g [g.entry] {} (by simpa using hlive)
    (List.Subset.refl []) .done
  refine ⟨turns, by simpa [postorder, Progress.order] using hw, ?_⟩
  have hone : ([g.entry].filter (· ∉ ([] : List Handle))).length = 1 := rfl
  rw [hone] at hle
  rw [searchSteps_eq]
  exact Nat.le_trans (Nat.le_add_right _ _) (by simpa using hle)

end AffineFlow.FlowGraph
