import AffineFlow.Proofs.DepthFirst.Order

/-!
# Siblings in reverse postorder

Two blocks that can only be come to from one and the same block are entered in
the order of its edges. The search is through with the first one before it enters
the second, so it finishes the first one earlier, and reverse postorder lists the
second one first: the children of a block stand in the opposite order of its
edges.
-/
namespace AffineFlow.FlowGraph

variable {g : FlowGraph} {b s t k : Handle} {todo last order : List Handle} {p : Progress}

theorem depthFirst_append (g : FlowGraph) (first second : List Handle) (p : Progress) :
    g.depthFirst (first ++ second) p = g.depthFirst second (g.depthFirst first p) := by
  induction first, p using depthFirst_induction g with
  | nil p => rw [depthFirst_nil, List.nil_append]
  | visited h rest p hh ih =>
      rw [List.cons_append, depthFirst_cons_visited hh, depthFirst_cons_visited hh, ih]
  | new h rest p hh _ ih =>
      rw [List.cons_append, depthFirst_cons_new hh, depthFirst_cons_new hh, ih]

/-! ### Blocks with one predecessor -/

/-- `b` is the only block that leads to `k`. -/
def OnlyFrom (g : FlowGraph) (b k : Handle) : Prop := ∀ h, k ∈ g.succs h → h = b

theorem onlyFrom_of_predecessors (hk : g.predecessors k = [b]) : g.OnlyFrom b k := fun h hh => by
  have hpred := mem_predecessors_iff.2 hh
  rwa [hk, List.mem_singleton] at hpred

namespace OnlyFrom

/-- A block that was not in the list is entered through the one block that leads to it. -/
theorem visited_depthFirst (hk : g.OnlyFrom b k) (hnew : k ∉ p.visited) (htodo : k ∉ todo)
    (hentered : k ∈ (g.depthFirst todo p).visited) :
    b ∉ p.visited ∧ b ∈ (g.depthFirst todo p).visited := by
  obtain hbefore | ⟨t, ht, hway⟩ := exists_way_depthFirst g todo p k hentered
  · exact absurd hbefore hnew
  · cases hway with
    | refl => exact absurd ht htodo
    | tail _ hedge =>
        obtain ⟨hfrom, hentered, hsucc⟩ := hedge
        obtain rfl := hk _ hsucc
        exact ⟨hfrom, hentered⟩

/-- Once `b` has been entered, nothing but its edges leads to the block. -/
theorem not_visited_depthFirst (hk : g.OnlyFrom b k) (hb : b ∈ p.visited) (hnew : k ∉ p.visited)
    (htodo : k ∉ todo) : k ∉ (g.depthFirst todo p).visited := fun hentered =>
  (hk.visited_depthFirst hnew htodo hentered).1 hb

end OnlyFrom

/-! ### The order of two blocks -/

/-- `t` is listed before `s`. -/
def Ahead (t s : Handle) (order : List Handle) : Prop :=
  ∃ first last, order = first ++ s :: last ∧ t ∈ first

namespace Ahead

theorem append_left (ha : Ahead t s order) (front : List Handle) : Ahead t s (front ++ order) := by
  obtain ⟨first, last, rfl, ht⟩ := ha
  exact ⟨front ++ first, last, (List.append_assoc ..).symm, List.mem_append_right _ ht⟩

/-- What is finished stays listed behind what is finished later. -/
theorem depthFirst (ha : Ahead t s p.order) (todo : List Handle) :
    Ahead t s (g.depthFirst todo p).order := by
  obtain ⟨found, hfound⟩ := exists_extends_depthFirst g todo p
  rw [hfound.order_eq]
  exact ha.append_left _

/-- The places of the two blocks. -/
theorem exists_places (ha : Ahead t s order) (hn : order.Nodup) :
    ∃ i j, (places order).lookup s = some i ∧ (places order).lookup t = some j ∧ j < i := by
  obtain ⟨first, last, rfl, ht⟩ := ha
  obtain ⟨j, hj⟩ := List.mem_iff_getElem?.1 ht
  have hlt : j < first.length := (List.getElem?_eq_some_iff.1 hj).1
  refine ⟨first.length, j, (lookup_places hn).2 ?_, (lookup_places hn).2 ?_, hlt⟩
  · rw [List.getElem?_append_right (Nat.le_refl _), Nat.sub_self]
    rfl
  · rw [List.getElem?_append_left hlt, hj]

/-- A block that is not entered through `s` is finished later when it comes later in the list. -/
theorem of_cons (hs : s ∉ p.visited)
    (ht : t ∉ (g.depthFirst (g.succs s) (p.enter s)).visited) (htlast : t ∈ last) :
    Ahead t s (g.depthFirst (s :: last) p).order := by
  rw [depthFirst_cons_new hs]
  obtain ⟨found, hfound⟩ := exists_extends_depthFirst g last
    ((g.depthFirst (g.succs s) (p.enter s)).finish s)
  have hentered := (hfound.mem_visited_iff t).1 (subset_visited_depthFirst g last _ htlast)
  refine ⟨found.reverse, (g.depthFirst (g.succs s) (p.enter s)).order, ?_, ?_⟩
  · rw [hfound.order_eq, Progress.finish_order]
  · exact List.mem_reverse.2 (hentered.resolve_left ht)

end Ahead

/-- Two blocks that only `b` leads to, by its edge to `s` before its edge to `t`. -/
structure Siblings (g : FlowGraph) (b s t : Handle) : Prop where
  onlyFrom : ∀ k ∈ [s, t], g.OnlyFrom b k
  ne : ∀ k ∈ [s, t], k ≠ b
  mem_succs : t ∈ g.succs b
  idxOf_lt : (g.succs b).idxOf s < (g.succs b).idxOf t

namespace Siblings

/-- The edge to `s` splits the edges of `b`: that to `t` is not among those before it. -/
theorem exists_split (hst : g.Siblings b s t) :
    ∃ first last, g.succs b = first ++ s :: last ∧ (∀ k ∈ [s, t], k ∉ first) ∧ t ≠ s ∧
      t ∈ last := by
  have hlt := hst.idxOf_lt
  have hs : s ∈ g.succs b :=
    List.idxOf_lt_length_iff.1 (Nat.lt_of_lt_of_le hlt List.idxOf_le_length)
  obtain ⟨first, last, hsplit, hsfirst⟩ := List.eq_append_cons_of_mem hs
  have ht := hst.mem_succs
  rw [hsplit] at hlt ht
  rw [List.idxOf_append_of_notMem hsfirst, List.idxOf_cons_self, Nat.add_zero] at hlt
  have htfirst : t ∉ first := fun hm => by
    rw [List.idxOf_append_of_mem hm] at hlt
    exact Nat.lt_asymm hlt (List.idxOf_lt_length_iff.2 hm)
  have hne : t ≠ s := by
    rintro rfl
    rw [List.idxOf_append_of_notMem hsfirst, List.idxOf_cons_self] at hlt
    exact Nat.lt_irrefl _ hlt
  exact ⟨first, last, hsplit, by simp [hsfirst, htfirst], hne, by simpa [htfirst, hne] using ht⟩

/-- When the edges of `b` are followed, `s` is finished before `t` is entered. -/
theorem ahead_succs (hst : g.Siblings b s t) (hnew : ∀ k ∈ [s, t], k ∉ p.visited) :
    Ahead t s (g.depthFirst (g.succs b) (p.enter b)).order := by
  obtain ⟨first, last, hsplit, hfirst, hne, htlast⟩ := hst.exists_split
  have hleft : ∀ k ∈ [s, t], k ∉ (g.depthFirst first (p.enter b)).visited := by
    intro k hk
    refine (hst.onlyFrom k hk).not_visited_depthFirst (.head _) (fun hm => ?_) (hfirst k hk)
    exact (List.mem_cons.1 hm).elim (hst.ne k hk) (hnew k hk)
  have hb : b ∈ (g.depthFirst first (p.enter b)).visited :=
    visited_subset_depthFirst _ _ (.head _)
  rw [hsplit, depthFirst_append]
  refine .of_cons (hleft s (.head _)) ?_ htlast
  refine (hst.onlyFrom t (.tail _ (.head _))).not_visited_depthFirst (.tail _ hb) (fun hm => ?_)
    fun hm => hst.ne s (.head _) (hst.onlyFrom t (.tail _ (.head _)) s hm)
  exact (List.mem_cons.1 hm).elim hne (hleft t (.tail _ (.head _)))

/-- Neither of the two blocks is entered before `b` is. -/
theorem ahead_depthFirst (hst : g.Siblings b s t) (todo : List Handle) (p : Progress)
    (hnew : ∀ k ∈ [s, t], k ∉ p.visited ∧ k ∉ todo) (hb : b ∉ p.visited)
    (hentered : b ∈ (g.depthFirst todo p).visited) :
    Ahead t s (g.depthFirst todo p).order := by
  induction todo, p using depthFirst_induction g with
  | nil p =>
      rw [depthFirst_nil] at hentered
      exact absurd hentered hb
  | visited h rest p hh ih =>
      rw [depthFirst_cons_visited hh] at hentered ⊢
      exact ih (fun k hk => (hnew k hk).imp_right fun hm hrest => hm (.tail _ hrest)) hb hentered
  | new h rest p hh hinner houter =>
      rw [depthFirst_cons_new hh] at hentered ⊢
      have hlater : Ahead t s (g.depthFirst (g.succs h) (p.enter h)).order →
          Ahead t s (g.depthFirst rest
            ((g.depthFirst (g.succs h) (p.enter h)).finish h)).order := fun ha => by
        refine Ahead.depthFirst ?_ rest
        rw [Progress.finish_order]
        exact ha.append_left [h]
      by_cases hhb : h = b
      · subst hhb
        exact hlater (hst.ahead_succs fun k hk => (hnew k hk).1)
      have hinside : ∀ k ∈ [s, t], k ∉ (p.enter h).visited ∧ k ∉ g.succs h := by
        intro k hk
        obtain ⟨hkp, hkh⟩ := hnew k hk
        refine ⟨fun hm => ?_, fun hm => hhb (hst.onlyFrom k hk h hm)⟩
        exact (List.mem_cons.1 hm).elim (fun he => hkh (he ▸ .head _)) hkp
      by_cases hmid : b ∈ (g.depthFirst (g.succs h) (p.enter h)).visited
      · have hbinside : b ∉ (p.enter h).visited := fun hm =>
          (List.mem_cons.1 hm).elim (fun he => hhb he.symm) hb
        exact hlater (hinner hinside hbinside hmid)
      · refine houter (fun k hk => ⟨fun hm => hmid ?_, fun hm => ?_⟩) hmid hentered
        · exact ((hst.onlyFrom k hk).visited_depthFirst (hinside k hk).1 (hinside k hk).2 hm).2
        · exact (hnew k hk).2 (.tail _ hm)

end Siblings

/-- Of two blocks other than the entry whose only predecessor is one reachable block other than
themselves, the one that comes first among the successors of that block has the later place in the
order. -/
theorem reversePostorder_siblings_reversed
    (hlive : ∀ h, g.Reaches g.entry h → g.nodes.contains h = true) (hb : g.Reaches g.entry b)
    (hs : g.predecessors s = [b]) (ht : g.predecessors t = [b]) (hse : s ≠ g.entry)
    (hte : t ≠ g.entry) (hsb : s ≠ b) (htb : t ≠ b)
    (hlt : (g.succs b).idxOf s < (g.succs b).idxOf t) :
    ∃ order i j, g.reversePostorder = .ok order ∧ (places order).lookup s = some i ∧
      (places order).lookup t = some j ∧ j < i := by
  obtain ⟨turns, hw, hle⟩ := exists_worksOff_entry hlive
  have hst : g.Siblings b s t :=
    { onlyFrom := by simp [onlyFrom_of_predecessors hs, onlyFrom_of_predecessors ht]
      ne := by simp [hsb, htb]
      mem_succs := mem_predecessors_iff.1 (by rw [ht]; exact .head _)
      idxOf_lt := hlt }
  have hahead := hst.ahead_depthFirst [g.entry] {} (by simp [hse, hte]) List.not_mem_nil
    (mem_visited_entry_iff.2 hb)
  obtain ⟨i, j, hi, hj, hlt⟩ :=
    hahead.exists_places (List.nodup_reverse.2 (postorder_nodup g))
  exact ⟨_, i, j, hw.searchFrom_eq hle, hi, hj, hlt⟩

/-- A loop whose head leads to two blocks, both of which lead to the end of the loop. -/
def forkInLoop : FlowGraph :=
  let entry : Handle := ⟨0, 0⟩
  let head : Handle := ⟨1, 1⟩
  let left : Handle := ⟨2, 2⟩
  let right : Handle := ⟨3, 3⟩
  let last : Handle := ⟨4, 4⟩
  let blocks := ((((singleton "entry").insertNode "head").insertNode "left").insertNode
    "right").insertNode "last"
  let edges := (((blocks.connect entry head).connect head left).connect head right)
  ((edges.connect left last).connect right last).connect last head

theorem reversePostorder_siblings_reversed_forkInLoop :
    (∀ h, forkInLoop.Reaches forkInLoop.entry h → forkInLoop.nodes.contains h = true) ∧
      forkInLoop.Reaches forkInLoop.entry ⟨1, 1⟩ ∧
      forkInLoop.predecessors ⟨2, 2⟩ = [⟨1, 1⟩] ∧ forkInLoop.predecessors ⟨3, 3⟩ = [⟨1, 1⟩] ∧
      ∃ order i j, forkInLoop.reversePostorder = .ok order ∧
        (places order).lookup ⟨2, 2⟩ = some i ∧ (places order).lookup ⟨3, 3⟩ = some j ∧ j < i := by
  have hg : forkInLoop.WellFormed := by decide
  have hlive : ∀ h, forkInLoop.Reaches forkInLoop.entry h → forkInLoop.nodes.contains h = true :=
    fun _ => hg.live_of_reaches
  have hhead : forkInLoop.Reaches forkInLoop.entry ⟨1, 1⟩ := .single (.head _)
  exact ⟨hlive, hhead, rfl, rfl, reversePostorder_siblings_reversed hlive hhead rfl rfl (by decide)
    (by decide) (by decide) (by decide) (by decide)⟩

/-- An entry with two successors. -/
def fork : FlowGraph :=
  let entry : Handle := ⟨0, 0⟩
  let left : Handle := ⟨1, 1⟩
  let right : Handle := ⟨2, 2⟩
  let blocks := ((singleton "entry").insertNode "left").insertNode "right"
  { (blocks.connect entry left).connect entry right with exit := right }

/-- The first successor has the last place. -/
theorem secondFirst_fork :
    fork.Closed ∧ fork.succs fork.entry = [⟨1, 1⟩, ⟨2, 2⟩] ∧
      fork.predecessors ⟨1, 1⟩ = [fork.entry] ∧ fork.predecessors ⟨2, 2⟩ = [fork.entry] ∧
      ∃ order, fork.reversePostorder = .ok order ∧ (places order).lookup ⟨1, 1⟩ = some 2 ∧
        (places order).lookup ⟨2, 2⟩ = some 1 := by
  have hg : fork.WellFormed := by decide
  exact ⟨hg.toClosed, rfl, rfl, rfl, _, rfl, rfl, rfl⟩

end AffineFlow.FlowGraph
