import AffineFlow.Proofs.DepthFirst.Recursion
import Mathlib.Data.List.Nodup

/-!
# The order of a depth-first search

What a search has finished is what it has entered, and what it enters it comes
to through blocks that it enters as well. A block is finished after everything
that its edges lead to, unless the search is still going through that block: then
the edge closes a cycle. So in reverse postorder every edge leads onwards or is
part of a cycle.
-/
namespace AffineFlow.FlowGraph

variable {g : FlowGraph} {h k : Handle} {todo found : List Handle} {p q r : Progress}

/-- The search has finished the blocks of `found` in between, and those are the ones that it has
entered. -/
structure Progress.Extends (p q : Progress) (found : List Handle) : Prop where
  postorder_eq : q.postorder = p.postorder ++ found
  mem_visited_iff : ∀ h, h ∈ q.visited ↔ h ∈ p.visited ∨ h ∈ found
  nodup : found.Nodup
  fresh : ∀ h ∈ found, h ∉ p.visited

namespace Progress.Extends

theorem refl (p : Progress) : p.Extends p [] :=
  ⟨(List.append_nil _).symm, by simp, .nil, by simp⟩

/-- What is finished later is listed further in front. -/
theorem order_eq (h : p.Extends q found) : q.order = found.reverse ++ p.order := by
  rw [order, h.postorder_eq, List.reverse_append, order]

/-- A block is entered, the search goes on from it, the block is finished, and the search goes on
with what was left to do. -/
theorem enter_finish {found' : List Handle} (hh : h ∉ p.visited)
    (hinner : (p.enter h).Extends q found) (houter : (q.finish h).Extends r found') :
    p.Extends r (found ++ h :: found') := by
  have hmem : ∀ k, k ∈ q.visited ↔ k ∈ h :: p.visited ∨ k ∈ found := hinner.mem_visited_iff
  have hafter : ∀ k ∈ found', k ∉ q.visited := houter.fresh
  refine ⟨?_, fun k => ?_, ?_, fun k hk hseen => ?_⟩
  · rw [houter.postorder_eq, finish, hinner.postorder_eq]
    simp [enter]
  · rw [houter.mem_visited_iff, finish_visited, hmem]
    simp only [List.mem_cons, List.mem_append]
    tauto
  · rw [List.nodup_append, List.nodup_cons]
    refine ⟨hinner.nodup, ⟨fun hm => hafter h hm ((hmem h).2 (.inl (.head _))), houter.nodup⟩, ?_⟩
    rintro k hk m hm rfl
    rcases List.mem_cons.1 hm with rfl | hm
    · exact hinner.fresh k hk (.head _)
    · exact hafter k hm ((hmem k).2 (.inr hk))
  · rcases List.mem_append.1 hk with hk | hk
    · exact hinner.fresh k hk (.tail _ hseen)
    · rcases List.mem_cons.1 hk with rfl | hk
      · exact hh hseen
      · exact hafter k hk ((hmem k).2 (.inl (.tail _ hseen)))

end Progress.Extends

theorem exists_extends_depthFirst (g : FlowGraph) (todo : List Handle) (p : Progress) :
    ∃ found, p.Extends (g.depthFirst todo p) found := by
  induction todo, p using depthFirst_induction g with
  | nil p =>
      rw [depthFirst_nil]
      exact ⟨[], .refl p⟩
  | visited h rest p hh ih => rwa [depthFirst_cons_visited hh]
  | new h rest p hh hinner houter =>
      obtain ⟨found, hfound⟩ := hinner
      obtain ⟨found', hfound'⟩ := houter
      rw [depthFirst_cons_new hh]
      exact ⟨_, hfound.enter_finish hh hfound'⟩

/-- The blocks of the list have been entered in the end. -/
theorem subset_visited_depthFirst (g : FlowGraph) (todo : List Handle) (p : Progress) :
    todo ⊆ (g.depthFirst todo p).visited := by
  induction todo, p using depthFirst_induction g with
  | nil p => exact List.nil_subset _
  | visited h rest p hh ih =>
      rw [depthFirst_cons_visited hh]
      exact List.cons_subset.2 ⟨visited_subset_depthFirst _ _ hh, ih⟩
  | new h rest p hh _ ih =>
      rw [depthFirst_cons_new hh]
      refine List.cons_subset.2 ⟨visited_subset_depthFirst _ _ ?_, ih⟩
      exact visited_subset_depthFirst (g.succs h) (p.enter h) (.head _)

/-- A block is only left when all its successors have been entered. -/
theorem succs_subset_visited_depthFirst (g : FlowGraph) (todo : List Handle) (p : Progress) :
    ∀ h ∈ (g.depthFirst todo p).visited, h ∉ p.visited →
      g.succs h ⊆ (g.depthFirst todo p).visited := by
  induction todo, p using depthFirst_induction g with
  | nil p =>
      intro k hk hnew
      rw [depthFirst_nil] at hk
      exact absurd hk hnew
  | visited h rest p hh ih => rwa [depthFirst_cons_visited hh]
  | new h rest p hh hinner houter =>
      rw [depthFirst_cons_new hh]
      intro k hk hnew
      have honwards : (g.depthFirst (g.succs h) (p.enter h)).visited ⊆ _ :=
        visited_subset_depthFirst (g := g) rest ((g.depthFirst (g.succs h) (p.enter h)).finish h)
      by_cases hmid : k ∈ (g.depthFirst (g.succs h) (p.enter h)).visited
      · by_cases hkh : k = h
        · subst hkh
          exact List.Subset.trans (subset_visited_depthFirst _ _ _) honwards
        · exact List.Subset.trans (hinner k hmid (by simp [hkh, hnew])) honwards
      · exact houter k hk hmid

/-- An edge from a block that was entered between `p` and `q`. -/
def EdgeBetween (g : FlowGraph) (p q : Progress) (h k : Handle) : Prop :=
  h ∉ p.visited ∧ h ∈ q.visited ∧ g.Edge h k

/-- A way through blocks that were entered in some time, entered in a longer time. -/
theorem way_mono {p' q' : Progress} (hp : p.visited ⊆ p'.visited) (hq : q'.visited ⊆ q.visited)
    (hway : Relation.ReflTransGen (g.EdgeBetween p' q') h k) :
    Relation.ReflTransGen (g.EdgeBetween p q) h k :=
  Relation.ReflTransGen.mono
    (fun _ _ hedge => ⟨fun hm => hedge.1 (hp hm), hq hedge.2.1, hedge.2.2⟩) h k hway

/-- The search comes to every block that it enters from a block of the list, on a way through blocks
that it enters as well. -/
theorem exists_way_depthFirst (g : FlowGraph) (todo : List Handle) (p : Progress) :
    ∀ k ∈ (g.depthFirst todo p).visited, k ∈ p.visited ∨
      ∃ t ∈ todo, Relation.ReflTransGen (g.EdgeBetween p (g.depthFirst todo p)) t k := by
  induction todo, p using depthFirst_induction g with
  | nil p =>
      intro k hk
      rw [depthFirst_nil] at hk
      exact .inl hk
  | visited h rest p hh ih =>
      rw [depthFirst_cons_visited hh]
      intro k hk
      refine (ih k hk).imp id fun hway => ?_
      obtain ⟨t, ht, hway⟩ := hway
      exact ⟨t, .tail _ ht, hway⟩
  | new h rest p hh hinner houter =>
      rw [depthFirst_cons_new hh]
      have hbefore : p.visited ⊆ (g.depthFirst (g.succs h) (p.enter h)).visited := fun m hm =>
        visited_subset_depthFirst _ _ (.tail _ hm)
      have hafter : (g.depthFirst (g.succs h) (p.enter h)).visited ⊆ _ :=
        visited_subset_depthFirst (g := g) rest ((g.depthFirst (g.succs h) (p.enter h)).finish h)
      have hentered : h ∈ (g.depthFirst (g.succs h) (p.enter h)).visited :=
        visited_subset_depthFirst _ _ (.head _)
      intro k hk
      rcases houter k hk with hk | ⟨t, ht, hway⟩
      · rcases hinner k hk with hk | ⟨t, ht, hway⟩
        · rcases List.mem_cons.1 hk with rfl | hk
          · exact .inr ⟨k, .head _, .refl⟩
          · exact .inl hk
        · refine .inr ⟨h, .head _, .head ⟨hh, hafter hentered, ht⟩ (way_mono ?_ hafter hway)⟩
          exact List.subset_cons_self _ _
      · exact .inr ⟨t, .tail _ ht, way_mono hbefore (List.Subset.refl _) hway⟩

/-- Every edge from a block of the list leads to a later one or to a block that leads back. -/
def EdgesReturn (g : FlowGraph) : List Handle → Prop
  | [] => True
  | h :: rest => (∀ k ∈ g.succs h, k ∈ rest ∨ g.Reaches k h) ∧ EdgesReturn g rest

/-- What is entered and not finished leads to everything that is left to do; an edge back to such a
block closes a cycle. -/
theorem edgesReturn_depthFirst (g : FlowGraph) (todo : List Handle) (p : Progress)
    (hopen : ∀ k ∈ p.visited, k ∉ p.postorder → ∀ t ∈ todo, g.Reaches k t)
    (hp : g.EdgesReturn p.order) : g.EdgesReturn (g.depthFirst todo p).order := by
  induction todo, p using depthFirst_induction g with
  | nil p => rwa [depthFirst_nil]
  | visited h rest p hh ih =>
      rw [depthFirst_cons_visited hh]
      exact ih (fun k hk hleft t ht => hopen k hk hleft t (.tail _ ht)) hp
  | new h rest p hh hinner houter =>
      obtain ⟨found, hfound⟩ := exists_extends_depthFirst g (g.succs h) (p.enter h)
      -- what is open when the successors have been gone through was open before, or is `h`
      have hstillOpen : ∀ k ∈ (g.depthFirst (g.succs h) (p.enter h)).visited,
          k ∉ (g.depthFirst (g.succs h) (p.enter h)).postorder →
            k = h ∨ k ∈ p.visited ∧ k ∉ p.postorder := by
        intro k hk hleft
        rw [hfound.postorder_eq, List.mem_append, not_or] at hleft
        have hbefore := ((hfound.mem_visited_iff k).1 hk).resolve_right hleft.2
        exact (List.mem_cons.1 hbefore).imp id fun hk => ⟨hk, hleft.1⟩
      rw [depthFirst_cons_new hh]
      refine houter (fun k hk hleft t ht => ?_) ?_
      · have hleft' : k ∉ (g.depthFirst (g.succs h) (p.enter h)).postorder ∧ k ≠ h := by
          simpa [Progress.finish] using hleft
        obtain ⟨hk, hnot⟩ := (hstillOpen k hk hleft'.1).resolve_left hleft'.2
        exact hopen k hk hnot t (.tail _ ht)
      · rw [Progress.finish_order]
        refine ⟨fun k hk => ?_, hinner (fun k hk hleft t ht => ?_) hp⟩
        · by_cases hdone : k ∈ (g.depthFirst (g.succs h) (p.enter h)).postorder
          · exact .inl (List.mem_reverse.2 hdone)
          · right
            obtain rfl | ⟨hk, hnot⟩ := hstillOpen k (subset_visited_depthFirst _ _ _ hk) hdone
            · exact .refl
            · exact hopen k hk hnot h (.head _)
        · rcases List.mem_cons.1 hk with rfl | hk
          · exact .single ht
          · exact (hopen k hk hleft h (.head _)).tail ht

/-! ### Places -/

/-- Places and blocks determine each other. -/
theorem lookup_places {order : List Handle} (hn : order.Nodup) {i : Nat} :
    (places order).lookup h = some i ↔ order[i]? = some h := by
  have hsound : ∀ j, (places order).lookup h = some j → order[j]? = some h := by
    intro j hj
    obtain ⟨before, after, hsplit, -⟩ := List.lookup_eq_some_iff.1 hj
    have hmem : (h, j) ∈ order.zipIdx := by
      rw [show order.zipIdx = before ++ (h, j) :: after from hsplit]
      simp
    exact List.mem_zipIdx_iff_getElem?.1 hmem
  refine ⟨hsound i, fun hi => ?_⟩
  have hlisted : ((places order).lookup h).isSome = true :=
    List.lookup_isSome_iff.2 ⟨(h, i), List.mem_zipIdx_iff_getElem?.2 hi, beq_self_eq_true h⟩
  obtain ⟨j, hj⟩ := Option.isSome_iff_exists.1 hlisted
  have hbound : i < order.length := (List.getElem?_eq_some_iff.1 hi).1
  rw [hj, (List.getElem?_inj hbound hn).1 (hi.trans (hsound j hj).symm)]

namespace EdgesReturn

variable {order : List Handle} {i j : Nat}

theorem mem_drop_or_reaches (he : g.EdgesReturn order) (hi : order[i]? = some h)
    (hk : k ∈ g.succs h) : k ∈ order.drop (i + 1) ∨ g.Reaches k h := by
  induction order generalizing i with
  | nil => simp at hi
  | cons m rest ih =>
      cases i with
      | zero =>
          obtain rfl := Option.some.inj hi
          exact he.1 k hk
      | succ i => exact ih he.2 hi

/-- An edge that does not lead onwards leads to a block that leads back. -/
theorem reaches (he : g.EdgesReturn order) (hn : order.Nodup) (hi : order[i]? = some h)
    (hj : order[j]? = some k) (hk : k ∈ g.succs h) (hle : j ≤ i) : g.Reaches k h := by
  refine (he.mem_drop_or_reaches hi hk).resolve_left fun hlater => ?_
  obtain ⟨m, hm⟩ := List.mem_iff_getElem?.1 hlater
  rw [List.getElem?_drop] at hm
  have hbound : j < order.length := (List.getElem?_eq_some_iff.1 hj).1
  have hsame := (List.getElem?_inj hbound hn).1 (hj.trans hm.symm)
  omega

end EdgesReturn

theorem order_cons_entry (g : FlowGraph) :
    ∃ rest, g.postorder.reverse = g.entry :: rest := by
  have hnew : g.entry ∉ ({} : Progress).visited := List.not_mem_nil
  have hsearch : g.depthFirst [g.entry] {} = _ := depthFirst_cons_new hnew
  have hfirst := congrArg Progress.order hsearch
  rw [depthFirst_nil, Progress.finish_order] at hfirst
  exact ⟨_, hfirst⟩

theorem mem_visited_entry_iff :
    h ∈ (g.depthFirst [g.entry] {}).visited ↔ g.Reaches g.entry h := by
  constructor
  · intro hh
    obtain hh | ⟨t, ht, hway⟩ := exists_way_depthFirst g [g.entry] {} h hh
    · exact absurd hh List.not_mem_nil
    · obtain rfl := List.mem_singleton.1 ht
      exact Relation.ReflTransGen.mono (fun _ _ hedge => hedge.2.2) _ _ hway
  · intro hreach
    induction hreach with
    | refl => exact subset_visited_depthFirst g _ _ (.head _)
    | tail _ hedge ih =>
        exact succs_subset_visited_depthFirst g [g.entry] {} _ ih List.not_mem_nil hedge

/-- What the search finishes is what it enters. -/
theorem extends_postorder (g : FlowGraph) :
    Progress.Extends {} (g.depthFirst [g.entry] {}) g.postorder := by
  obtain ⟨found, hfound⟩ := exists_extends_depthFirst g [g.entry] {}
  have heq : g.postorder = found := hfound.postorder_eq
  rwa [heq]

theorem postorder_nodup (g : FlowGraph) : g.postorder.Nodup := (extends_postorder g).nodup

theorem mem_postorder_iff : h ∈ g.postorder ↔ g.Reaches g.entry h := by
  rw [← mem_visited_entry_iff, (extends_postorder g).mem_visited_iff]
  exact (or_iff_right List.not_mem_nil).symm

theorem edgesReturn_postorder (g : FlowGraph) : g.EdgesReturn g.postorder.reverse :=
  edgesReturn_depthFirst g [g.entry] {} (by simp) trivial

/-- The reachable blocks, in whatever order, and the others are the live blocks. -/
theorem listed_append_unlisted {order : List Handle} (hn : order.Nodup)
    (hlive : ∀ h ∈ order, g.nodes.contains h = true) :
    (order ++ g.unlisted order).Nodup ∧
      ∀ h, h ∈ order ++ g.unlisted order ↔ g.nodes.contains h = true := by
  refine ⟨List.nodup_append.2 ⟨hn, g.nodes.handles_nodup.filter _, ?_⟩, fun h => ?_⟩
  · rintro h hh k hk rfl
    simp [unlisted, hh] at hk
  · by_cases hh : h ∈ order
    · simp [hh, hlive h hh]
    · simp [hh, unlisted, Arena.mem_handles_iff]

/-- Where the entry reaches only live blocks, the loop ends, with the reverse of the order in which
the search by recursion finishes the blocks. This order starts with the entry and has each reachable
block once and no other; the places are those of the blocks in it. An edge that does not lead to a
later place leads to a block that leads back, so without cycles every edge leads to a later place.
With the unlisted blocks behind it, the order has each live block once. -/
theorem reversePostorder_eq_reverse_postorder
    (hlive : ∀ h, g.Reaches g.entry h → g.nodes.contains h = true) :
    ∃ turns order, g.WorksOff turns [.enter g.entry] [] [] order ∧ turns ≤ g.searchSteps ∧
      g.reversePostorder = .ok order ∧
      order = (g.depthFirst [g.entry] {}).postorder.reverse ∧
      order.head? = some g.entry ∧ order.Nodup ∧ (∀ h, h ∈ order ↔ g.Reaches g.entry h) ∧
      (∀ h i, (places order).lookup h = some i ↔ order[i]? = some h) ∧
      (∀ h k i j, g.Edge h k → (places order).lookup h = some i →
        (places order).lookup k = some j → j ≤ i → g.Reaches k h) ∧
      ((∀ h, g.Reaches g.entry h → ¬Relation.TransGen g.Edge h h) →
        ∀ h k i j, g.Edge h k → (places order).lookup h = some i →
          (places order).lookup k = some j → i < j) ∧
      (order ++ g.unlisted order).Nodup ∧
      ∀ h, h ∈ order ++ g.unlisted order ↔ g.nodes.contains h = true := by
  obtain ⟨turns, hw, hle⟩ := exists_worksOff_entry hlive
  obtain ⟨rest, hfirst⟩ := order_cons_entry g
  have hnodup : g.postorder.reverse.Nodup := List.nodup_reverse.2 (postorder_nodup g)
  have hmem : ∀ h, h ∈ g.postorder.reverse ↔ g.Reaches g.entry h := fun h =>
    List.mem_reverse.trans mem_postorder_iff
  have hback : ∀ h k i j, g.Edge h k → (places g.postorder.reverse).lookup h = some i →
      (places g.postorder.reverse).lookup k = some j → j ≤ i → g.Reaches k h := by
    intro h k i j hedge hi hj hle
    exact (edgesReturn_postorder g).reaches hnodup ((lookup_places hnodup).1 hi)
      ((lookup_places hnodup).1 hj) hedge hle
  obtain ⟨hall, hallMem⟩ := listed_append_unlisted hnodup fun h hh => hlive h ((hmem h).1 hh)
  refine ⟨turns, g.postorder.reverse, hw, hle, hw.searchFrom_eq hle, rfl, by rw [hfirst]; rfl,
    hnodup, hmem, fun h i => lookup_places hnodup, hback, ?_, hall, hallMem⟩
  intro hacyclic h k i j hedge hi hj
  by_contra hnot
  have hreach : g.Reaches g.entry h :=
    (hmem h).1 (List.mem_of_getElem? ((lookup_places hnodup).1 hi))
  -- the edge and the way back are a cycle
  exact hacyclic h hreach (.head' hedge (hback h k i j hedge hi hj (Nat.le_of_not_lt hnot)))

/-- Two ways to a block that goes back to the entry, and a block that nothing leads to. -/
def diamond : FlowGraph :=
  let entry : Handle := ⟨0, 0⟩
  let left : Handle := ⟨1, 1⟩
  let right : Handle := ⟨2, 2⟩
  let join : Handle := ⟨3, 3⟩
  let orphan : Handle := ⟨4, 4⟩
  let blocks := ((((singleton "entry").insertNode "left").insertNode "right").insertNode
    "join").insertNode "orphan"
  let edges := ((blocks.connect entry left).connect entry right).connect left join
  ((edges.connect right join).connect join entry).connect orphan join

theorem reversePostorder_eq_reverse_postorder_diamond :
    (∀ h, diamond.Reaches diamond.entry h → diamond.nodes.contains h = true) ∧
      diamond.reversePostorder = .ok [⟨0, 0⟩, ⟨2, 2⟩, ⟨1, 1⟩, ⟨3, 3⟩] ∧
      (diamond.depthFirst [diamond.entry] {}).postorder = [⟨3, 3⟩, ⟨1, 1⟩, ⟨2, 2⟩, ⟨0, 0⟩] ∧
      ¬diamond.Reaches diamond.entry ⟨4, 4⟩ ∧ diamond.Reaches ⟨0, 0⟩ ⟨3, 3⟩ := by
  have hg : diamond.WellFormed := by decide
  have hlive : ∀ h, diamond.Reaches diamond.entry h → diamond.nodes.contains h = true :=
    fun _ => hg.live_of_reaches
  obtain ⟨turns, order, -, -, horder, hsearch, -, -, hmem, -, hback, -⟩ :=
    reversePostorder_eq_reverse_postorder hlive
  have hrun : diamond.reversePostorder = .ok [⟨0, 0⟩, ⟨2, 2⟩, ⟨1, 1⟩, ⟨3, 3⟩] := by decide
  obtain rfl := Except.ok.inj (hrun.symm.trans horder)
  refine ⟨hlive, hrun, ?_, fun hreach => absurd ((hmem _).2 hreach) (by decide), ?_⟩
  · rw [← List.reverse_reverse (diamond.depthFirst [diamond.entry] {}).postorder, ← hsearch]
    rfl
  · -- the edge from the join back to the entry does not lead onwards
    exact hback ⟨3, 3⟩ ⟨0, 0⟩ 3 0 (.head _) rfl rfl (by decide)

end AffineFlow.FlowGraph
