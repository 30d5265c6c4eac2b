import AffineFlow.Proofs.Assembly.Progress
import Mathlib.Data.List.Nodup

/-!
# The assembled graph

Every live block of the finished graph stands for a block of the code, for one
of its edges, or is the exit. The exit is the only returning block, or else a
new block that the returning blocks lead to.
-/
namespace AffineFlow

open Ssa

/-- The blocks of the pieces, then the blocks of their edges. -/
def occupied (place : BlockId → Handle) (pieces : List Piece) : List Handle :=
  pieces.map (·.home place) ++ pieces.flatMap (·.middles)

/-- Where a returning block goes. -/
def FlowGraph.out (g : FlowGraph) (h : Handle) : List Handle := if h = g.exit then [] else [g.exit]

/-- The graph consists of the pieces and an exit; `pre` comes before the first of them. -/
structure FlowGraph.Assembled (g : FlowGraph) (place : BlockId → Handle) (pieces : List Piece)
    (pre : List Stmt) : Prop where
  entry_eq : pieces.head?.map (·.home place) = some g.entry
  block : ∀ p ∈ pieces, g.HasBlock (p.home place)
    ((if p.home place = g.entry then pre else []) ++ p.code.stmts)
    (p.succs place (g.out (p.home place)))
  laid : ∀ p ∈ pieces, Assembly.EdgesLaid g place p.code.leaving.edges p.middles
  live : ∀ h, g.nodes.contains h = true ↔ h ∈ occupied place pieces ∨ h = g.exit
  distinct : (occupied place pieces).Nodup
  exit : g.exit ∉ occupied place pieces ∧ g.HasBlock g.exit [] [] ∨
    ∃ p ∈ pieces, p.returns = true ∧ p.home place = g.exit ∧
      ∀ q ∈ pieces, q.returns = true → q = p

theorem Piece.succs_of_not_returns {place : BlockId → Handle} {p : Piece} (out : List Handle)
    (hp : p.returns = false) : p.succs place out = p.succs place [] := by
  unfold Piece.returns at hp
  unfold Piece.succs
  cases hl : p.code.leaving with
  | returns => rw [hl] at hp; cases hp
  | stuck => rfl
  | jumps target => rfl
  | branches edges => rfl

theorem Piece.succs_of_returns {place : BlockId → Handle} {p : Piece} (out : List Handle)
    (hp : p.returns = true) : p.succs place out = out := by
  unfold Piece.returns at hp
  unfold Piece.succs
  cases hl : p.code.leaving with
  | returns => rfl
  | stuck => rw [hl] at hp; cases hp
  | jumps target => rw [hl] at hp; cases hp
  | branches edges => rw [hl] at hp; cases hp

namespace Assembly

variable {s : Assembly} {place : BlockId → Handle} {pieces : List Piece} {h k : Handle}

theorem used_nil (place : BlockId → Handle) (pieces : List Piece) :
    used place pieces [] = occupied place pieces := by
  simp [used, occupied]

theorem mem_occupied_home {p : Piece} (hp : p ∈ pieces) : p.home place ∈ occupied place pieces :=
  List.mem_append_left _ (List.mem_map_of_mem hp)

theorem mem_occupied_middle {p : Piece} (hp : p ∈ pieces) (hh : h ∈ p.middles) :
    h ∈ occupied place pieces :=
  List.mem_append_right _ (List.mem_flatMap.2 ⟨p, hp, hh⟩)

/-- No block of an edge is the block of a piece. -/
theorem home_ne_middle (hd : (occupied place pieces).Nodup) {p q : Piece} (hp : p ∈ pieces)
    (hq : q ∈ pieces) (hh : h ∈ q.middles) : h ≠ p.home place := by
  intro he
  subst he
  exact (List.nodup_append.1 hd).2.2 _ (List.mem_map_of_mem hp) _
    (List.mem_flatMap.2 ⟨q, hq, hh⟩) rfl

theorem home_injective (hd : (occupied place pieces).Nodup) {p q : Piece} (hp : p ∈ pieces)
    (hq : q ∈ pieces) (he : p.home place = q.home place) : p = q :=
  List.inj_on_of_nodup_map (List.nodup_append.1 hd).1 hp hq he

theorem get?_connectAll {hs : List Handle} {target : Handle} {g : FlowGraph} (hn : hs.Nodup) :
    (connectAll target hs g).nodes.get? k =
      if k ∈ hs then (g.nodes.get? k).map (·.connect target) else g.nodes.get? k := by
  induction hs generalizing g with
  | nil => simp [connectAll]
  | cons h rest ih =>
      obtain ⟨hh, hrest⟩ := List.nodup_cons.1 hn
      rw [connectAll, ih hrest, FlowGraph.get?_connect]
      by_cases he : k = h
      · simp [he, hh]
      · simp [he]

theorem connectAll_entry {hs : List Handle} {target : Handle} {g : FlowGraph} :
    (connectAll target hs g).entry = g.entry := by
  induction hs generalizing g with
  | nil => rfl
  | cons h rest ih => exact ih

variable (hb : Built s place pieces [])
include hb

theorem Built.returning_mem :
    h ∈ s.returning ↔ ∃ p ∈ pieces, p.returns = true ∧ p.home place = h := by
  rw [hb.returning_eq]
  simp [and_assoc]

theorem Built.entry_home : pieces.head?.map (·.home place) = some s.graph.entry := by
  have hentry := hb.entry_eq
  rw [List.append_nil, List.head?_map, Option.map_map] at hentry
  exact hentry

theorem Built.occupied_nodup : (occupied place pieces).Nodup := by
  have hd := hb.distinct
  rwa [used_nil] at hd

theorem Built.live_occupied : s.graph.nodes.contains k = true ↔ k ∈ occupied place pieces := by
  rw [hb.live, used_nil]

/-- A single returning block is the exit. -/
theorem Built.finish_single (hr : s.returning = [h]) : s.finish.Assembled place pieces [] := by
  have hfinish : s.finish = { s.graph with exit := h } := by rw [finish, hr]
  have hd := hb.occupied_nodup
  obtain ⟨p, hp, hret, hph⟩ := hb.returning_mem.1 (hr ▸ List.mem_singleton_self h)
  have honly : ∀ q ∈ pieces, q.returns = true → q = p := by
    intro q hq hqr
    have hmem := hb.returning_mem.2 ⟨q, hq, hqr, rfl⟩
    rw [hr, List.mem_singleton, ← hph] at hmem
    exact home_injective hd hq hp hmem
  rw [hfinish]
  refine ⟨hb.entry_home, fun q hq => ?_, hb.laid, fun k => ?_, hd, .inr ⟨p, hp, hret, hph, honly⟩⟩
  · have hblock := hb.block q hq
    rw [ite_self, List.nil_append]
    cases hqr : q.returns with
    | false =>
        rw [Piece.succs_of_not_returns _ hqr]
        exact hblock
    | true =>
        rw [Piece.succs_of_returns _ hqr] at hblock ⊢
        rw [FlowGraph.out, if_pos (honly q hq hqr ▸ hph)]
        exact hblock
  · apply hb.live_occupied.trans
    refine ⟨.inl, fun hk => hk.elim id fun hk => ?_⟩
    exact (hk.trans hph.symm) ▸ mem_occupied_home hp

/-- The exit that joins the returns is a new block. -/
theorem Built.nextHandle_not_mem : s.graph.nodes.nextHandle ∉ occupied place pieces := fun hm =>
  FlowGraph.ne_nextHandle (hb.live_occupied.2 hm) rfl

theorem Built.get?_joinReturns : s.joinReturns.nodes.get? k =
    if k ∈ s.returning then
      ((s.graph.insertNode "exit").nodes.get? k).map (·.connect s.graph.nodes.nextHandle)
    else (s.graph.insertNode "exit").nodes.get? k := by
  have hreturning : s.returning.Nodup := by
    rw [hb.returning_eq]
    exact (List.nodup_append.1 hb.occupied_nodup).1.sublist (List.filter_sublist.map _)
  exact get?_connectAll hreturning

theorem Built.get?_joinReturns_of_mem (hk : k ∈ occupied place pieces) :
    s.joinReturns.nodes.get? k =
      if k ∈ s.returning then
        (s.graph.nodes.get? k).map (·.connect s.graph.nodes.nextHandle)
      else s.graph.nodes.get? k := by
  have hne : k ≠ s.graph.nodes.nextHandle := fun he => hb.nextHandle_not_mem (he ▸ hk)
  rw [hb.get?_joinReturns, FlowGraph.get?_insertNode, if_neg hne]

theorem Built.hasBlock_exit : s.joinReturns.HasBlock s.graph.nodes.nextHandle [] [] := by
  have hunreturned : s.graph.nodes.nextHandle ∉ s.returning := by
    intro hm
    obtain ⟨p, hp, -, hph⟩ := hb.returning_mem.1 hm
    exact hb.nextHandle_not_mem (hph ▸ mem_occupied_home hp)
  refine ⟨(s.graph.labels.claim "exit").1, ?_⟩
  rw [hb.get?_joinReturns, if_neg hunreturned, FlowGraph.get?_insertNode, if_pos rfl]

theorem Built.live_joinReturns : s.joinReturns.nodes.contains k = true ↔
    k ∈ occupied place pieces ∨ k = s.graph.nodes.nextHandle := by
  by_cases he : k = s.graph.nodes.nextHandle
  · subst he
    exact ⟨fun _ => .inr rfl, fun _ => hb.hasBlock_exit.live⟩
  · have hkept : s.joinReturns.nodes.contains k = s.graph.nodes.contains k := by
      rw [Arena.contains, hb.get?_joinReturns, FlowGraph.get?_insertNode, if_neg he]
      split
      · exact Option.isSome_map
      · rfl
    rw [hkept, hb.live_occupied]
    exact ⟨.inl, fun hk => hk.elim id fun hk => absurd hk he⟩

/-- The returning blocks go on to the new exit. -/
theorem Built.joinReturns : s.joinReturns.Assembled place pieces [] := by
  have hd := hb.occupied_nodup
  have hexit : s.joinReturns.exit = s.graph.nodes.nextHandle := rfl
  have hentry : s.joinReturns.entry = s.graph.entry := connectAll_entry
  refine ⟨hentry.symm ▸ hb.entry_home, fun p hp => ?_, fun p hp => ?_,
    fun k => hb.live_joinReturns, hd, .inl ⟨hb.nextHandle_not_mem, hb.hasBlock_exit⟩⟩
  · have hmem : p.home place ∈ occupied place pieces := mem_occupied_home hp
    have hne : p.home place ≠ s.graph.nodes.nextHandle := fun he =>
      hb.nextHandle_not_mem (he ▸ hmem)
    obtain ⟨label, hl⟩ := hb.block p hp
    rw [ite_self, List.nil_append, FlowGraph.out, hexit, if_neg hne]
    refine ⟨label, ?_⟩
    rw [hb.get?_joinReturns_of_mem hmem, hl]
    cases hret : p.returns with
    | false =>
        have hstays : p.home place ∉ s.returning := by
          intro hm
          obtain ⟨q, hq, hqr, hqp⟩ := hb.returning_mem.1 hm
          obtain rfl := home_injective hd hq hp hqp
          cases hqr.symm.trans hret
        rw [if_neg hstays, Piece.succs_of_not_returns [s.graph.nodes.nextHandle] hret]
    | true =>
        rw [if_pos (hb.returning_mem.2 ⟨p, hp, hret, rfl⟩), Piece.succs_of_returns _ hret,
          Piece.succs_of_returns _ hret]
        rfl
  · apply (hb.laid p hp).congr
    intro m hm
    have hunreturned : m ∉ s.returning := by
      intro hm'
      obtain ⟨q, hq, -, hqm⟩ := hb.returning_mem.1 hm'
      exact home_ne_middle hd hq hp hm hqm.symm
    rw [hb.get?_joinReturns_of_mem (mem_occupied_middle hp hm), if_neg hunreturned]

theorem Built.finish : s.finish.Assembled place pieces [] := by
  by_cases hr : ∃ h, s.returning = [h]
  · obtain ⟨h, hr⟩ := hr
    exact hb.finish_single hr
  · have hfinish : s.finish = s.joinReturns := by
      unfold Assembly.finish
      split
      next h hh => exact absurd ⟨h, hh⟩ hr
      next => rfl
    rw [hfinish]
    exact hb.joinReturns

end Assembly

/-- Statements put before the entry come before the first piece. -/
theorem FlowGraph.Assembled.prepend {g : FlowGraph} {place : BlockId → Handle}
    {pieces : List Piece} (hg : g.Assembled place pieces []) (pre : List Stmt)
    (decl : Option Declaration) :
    FlowGraph.Assembled { g.prepend g.entry pre with decl } place pieces pre := by
  obtain ⟨first, hfirst, hhome⟩ := Option.map_eq_some_iff.1 hg.entry_eq
  have hfirst := List.mem_of_mem_head? hfirst
  have hget : ∀ k, (g.prepend g.entry pre).nodes.get? k =
      if k = g.entry then (g.nodes.get? k).map (·.prepend pre) else g.nodes.get? k :=
    fun k => g.get?_prepend pre
  have hlive : ∀ k, (g.prepend g.entry pre).nodes.contains k = g.nodes.contains k := by
    intro k
    rw [Arena.contains, hget]
    split
    · exact Option.isSome_map
    · rfl
  refine ⟨hg.entry_eq, fun p hp => ?_, fun p hp => ?_, fun k => ?_, hg.distinct, ?_⟩
  · obtain ⟨label, hl⟩ := hg.block p hp
    refine ⟨label, (hget _).trans ?_⟩
    rw [hl, ite_self, List.nil_append]
    show _ = some (Node.mk label ((if p.home place = g.entry then pre else []) ++ p.code.stmts) _)
    split
    · rfl
    · rfl
  · refine (hg.laid p hp).congr fun m hm => (hget m).trans (if_neg ?_)
    exact hhome ▸ Assembly.home_ne_middle hg.distinct hfirst hp hm
  · exact (hlive k).symm ▸ hg.live k
  · apply hg.exit.imp_left
    intro h
    obtain ⟨hexit, hb⟩ := h
    refine ⟨hexit, hb.congr ((hget _).trans (if_neg fun he => ?_))⟩
    exact hexit (he ▸ hhome ▸ Assembly.mem_occupied_home hfirst)

end AffineFlow
