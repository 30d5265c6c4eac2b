import AffineFlow.Proofs.Assembly.Growth

/-!
# The progress of assembly

While the blocks are added one after the other, the blocks of the code so far
are complete, those of the rest are blank, and all of them are different.
-/
namespace AffineFlow

open Ssa

namespace Leaving

/-- The conditional edges. -/
def edges : Leaving → List EdgeCode
  | .branches edges => edges
  | _ => []

def isReturn : Leaving → Bool
  | .returns => true
  | _ => false

end Leaving

/-- The code of a block with the blocks of its edges. -/
structure Piece where
  code : BlockCode
  middles : List Handle

namespace Piece

/-- The successors of the block, if a return goes on to `out`. -/
def succs (place : BlockId → Handle) (out : List Handle) (p : Piece) : List Handle :=
  match p.code.leaving with
  | .returns => out
  | .stuck => []
  | .jumps target => [place target]
  | .branches _ => p.middles

/-- The block of the graph. -/
def home (place : BlockId → Handle) (p : Piece) : Handle := place p.code.source

def returns (p : Piece) : Bool := p.code.leaving.isReturn

end Piece

namespace Assembly

variable {s s' : Assembly} {place : BlockId → Handle} {done : List Piece} {todo : List BlockId}
  {h : Handle}

/-- The blocks of the pieces and the blank ones, then the blocks of edges. -/
def used (place : BlockId → Handle) (done : List Piece) (todo : List BlockId) : List Handle :=
  (done.map (·.home place) ++ todo.map place) ++ done.flatMap (·.middles)

/-- The code of `done` has been added, and the blocks of `todo` are blank. -/
structure Built (s : Assembly) (place : BlockId → Handle) (done : List Piece)
    (todo : List BlockId) : Prop where
  handle_eq : s.handle = place
  block : ∀ p ∈ done, s.graph.HasBlock (p.home place) p.code.stmts (p.succs place [])
  laid : ∀ p ∈ done, EdgesLaid s.graph place p.code.leaving.edges p.middles
  blank : ∀ id ∈ todo, s.graph.HasBlock (place id) [] []
  live : ∀ h, s.graph.nodes.contains h = true ↔ h ∈ used place done todo
  distinct : (used place done todo).Nodup
  returning_eq : s.returning = (done.filter (·.returns)).map (·.home place)
  entry_eq : ((done.map (·.code.source) ++ todo).head?).map place = some s.graph.entry

/-- What adding a block does to the graph: `p` is the block with the blocks of its edges. -/
structure BlockAdded (s s' : Assembly) (p : Piece) : Prop extends Keeps s s' where
  block : s'.graph.HasBlock (p.home s.handle) p.code.stmts (p.succs s.handle [])
  laid : EdgesLaid s'.graph s.handle p.code.leaving.edges p.middles
  nodup : p.middles.Nodup
  fresh : ∀ m ∈ p.middles, s.graph.nodes.contains m = false
  other : ∀ k, k ≠ p.home s.handle → k ∉ p.middles →
    s'.graph.nodes.get? k = s.graph.nodes.get? k
  returning_eq : s'.returning = s.returning ++ if p.returns then [p.home s.handle] else []

theorem addBlock_spec (code : BlockCode) (hb : s.graph.HasBlock (s.handle code.source) [] []) :
    ∃ middles, BlockAdded s (s.addBlock code) ⟨code, middles⟩ := by
  obtain ⟨id, stmts, leaving⟩ := code
  obtain ⟨label, hl⟩ := hb
  have hfilled : (s.graph.append (s.handle id) stmts).HasBlock (s.handle id) stmts [] := by
    refine ⟨label, ?_⟩
    rw [FlowGraph.get?_append, if_pos rfl, hl]
    rfl
  have hother : ∀ k, k ≠ s.handle id →
      (s.graph.append (s.handle id) stmts).nodes.get? k = s.graph.nodes.get? k := by
    intro k hk
    rw [FlowGraph.get?_append, if_neg hk]
  cases leaving with
  | returns =>
      exact ⟨[], ⟨rfl, rfl⟩, hfilled, .nil, .nil, by simp, fun k hk _ => hother k hk, rfl⟩
  | stuck =>
      exact ⟨[], ⟨rfl, rfl⟩, hfilled, .nil, .nil, by simp, fun k hk _ => hother k hk,
        (List.append_nil _).symm⟩
  | jumps target =>
      refine ⟨[], ⟨rfl, rfl⟩, ?_, .nil, .nil, by simp, fun k hk _ => ?_,
        (List.append_nil _).symm⟩
      · obtain ⟨label, hl⟩ := hfilled
        refine ⟨label, ?_⟩
        show ((s.graph.append (s.handle id) stmts).connect _ (s.handle target)).nodes.get? _ = _
        rw [FlowGraph.get?_connect]
        show (if s.handle id = s.handle id then _ else _) = _
        rw [if_pos rfl, show Piece.home s.handle _ = s.handle id from rfl, hl]
        rfl
      · show ((s.graph.append (s.handle id) stmts).connect _ (s.handle target)).nodes.get? _ = _
        rw [FlowGraph.get?_connect, show s.handle = (Assembly.handle s) from rfl]
        exact (if_neg hk).trans (hother k hk)
  | branches edges =>
      let filled : Assembly := { s with graph := s.graph.append (s.handle id) stmts }
      obtain ⟨middles, hadded, hblock⟩ :=
        addEdges_spec (s := filled) edges hfilled (by simp)
      have hfresh : ∀ m ∈ middles, m ≠ s.handle id ∧ s.graph.nodes.contains m = false := by
        intro m hm
        have hdead := hadded.fresh m hm
        have hne : m ≠ s.handle id := by
          intro he
          subst he
          simp [filled, hfilled.live] at hdead
        refine ⟨hne, ?_⟩
        rwa [Arena.contains, hother m hne] at hdead
      refine ⟨middles, ⟨hadded.placed_eq, hadded.entry_eq⟩, hblock, hadded.laid, hadded.nodup,
        fun m hm => (hfresh m hm).2, fun k hk hk' => ?_,
        hadded.returning_eq.trans (List.append_nil _).symm⟩
      exact (hadded.other k hk hk').trans (hother k hk)

theorem used_cons (id : BlockId) : used place done (id :: todo) =
    done.map (·.home place) ++ (place id :: (todo.map place ++ done.flatMap (·.middles))) := by
  simp [used]

theorem used_snoc (p : Piece) : used place (done ++ [p]) todo =
    used place done (p.code.source :: todo) ++ p.middles := by
  simp [used, Piece.home]

/-- Blocks that were there and are not the one at hand stay as they are. -/
theorem BlockAdded.kept {p : Piece} (ha : BlockAdded s s' p) (hh : s.graph.nodes.contains h = true)
    (hne : h ≠ p.home s.handle) : s'.graph.nodes.get? h = s.graph.nodes.get? h := by
  apply ha.other h hne
  intro hm
  simpa [hh] using ha.fresh h hm

theorem BlockAdded.live_iff {p : Piece} (ha : BlockAdded s s' p)
    (hp : s.graph.nodes.contains (p.home s.handle) = true) :
    s'.graph.nodes.contains h = true ↔ s.graph.nodes.contains h = true ∨ h ∈ p.middles := by
  by_cases hm : h ∈ p.middles
  · simp [hm, ha.laid.live h hm]
  · by_cases hh : h = p.home s.handle
    · simp [hh, ha.block.live, hp]
    · simp [hm, Arena.contains, ha.other h hh hm]

/-- The next block of the list is completed. -/
theorem Built.addBlock {code : BlockCode} (hb : Built s place done (code.source :: todo)) :
    ∃ middles, Built (s.addBlock code) place (done ++ [⟨code, middles⟩]) todo := by
  obtain rfl := hb.handle_eq
  have hblank := hb.blank _ List.mem_cons_self
  obtain ⟨middles, ha⟩ := addBlock_spec code hblank
  have hdistinct := hb.distinct
  rw [used_cons] at hdistinct
  obtain ⟨-, hrest, hdisjoint⟩ := List.nodup_append.1 hdistinct
  obtain ⟨hnew, -⟩ := List.nodup_cons.1 hrest
  refine ⟨middles, ha.handle_eq, fun p hp => ?_, fun p hp => ?_, fun id hid => ?_,
    fun k => ?_, ?_, ?_, ?_⟩
  · rcases List.mem_append.1 hp with hp | hp
    · exact (hb.block p hp).congr (ha.kept (hb.block p hp).live
        (hdisjoint _ (List.mem_map_of_mem hp) _ List.mem_cons_self))
    · rw [List.mem_singleton.1 hp]
      exact ha.block
  · rcases List.mem_append.1 hp with hp | hp
    · refine (hb.laid p hp).congr fun m hm => ha.kept ((hb.laid p hp).live m hm) ?_
      intro he
      subst he
      exact hnew (List.mem_append_right _ (List.mem_flatMap.2 ⟨p, hp, hm⟩))
    · rw [List.mem_singleton.1 hp]
      exact ha.laid
  · have hblank' := hb.blank id (List.mem_cons_of_mem _ hid)
    refine hblank'.congr (ha.kept hblank'.live ?_)
    intro (he : s.handle id = s.handle code.source)
    exact hnew (List.mem_append_left _ (he ▸ List.mem_map_of_mem hid))
  · rw [ha.live_iff hblank.live, hb.live, used_snoc, List.mem_append]
  · rw [used_snoc]
    refine List.nodup_append.2 ⟨hb.distinct, ha.nodup, fun k hk m hm => ?_⟩
    intro he
    subst he
    simpa [(hb.live k).2 hk] using ha.fresh k hm
  · rw [ha.returning_eq, hb.returning_eq]
    cases hr : Piece.returns ⟨code, middles⟩ <;> simp [hr]
  · rw [ha.entry_eq, ← hb.entry_eq, List.map_append, List.append_assoc]
    rfl

theorem Built.addBlocks {codes : List BlockCode} (hb : Built s place done (codes.map (·.source))) :
    ∃ pieces, pieces.map (·.code) = codes ∧
      Built (addBlocks codes s) place (done ++ pieces) [] := by
  induction codes generalizing s done with
  | nil =>
      refine ⟨[], rfl, ?_⟩
      rw [List.append_nil]
      exact hb
  | cons code rest ih =>
      obtain ⟨middles, hb'⟩ := hb.addBlock
      obtain ⟨pieces, hcodes, hall⟩ := ih hb'
      refine ⟨⟨code, middles⟩ :: pieces, by simp [hcodes], ?_⟩
      rw [List.append_assoc] at hall
      exact hall

/-- Only blank blocks, one for each block of the list. -/
structure Blank (s : Assembly) (ids : List BlockId) : Prop where
  blank : ∀ id ∈ ids, s.graph.HasBlock (s.handle id) [] []
  live : ∀ h, s.graph.nodes.contains h = true ↔ h ∈ ids.map s.handle
  distinct : (ids.map s.handle).Nodup
  returning_eq : s.returning = []
  entry_eq : ids.head?.map s.handle = some s.graph.entry

theorem handle_place (id k : BlockId) (label : String) :
    (s.place id label).handle k = if k = id then s.graph.nodes.nextHandle else s.handle k := by
  simp only [handle, place, List.lookup_cons]
  by_cases he : k = id
  · simp [he]
  · simp [he, beq_eq_false_iff_ne.2 he, FlowGraph.insertNode]

theorem Blank.extended {ids : List BlockId} {id : BlockId} (hb : Blank s ids) (hid : id ∉ ids)
    (label : String) : Blank (s.place id label) (ids ++ [id]) := by
  have hhandle : ∀ k ∈ ids, (s.place id label).handle k = s.handle k := by
    intro k hk
    have hne : k ≠ id := fun e => hid (e ▸ hk)
    rw [handle_place, if_neg hne]
  have hself : (s.place id label).handle id = s.graph.nodes.nextHandle := by
    rw [handle_place, if_pos rfl]
  have hmap : (ids ++ [id]).map (s.place id label).handle =
      ids.map s.handle ++ [s.graph.nodes.nextHandle] := by
    rw [List.map_append, List.map_congr_left hhandle, List.map_singleton, hself]
  have hget : ∀ k, (s.place id label).graph.nodes.get? k =
      if k = s.graph.nodes.nextHandle then some { label := (s.graph.labels.claim label).1 }
      else s.graph.nodes.get? k := fun k => FlowGraph.get?_insertNode label
  refine ⟨fun k hk => ?_, fun k => ?_, ?_, hb.returning_eq, ?_⟩
  · rcases List.mem_append.1 hk with hk | hk
    · rw [hhandle k hk]
      have hblank := hb.blank k hk
      exact hblank.congr (by rw [hget, if_neg (FlowGraph.ne_nextHandle hblank.live)])
    · rw [List.mem_singleton.1 hk, hself]
      exact ⟨_, by rw [hget, if_pos rfl]⟩
  · rw [hmap, List.mem_append, List.mem_singleton, ← hb.live, Arena.contains, hget]
    by_cases he : k = s.graph.nodes.nextHandle
    · simp [he]
    · simp [he, Arena.contains]
  · rw [hmap]
    refine List.nodup_append.2 ⟨hb.distinct, by simp, fun k hk m hm => ?_⟩
    rw [List.mem_singleton.1 hm]
    exact FlowGraph.ne_nextHandle ((hb.live k).2 hk)
  · have hentry := hb.entry_eq
    cases ids with
    | nil => cases hentry
    | cons first rest =>
        show some ((s.place id label).handle first) = some s.graph.entry
        rw [hhandle first List.mem_cons_self]
        exact hentry

theorem Blank.extendedAll {ids : List BlockId} {others : List (BlockId × String)} (hb : Blank s ids)
    (hn : (ids ++ others.map (·.1)).Nodup) :
    Blank (placeAll others s) (ids ++ others.map (·.1)) := by
  induction others generalizing s ids with
  | nil =>
      rw [List.map_nil, List.append_nil]
      exact hb
  | cons other rest ih =>
      have hassoc : ids ++ (other :: rest).map (·.1) = (ids ++ [other.1]) ++ rest.map (·.1) := by
        simp
      rw [hassoc] at hn ⊢
      have hid : other.1 ∉ ids := by
        have := (List.nodup_append.1 (List.nodup_append.1 hn).1).2.2
        intro hm
        exact this _ hm _ (List.mem_singleton_self _) rfl
      exact ih (hb.extended hid other.2) hn

theorem ofLayout_blank {entry : BlockId × String} {others : List (BlockId × String)}
    (hn : ((entry :: others).map (·.1)).Nodup) :
    Blank (ofLayout entry others) ((entry :: others).map (·.1)) := by
  let first : Assembly :=
    { graph := .singleton entry.2, placed := [(entry.1, (FlowGraph.singleton entry.2).entry)] }
  have hhandle : first.handle entry.1 = first.graph.entry := by
    simp [handle, first]
  have hget : ∀ k, first.graph.nodes.get? k =
      if k = first.graph.entry then some { label := entry.2 } else none := by
    intro k
    exact (Arena.empty (α := Node)).get?_insert _ k
  have hfirst : Blank first [entry.1] := by
    refine ⟨fun id hid => ?_, fun k => ?_, by simp, rfl, by simp [hhandle]⟩
    · rw [List.mem_singleton.1 hid, hhandle]
      exact ⟨_, by rw [hget, if_pos rfl]⟩
    · rw [List.map_singleton, List.mem_singleton, hhandle, Arena.contains, hget]
      by_cases he : k = first.graph.entry <;> simp [he]
  exact hfirst.extendedAll hn

theorem Blank.built {ids : List BlockId} (hb : Blank s ids) : Built s s.handle [] ids where
  handle_eq := rfl
  block := by simp
  laid := by simp
  blank := hb.blank
  live := fun h => by rw [hb.live]; simp [used]
  distinct := by simpa [used] using hb.distinct
  returning_eq := hb.returning_eq
  entry_eq := hb.entry_eq

end Assembly

end AffineFlow
