import AffineFlow.Proofs.PlainGraph

/-!
# The skeleton of a graph

Which block of the graph stands for which block of the source, which blocks
stand for the conditional edges, and what leads where. Only the terminators of
the source decide this; the statements do not matter.
-/
namespace AffineFlow

open Ssa

variable {body : Body} {g : FlowGraph} {place : BlockId → Handle}
  {middles : BlockId → List Handle} {b c : BlockId} {block : Block} {h k m : Handle}

/-- The way out of the block `h` that stands for a block with the given terminator; `ms` are the
blocks of its conditional edges. -/
inductive Ssa.Terminator.Drawn (order : List BlockId) (g : FlowGraph) (place : BlockId → Handle)
    (h : Handle) (ms : List Handle) (term : Terminator) : Prop
  | ret {v : Option Value} : term = .ret v → ms = [] → g.succs h = g.out h →
      Drawn order g place h ms term
  | stuck : term = .unreachable → ms = [] → g.succs h = [] →
      (∃ n, g.nodes.get? h = some n ∧ .unreachable ∈ n.stmts) → Drawn order g place h ms term
  | jump {t : BlockId} : term = .br t → ms = [] → t ∈ order → g.succs h = [place t] →
      Drawn order g place h ms term
  | branch : term.isBranching = true → g.succs h = ms → (∀ t ∈ term.successors, t ∈ order) →
      List.Forall₂ (fun t m => g.succs m = [place t]) term.successors ms →
      Drawn order g place h ms term

/-- The graph consists of a block for each laid-out block, the blocks of the conditional edges,
and an exit. -/
structure Skeleton (body : Body) (g : FlowGraph) (place : BlockId → Handle)
    (middles : BlockId → List Handle) : Prop where
  entry_eq : body.entry?.map place = some g.entry
  distinct : (body.order.map place ++ body.order.flatMap middles).Nodup
  live : ∀ h, g.nodes.contains h = true ↔
    h ∈ body.order.map place ++ body.order.flatMap middles ∨ h = g.exit
  drawn : ∀ b ∈ body.order, ∃ block, body.block? b = some block ∧
    block.term.Drawn body.order g place (place b) (middles b)
  exit : g.exit ∉ body.order.map place ++ body.order.flatMap middles ∧ g.succs g.exit = [] ∨
    ∃ b ∈ body.order, place b = g.exit ∧ (∃ block v, body.block? b = some block ∧
      block.term = .ret v) ∧ ∀ c ∈ body.order, ∀ block v, body.block? c = some block →
        block.term = .ret v → c = b

/-- The blocks of the edges that leave a block. -/
def middlesOf (pieces : List Piece) (b : BlockId) : List Handle :=
  ((pieces.find? fun p => p.code.source = b).map (·.middles)).getD []

theorem middlesOf_source {pieces : List Piece} (hn : (pieces.map (·.code.source)).Nodup)
    {p : Piece} (hp : p ∈ pieces) : middlesOf pieces p.code.source = p.middles := by
  obtain ⟨q, hq⟩ : ∃ q, pieces.find? (fun q => q.code.source = p.code.source) = some q := by
    rw [← Option.isSome_iff_exists, List.find?_isSome]
    exact ⟨p, hp, by simp⟩
  have hqp : q = p := by
    have hsource := List.find?_some hq
    exact List.inj_on_of_nodup_map hn (List.mem_of_find?_eq_some hq) hp (by simpa using hsource)
  rw [middlesOf, hq, hqp, Option.map_some, Option.getD_some]

namespace Scope

variable {sc : Scope} {pieces : List Piece} {pre : List Stmt} {s s' : Session} {p : Piece}

/-- The terminator of a block and the piece that was made from it say the same. -/
theorem Leaves.drawn {last : List Stmt} (hg : g.Assembled place pieces pre) (hp : p ∈ pieces)
    (hlast : ∀ stmt ∈ last, stmt ∈ p.code.stmts)
    (hl : sc.Leaves p.code.source block s s' last p.code.leaving) :
    block.term.Drawn sc.body.order g place (p.home place) p.middles := by
  have hblock := hg.block p hp
  have hlaid := hg.laid p hp
  have hsuccs := hblock.succs_eq
  obtain ⟨⟨source, stmts, leaving⟩, ms⟩ := p
  have none_laid : leaving.edges = [] → ms = [] := by
    intro he
    simp only [he] at hlaid
    exact List.forall₂_nil_left_iff.1 hlaid
  cases hl with
  | nothing hterm => exact .ret hterm (none_laid rfl) hsuccs
  | value hterm => exact .ret hterm (none_laid rfl) hsuccs
  | stuck hterm =>
      obtain ⟨label, hnode⟩ := hblock
      have hmem : .unreachable ∈ stmts := hlast _ (List.mem_singleton_self _)
      exact .stuck hterm (none_laid rfl) hsuccs ⟨_, hnode, List.mem_append_right _ hmem⟩
  | jump hterm horder => exact .jump hterm (none_laid rfl) horder hsuccs
  | @branch edges hbranching hedges =>
      refine .branch hbranching hsuccs (edgesCode_laid_out hedges) ?_
      rw [← (edgesCode_spec hedges).1, List.forall₂_map_left_iff]
      exact hlaid.imp fun edge m hm => FlowGraph.HasBlock.succs_eq hm

/-- A piece returns if its terminator does. -/
theorem Leaves.isReturn_iff {id : BlockId} {last : List Stmt} {leaving : Leaving}
    (hl : sc.Leaves id block s s' last leaving) :
    leaving.isReturn = true ↔ ∃ v, block.term = .ret v := by
  cases hl with
  | nothing hterm => simp [Leaving.isReturn, hterm]
  | value hterm => simp [Leaving.isReturn, hterm]
  | stuck hterm => simp [Leaving.isReturn, hterm]
  | jump hterm => simp [Leaving.isReturn, hterm]
  | branch hbranching =>
      simp only [Leaving.isReturn, Bool.false_eq_true, false_iff, not_exists]
      intro v hterm
      rw [hterm] at hbranching
      cases hbranching

/-- An assembled graph has the skeleton of the source. -/
theorem assembled_skeleton (hn : sc.body.order.Nodup)
    (hcodes : Yields (sc.blocksCode sc.body.order) s (pieces.map (·.code)) s')
    (hg : g.Assembled place pieces pre) : Skeleton sc.body g place (middlesOf pieces) := by
  obtain ⟨hsources, hall⟩ := blocksCode_spec hcodes
  rw [List.map_map] at hsources
  have hmiddles : ∀ p ∈ pieces, middlesOf pieces p.code.source = p.middles := fun p hp =>
    middlesOf_source (by rw [← hsources] at hn; exact hn) hp
  have hoccupied : sc.body.order.map place ++ sc.body.order.flatMap (middlesOf pieces) =
      occupied place pieces := by
    rw [← hsources, List.map_map, List.flatMap_map, occupied]
    exact congrArg _ (List.flatMap_congr hmiddles)
  have hpiece : ∀ b ∈ sc.body.order, ∃ p ∈ pieces, p.code.source = b := by
    intro b hb
    rw [← hsources] at hb
    obtain ⟨p, hp, rfl⟩ := List.mem_map.1 hb
    exact ⟨p, hp, rfl⟩
  have hleaves : ∀ p ∈ pieces, ∃ block last t t', sc.body.block? p.code.source = some block ∧
      sc.Leaves p.code.source block t t' last p.code.leaving ∧
      ∀ stmt ∈ last, stmt ∈ p.code.stmts := by
    intro p hp
    obtain ⟨t, t', hcode⟩ := hall p.code (List.mem_map_of_mem hp)
    obtain ⟨block, stmts, last, t₁, t₂, -, hblock, -, hstmts, -, -, hl⟩ := blockCode_spec hcode
    exact ⟨block, last, t₂, t', hblock, hl, fun stmt hs => hstmts ▸ List.mem_append_right _ hs⟩
  refine ⟨?_, hoccupied ▸ hg.distinct, fun k => hoccupied ▸ hg.live k,
    fun b hb => ?_, ?_⟩
  · rw [Body.entry?, ← hsources, List.head?_map, Option.map_map]
    exact hg.entry_eq
  · obtain ⟨p, hp, rfl⟩ := hpiece b hb
    obtain ⟨block, last, t, t', hblock, hl, hlast⟩ := hleaves p hp
    exact ⟨block, hblock, (hmiddles p hp).symm ▸ hl.drawn hg hp hlast⟩
  · rw [hoccupied]
    refine hg.exit.imp (And.imp_right fun hb => hb.succs_eq) ?_
    intro h
    obtain ⟨p, hp, hret, hexit, honly⟩ := h
    obtain ⟨block, last, t, t', hblock, hl, -⟩ := hleaves p hp
    obtain ⟨v, hterm⟩ := hl.isReturn_iff.1 hret
    have hmem : p.code.source ∈ sc.body.order := by
      rw [← hsources]
      exact List.mem_map_of_mem hp
    refine ⟨p.code.source, hmem, hexit, ⟨block, v, hblock, hterm⟩, fun c hc block' v' hc' ht' => ?_⟩
    obtain ⟨q, hq, rfl⟩ := hpiece c hc
    obtain ⟨block'', last', u, u', hblock', hl', -⟩ := hleaves q hq
    obtain rfl : block'' = block' := Option.some.inj (hblock'.symm.trans hc')
    rw [honly q hq (hl'.isReturn_iff.2 ⟨v', ht'⟩)]

theorem plainGraph_skeleton (hn : sc.body.order.Nodup) (h : Yields sc.plainGraph s g s') :
    ∃ place middles, Skeleton sc.body g place middles := by
  obtain ⟨place, pieces, pre, s₁, s₂, hcodes, -, -, hg⟩ := plainGraph_spec hn h
  exact ⟨place, middlesOf pieces, assembled_skeleton hn hcodes hg⟩

end Scope

end AffineFlow
