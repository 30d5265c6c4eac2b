import AffineFlow.Proofs.ControlFlow.Skeleton
import Mathlib.Data.List.Lattice
import Mathlib.Data.List.Pairwise

/-!
# Control flow of source and graph

Without simplification the graph has the control flow of the source. Every edge
of the graph is a jump, half of a conditional edge, or leads from a return to a
new exit, so following the graph from the entry is following the source, one
successor occurrence after the other.
-/
namespace AffineFlow

open Ssa

/-- The block that control goes to from `b` by the successor occurrence with the given index. -/
def Ssa.Body.successor? (body : Body) (b : BlockId) (index : Nat) : Option BlockId :=
  (body.block? b).bind fun block => block.term.successors[index]?

/-- Control has somewhere to go, unless it ends. -/
def Ssa.Terminator.hasTarget : Terminator → Bool
  | .switch _ _ targets => !targets.isEmpty
  | _ => true

/-- Successor occurrences, by index, that lead from block to block. -/
inductive SourcePath (body : Body) : BlockId → List Nat → BlockId → Prop
  | here {b : BlockId} : SourcePath body b [] b
  | step {b c d : BlockId} {i : Nat} {is : List Nat} : body.successor? b i = some c →
      SourcePath body c is d → SourcePath body b (i :: is) d

/-- The blocks along edges of the graph. -/
inductive FlowGraph.Path (g : FlowGraph) : Handle → List Handle → Handle → Prop
  | here {h : Handle} : Path g h [h] h
  | step {h k m : Handle} {hs : List Handle} : k ∈ g.succs h → Path g k hs m →
      Path g h (h :: hs) m

/-- The blocks of the graph along successor occurrences: the block that stands for the source,
then the one that stands for the edge if it is conditional. -/
def route (body : Body) (place : BlockId → Handle) (middles : BlockId → List Handle) :
    BlockId → List Nat → List Handle
  | b, [] => [place b]
  | b, i :: is =>
      place b :: (((middles b)[i]?).toList ++
        match body.successor? b i with
        | some c => route body place middles c is
        | none => [])

/-- How the blocks and edges of a graph correspond to those of the source. -/
structure Corresponds (body : Body) (g : FlowGraph) (place : BlockId → Handle)
    (middles : BlockId → List Handle) : Prop where
  place_live : ∀ b ∈ body.order, g.nodes.contains (place b) = true
  entry_eq : body.entry?.map place = some g.entry
  /-- The blocks are different for different blocks of the source and for different edges. -/
  distinct : (body.order.map place ++ body.order.flatMap middles).Nodup
  laid_out : ∀ b ∈ body.order, ∀ i t, body.successor? b i = some t → t ∈ body.order
  jump : ∀ b ∈ body.order, ∀ block t, body.block? b = some block → block.term = .br t →
    place t ∈ g.succs (place b)
  /-- Each successor occurrence under a condition has a block. -/
  branch : ∀ b ∈ body.order, ∀ block, body.block? b = some block →
    block.term.isBranching = true → (middles b).length = block.term.successors.length
  middle : ∀ b ∈ body.order, ∀ i m, (middles b)[i]? = some m → g.nodes.contains m = true ∧
    (∀ h, m ∈ g.succs h ↔ h = place b) ∧
    ∃ t, body.successor? b i = some t ∧ g.succs m = [place t]
  /-- There are no other edges. -/
  only : ∀ h k, k ∈ g.succs h →
    (∃ b ∈ body.order, ∃ block t, body.block? b = some block ∧ block.term = .br t ∧
      h = place b ∧ k = place t) ∨
    (∃ b ∈ body.order, h = place b ∧ k ∈ middles b) ∨
    (∃ b ∈ body.order, ∃ i t, (middles b)[i]? = some h ∧ body.successor? b i = some t ∧
      k = place t) ∨
    (∃ b ∈ body.order, ∃ block v, body.block? b = some block ∧ block.term = .ret v ∧
      h = place b ∧ k = g.exit ∧ g.exit ∉ body.order.map place ++ body.order.flatMap middles)
  exit_live : g.nodes.contains g.exit = true
  exit_final : g.succs g.exit = []
  returns : ∀ b ∈ body.order, ∀ block v, body.block? b = some block → block.term = .ret v →
    place b = g.exit ∨ g.succs (place b) = [g.exit]
  final : ∀ h, g.nodes.contains h = true → g.succs h = [] →
    h = g.exit ∨ ∃ n, g.nodes.get? h = some n ∧ .unreachable ∈ n.stmts
  /-- Every source path from the first block is a path of the graph from the entry. -/
  path_of_source : ∀ e, body.entry? = some e → ∀ is c, SourcePath body e is c →
    g.Path g.entry (route body place middles e is) (place c)
  /-- Every path of the graph from the entry to a block of the source comes from exactly one
  source path. -/
  source_of_path : ∀ e, body.entry? = some e → ∀ c ∈ body.order, ∀ hs,
    g.Path g.entry hs (place c) →
    ∃ is, (SourcePath body e is c ∧ route body place middles e is = hs) ∧
      ∀ is', SourcePath body e is' c → route body place middles e is' = hs → is' = is

namespace Skeleton

variable {body : Body} {g : FlowGraph} {place : BlockId → Handle}
  {middles : BlockId → List Handle} {b c : BlockId} {block : Block} {h k m : Handle}

variable (hs : Skeleton body g place middles)
include hs

theorem place_injective (hb : b ∈ body.order) (hc : c ∈ body.order) (he : place b = place c) :
    b = c :=
  List.inj_on_of_nodup_map (List.nodup_append.1 hs.distinct).1 hb hc he

theorem place_ne_middle (hb : b ∈ body.order) (hc : c ∈ body.order) (hm : m ∈ middles c) :
    place b ≠ m :=
  (List.nodup_append.1 hs.distinct).2.2 _ (List.mem_map_of_mem hb) _
    (List.mem_flatMap.2 ⟨c, hc, hm⟩)

theorem place_live (hb : b ∈ body.order) : g.nodes.contains (place b) = true :=
  (hs.live _).2 (.inl (List.mem_append_left _ (List.mem_map_of_mem hb)))

/-- Everything the skeleton says about one block. -/
theorem drawn_of (hb : b ∈ body.order) (hblock : body.block? b = some block) :
    block.term.Drawn body.order g place (place b) (middles b) := by
  obtain ⟨block', hblock', hd⟩ := hs.drawn b hb
  obtain rfl : block' = block := Option.some.inj (hblock'.symm.trans hblock)
  exact hd

theorem exit_final : g.succs g.exit = [] := by
  rcases hs.exit with ⟨hnew, hfinal⟩ | ⟨c, hc, hexit, ⟨block, v, hblock, hterm⟩, -⟩
  · exact hfinal
  · cases hs.drawn_of hc hblock with
    | ret _ _ hsuccs => rw [← hexit, hsuccs, FlowGraph.out, if_pos hexit]
    | stuck hterm' => cases hterm.symm.trans hterm'
    | jump hterm' => cases hterm.symm.trans hterm'
    | branch hbranching => rw [hterm] at hbranching; cases hbranching

/-- The block of the edge with the given index leads from the block to the target. -/
theorem middle_spec {i : Nat} (hb : b ∈ body.order) (hm : (middles b)[i]? = some m) :
    ∃ t ∈ body.order, body.successor? b i = some t ∧ g.succs m = [place t] ∧
      g.succs (place b) = middles b := by
  obtain ⟨block, hblock, hd⟩ := hs.drawn b hb
  have nonempty : middles b ≠ [] := by
    intro he
    rw [he] at hm
    cases hm
  cases hd with
  | ret _ he => exact absurd he nonempty
  | stuck _ he => exact absurd he nonempty
  | jump _ he => exact absurd he nonempty
  | branch _ hsuccs horder hall =>
      obtain ⟨hlen, hget⟩ := List.forall₂_iff_get.1 hall
      obtain ⟨hi, rfl⟩ := List.getElem?_eq_some_iff.1 hm
      have hi' : i < block.term.successors.length := hlen ▸ hi
      have hsucc : block.term.successors[i]? = some block.term.successors[i] :=
        List.getElem?_eq_getElem hi'
      refine ⟨_, horder _ (List.getElem_mem hi'), ?_, hget i hi' hi, hsuccs⟩
      rw [Body.successor?, hblock]
      exact hsucc

theorem jump_spec {t : BlockId} (hb : b ∈ body.order) (hblock : body.block? b = some block)
    (hterm : block.term = .br t) : middles b = [] ∧ g.succs (place b) = [place t] := by
  cases hs.drawn_of hb hblock with
  | ret hterm' => cases hterm.symm.trans hterm'
  | stuck hterm' => cases hterm.symm.trans hterm'
  | jump hterm' he _ hsuccs =>
      obtain rfl := Terminator.br.inj (hterm.symm.trans hterm')
      exact ⟨he, hsuccs⟩
  | branch hbranching => rw [hterm] at hbranching; cases hbranching

/-- Following a successor occurrence takes one step in the graph, or two through the block of the
edge. -/
theorem successor_spec {i : Nat} (hb : b ∈ body.order) (hi : body.successor? b i = some c) :
    c ∈ body.order ∧ (i = 0 ∧ middles b = [] ∧ g.succs (place b) = [place c] ∨
      ∃ m, (middles b)[i]? = some m ∧ m ∈ g.succs (place b) ∧ g.succs m = [place c]) := by
  obtain ⟨block, hblock, hd⟩ := hs.drawn b hb
  rw [Body.successor?, hblock, Option.bind_some] at hi
  cases hd with
  | ret hterm => rw [hterm] at hi; cases hi
  | stuck hterm => rw [hterm] at hi; cases hi
  | jump hterm he horder hsuccs =>
      rw [hterm] at hi
      obtain ⟨hlt, rfl⟩ := List.getElem?_eq_some_iff.1 hi
      obtain rfl : i = 0 := Nat.lt_one_iff.1 hlt
      exact ⟨horder, .inl ⟨rfl, he, hsuccs⟩⟩
  | branch _ hsuccs horder hall =>
      obtain ⟨hlen, hget⟩ := List.forall₂_iff_get.1 hall
      obtain ⟨hlt, rfl⟩ := List.getElem?_eq_some_iff.1 hi
      have hlt' : i < (middles b).length := hlen ▸ hlt
      refine ⟨horder _ (List.getElem_mem hlt), .inr ⟨(middles b)[i], ?_, ?_, hget i hlt hlt'⟩⟩
      · exact List.getElem?_eq_getElem hlt'
      · rw [hsuccs]
        exact List.getElem_mem hlt'

theorem middle_owner {d : BlockId} (hb : b ∈ body.order) (hd : d ∈ body.order)
    (hm : m ∈ middles b) (hm' : m ∈ middles d) : b = d := by
  have hdisjoint := (List.nodup_flatMap.1 (List.nodup_append.1 hs.distinct).2.1).2
  by_contra hne
  have : Std.Symm (Function.onFun List.Disjoint middles) := ⟨fun _ _ hxy => List.disjoint_symm hxy⟩
  exact hdisjoint.forall hb hd hne hm hm'

/-- Where an edge of the graph comes from. -/
theorem edge_cases (hk : k ∈ g.succs h) :
    (∃ b ∈ body.order, ∃ block, ∃ t ∈ body.order, body.block? b = some block ∧
      block.term = .br t ∧ h = place b ∧ k = place t) ∨
    (∃ b ∈ body.order, h = place b ∧ k ∈ middles b) ∨
    (∃ b ∈ body.order, ∃ i, ∃ t ∈ body.order, (middles b)[i]? = some h ∧
      body.successor? b i = some t ∧ k = place t) ∨
    (∃ b ∈ body.order, ∃ block v, body.block? b = some block ∧ block.term = .ret v ∧
      h = place b ∧ k = g.exit ∧
      g.exit ∉ body.order.map place ++ body.order.flatMap middles) := by
  rcases (hs.live h).1 (FlowGraph.contains_of_mem_succs hk) with hh | rfl
  · rcases List.mem_append.1 hh with hh | hh
    · obtain ⟨b, hb, rfl⟩ := List.mem_map.1 hh
      obtain ⟨block, hblock, hd⟩ := hs.drawn b hb
      cases hd with
      | @ret v hterm _ hsuccs =>
          refine .inr (.inr (.inr ⟨b, hb, block, v, hblock, hterm, rfl, ?_⟩))
          rw [hsuccs, FlowGraph.out] at hk
          split at hk
          next => cases hk
          next hne =>
            refine ⟨List.mem_singleton.1 hk, ?_⟩
            rcases hs.exit with ⟨hnew, -⟩ | ⟨c, -, hexit, -, honly⟩
            · exact hnew
            · exact absurd (honly b hb block v hblock hterm ▸ hexit) hne
      | stuck _ _ hsuccs =>
          rw [hsuccs] at hk
          cases hk
      | @jump t hterm _ horder hsuccs =>
          rw [hsuccs, List.mem_singleton] at hk
          exact .inl ⟨b, hb, block, t, horder, hblock, hterm, rfl, hk⟩
      | branch _ hsuccs =>
          rw [hsuccs] at hk
          exact .inr (.inl ⟨b, hb, rfl, hk⟩)
    · obtain ⟨b, hb, hm⟩ := List.mem_flatMap.1 hh
      obtain ⟨i, hi⟩ := List.mem_iff_getElem?.1 hm
      obtain ⟨t, ht, hsucc, hsuccs, -⟩ := hs.middle_spec hb hi
      rw [hsuccs, List.mem_singleton] at hk
      exact .inr (.inr (.inl ⟨b, hb, i, t, ht, hi, hsucc, hk⟩))
  · rw [hs.exit_final] at hk
    cases hk

/-- The block of an edge has one predecessor. -/
theorem mem_succs_middle_iff (hb : b ∈ body.order) (hm : m ∈ middles b) :
    m ∈ g.succs h ↔ h = place b := by
  obtain ⟨i, hi⟩ := List.mem_iff_getElem?.1 hm
  constructor
  · intro hk
    rcases hs.edge_cases hk with ⟨c, -, -, t, ht, -, -, -, he⟩ | ⟨c, hc, rfl, hm'⟩ |
      ⟨c, -, -, t, ht, -, -, he⟩ | ⟨c, -, -, -, -, -, -, he, hnew⟩
    · exact absurd he.symm (hs.place_ne_middle ht hb hm)
    · rw [hs.middle_owner hb hc hm hm']
    · exact absurd he.symm (hs.place_ne_middle ht hb hm)
    · exact absurd (List.mem_append_right _ (List.mem_flatMap.2 ⟨b, hb, he ▸ hm⟩)) hnew
  · intro he
    subst he
    obtain ⟨t, -, -, -, hsuccs⟩ := hs.middle_spec hb hi
    rw [hsuccs]
    exact hm

/-- A block without successors is the exit or unreachable, if every switch has a target. -/
theorem final (hswitch : ∀ b ∈ body.order, (body.block? b).all (·.term.hasTarget) = true)
    (hh : g.nodes.contains h = true) (hsuccs : g.succs h = []) :
    h = g.exit ∨ ∃ n, g.nodes.get? h = some n ∧ .unreachable ∈ n.stmts := by
  rcases (hs.live h).1 hh with hh | rfl
  · rcases List.mem_append.1 hh with hh | hh
    · obtain ⟨b, hb, rfl⟩ := List.mem_map.1 hh
      obtain ⟨block, hblock, hd⟩ := hs.drawn b hb
      cases hd with
      | ret _ _ hout =>
          rw [hout, FlowGraph.out] at hsuccs
          split at hsuccs
          next he => exact .inl he
          next => cases hsuccs
      | stuck _ _ _ hn => exact .inr hn
      | jump _ _ _ hjump => cases hjump.symm.trans hsuccs
      | branch hbranching hmiddles _ hall =>
          have hnone : block.term.successors = [] := by
            rw [hsuccs] at hmiddles
            rw [← hmiddles] at hall
            exact List.forall₂_nil_right_iff.1 hall
          have htarget := hswitch b hb
          rw [hblock, Option.all_some] at htarget
          cases hterm : block.term with
          | condBr _ _ _ => rw [hterm] at hnone; cases hnone
          | switch v cases targets =>
              rw [hterm] at hnone htarget
              obtain rfl : targets = [] := hnone
              cases htarget
          | ret _ => rw [hterm] at hbranching; cases hbranching
          | br _ => rw [hterm] at hbranching; cases hbranching
          | unreachable => rw [hterm] at hbranching; cases hbranching
    · obtain ⟨b, hb, hm⟩ := List.mem_flatMap.1 hh
      obtain ⟨i, hi⟩ := List.mem_iff_getElem?.1 hm
      obtain ⟨t, -, -, ht, -⟩ := hs.middle_spec hb hi
      cases ht.symm.trans hsuccs
  · exact .inl rfl

theorem path_of_source {is : List Nat} (hp : SourcePath body b is c) (hb : b ∈ body.order) :
    g.Path (place b) (route body place middles b is) (place c) := by
  induction hp with
  | here => exact .here
  | @step b c d i is hi _ ih =>
      obtain ⟨hc, hway⟩ := hs.successor_spec hb hi
      have hrest := ih hc
      rw [route, hi]
      rcases hway with ⟨-, hnone, hsuccs⟩ | ⟨m, hm, hmem, hsuccs⟩
      · rw [hnone]
        exact .step (by rw [hsuccs]; exact List.mem_singleton_self _) hrest
      · rw [hm]
        exact .step hmem (.step (by rw [hsuccs]; exact List.mem_singleton_self _) hrest)

/-- A path of the graph to a block of the source follows the source, also when it starts on a
conditional edge. -/
theorem source_of_path {hs' : List Handle} (hp : g.Path h hs' k) (hc : c ∈ body.order)
    (hk : k = place c) :
    (∀ b ∈ body.order, h = place b →
      ∃ is, SourcePath body b is c ∧ route body place middles b is = hs') ∧
    (∀ b ∈ body.order, ∀ i t, (middles b)[i]? = some h → body.successor? b i = some t →
      ∃ is, SourcePath body t is c ∧ h :: route body place middles t is = hs') := by
  induction hp with
  | @here h =>
      constructor
      · intro b hb hhb
        obtain rfl := hs.place_injective hb hc (hhb ▸ hk)
        exact ⟨[], .here, by rw [route, hhb]⟩
      · intro b hb i t hi _
        exact absurd hk.symm (hs.place_ne_middle hc hb (List.mem_of_getElem? hi))
  | @step h k m hs' hmem hrest ih =>
      obtain ⟨ih₁, ih₂⟩ := ih hk
      constructor
      · rintro b hb rfl
        rcases hs.edge_cases hmem with ⟨d, hd, block, t, ht, hblock, hterm, hbd, rfl⟩ |
          ⟨d, hd, hbd, hm⟩ | ⟨d, hd, i, t, -, hi, -, -⟩ | ⟨d, hd, -, -, -, -, hbd, rfl, hnew⟩
        · obtain rfl := hs.place_injective hb hd hbd
          obtain ⟨is, hpath, hroute⟩ := ih₁ t ht rfl
          have hi : body.successor? b 0 = some t := by
            rw [Body.successor?, hblock, Option.bind_some, hterm]
            rfl
          refine ⟨0 :: is, .step hi hpath, ?_⟩
          rw [route, hi, (hs.jump_spec hb hblock hterm).1, ← hroute]
          rfl
        · obtain rfl := hs.place_injective hb hd hbd
          obtain ⟨i, hi⟩ := List.mem_iff_getElem?.1 hm
          obtain ⟨t, -, hsucc, -, -⟩ := hs.middle_spec hb hi
          obtain ⟨is, hpath, hroute⟩ := ih₂ b hb i t hi hsucc
          refine ⟨i :: is, .step hsucc hpath, ?_⟩
          rw [route, hsucc, hi, ← hroute]
          rfl
        · exact absurd rfl (hs.place_ne_middle hb hd (List.mem_of_getElem? hi))
        · -- the new exit leads nowhere
          cases hrest with
          | here => exact absurd (List.mem_append_left _ (hk ▸ List.mem_map_of_mem hc)) hnew
          | step hmem' _ => rw [hs.exit_final] at hmem'; cases hmem'
      · intro b hb i t hi hsucc
        obtain ⟨t', ht', hsucc', hsuccs, -⟩ := hs.middle_spec hb hi
        obtain rfl : t' = t := Option.some.inj (hsucc'.symm.trans hsucc)
        rw [hsuccs, List.mem_singleton] at hmem
        obtain ⟨is, hpath, hroute⟩ := ih₁ t' ht' hmem
        exact ⟨is, hpath, by rw [hroute]⟩

omit hs in
theorem route_ne_nil (is : List Nat) : route body place middles b is ≠ [] := by
  cases is with
  | nil => exact List.cons_ne_nil _ _
  | cons i is => exact List.cons_ne_nil _ _

/-- Different source paths have different routes. -/
theorem route_injective {d : BlockId} {is is' : List Nat} (hp : SourcePath body b is c)
    (hp' : SourcePath body b is' d) (hb : b ∈ body.order)
    (he : route body place middles b is = route body place middles b is') : is = is' := by
  induction hp generalizing is' with
  | here =>
      cases hp' with
      | here => rfl
      | step hi _ =>
          rw [route, route, hi] at he
          exact absurd (List.append_eq_nil_iff.1 (List.cons.inj he).2.symm).2 (route_ne_nil _)
  | @step b c _ i is hi _ ih =>
      cases hp' with
      | here =>
          rw [route, route, hi] at he
          exact absurd (List.append_eq_nil_iff.1 (List.cons.inj he).2).2 (route_ne_nil _)
      | @step _ c' _ i' is' hi' hrest' =>
          have hsame :
              i = i' ∧ route body place middles c is = route body place middles c' is' := by
            rw [route, route, hi, hi'] at he
            have he := (List.cons.inj he).2
            obtain ⟨-, ⟨rfl, hnone, -⟩ | ⟨m, hm, -⟩⟩ := hs.successor_spec hb hi <;>
              obtain ⟨-, ⟨rfl, hnone', -⟩ | ⟨m', hm', -⟩⟩ := hs.successor_spec hb hi'
            · rw [hnone] at he
              exact ⟨rfl, he⟩
            · rw [hnone] at hm'
              cases hm'
            · rw [hnone'] at hm
              cases hm
            · rw [hm, hm'] at he
              obtain ⟨hmm, hrest⟩ := List.cons.inj he
              have hn := (List.nodup_flatMap.1 (List.nodup_append.1 hs.distinct).2.1).1 _ hb
              have hlt := (List.getElem?_eq_some_iff.1 hm).1
              exact ⟨(List.getElem?_inj hlt hn).1 (hm.trans (hmm ▸ hm'.symm)), hrest⟩
          obtain ⟨rfl, he⟩ := hsame
          obtain rfl := Option.some.inj (hi.symm.trans hi')
          rw [ih hrest' (hs.successor_spec hb hi).1 he]

theorem corresponds
    (hswitch : ∀ b ∈ body.order, (body.block? b).all (·.term.hasTarget) = true) :
    Corresponds body g place middles where
  place_live := fun _ hb => hs.place_live hb
  entry_eq := hs.entry_eq
  distinct := hs.distinct
  laid_out := fun _ hb _ _ hi => (hs.successor_spec hb hi).1
  jump := fun b hb block t hblock hterm => by
    rw [(hs.jump_spec hb hblock hterm).2]
    exact List.mem_singleton_self _
  branch := fun b hb block hblock hbranching => by
    cases hs.drawn_of hb hblock with
    | ret hterm => rw [hterm] at hbranching; cases hbranching
    | stuck hterm => rw [hterm] at hbranching; cases hbranching
    | jump hterm => rw [hterm] at hbranching; cases hbranching
    | branch _ _ _ hall => exact hall.length_eq.symm
  middle := fun b hb i m hi => by
    have hm := List.mem_of_getElem? hi
    obtain ⟨t, -, hsucc, hsuccs, -⟩ := hs.middle_spec hb hi
    refine ⟨(hs.live m).2 (.inl ?_), fun h => hs.mem_succs_middle_iff hb hm, t, hsucc, hsuccs⟩
    exact List.mem_append_right _ (List.mem_flatMap.2 ⟨b, hb, hm⟩)
  only := fun h k hk => by
    rcases hs.edge_cases hk with ⟨b, hb, block, t, -, hjump⟩ | hbranch |
      ⟨b, hb, i, t, -, hmiddle⟩ | hreturn
    · exact .inl ⟨b, hb, block, t, hjump⟩
    · exact .inr (.inl hbranch)
    · exact .inr (.inr (.inl ⟨b, hb, i, t, hmiddle⟩))
    · exact .inr (.inr (.inr hreturn))
  exit_live := (hs.live _).2 (.inr rfl)
  exit_final := hs.exit_final
  returns := fun b hb block v hblock hterm => by
    cases hs.drawn_of hb hblock with
    | ret _ _ hsuccs =>
        rw [hsuccs, FlowGraph.out]
        split
        next he => exact .inl he
        next => exact .inr rfl
    | stuck hterm' => cases hterm.symm.trans hterm'
    | jump hterm' => cases hterm.symm.trans hterm'
    | branch hbranching => rw [hterm] at hbranching; cases hbranching
  final := fun _ hh hsuccs => hs.final hswitch hh hsuccs
  path_of_source := fun e he is c hp => by
    have hentry := hs.entry_eq
    rw [he] at hentry
    exact Option.some.inj hentry ▸ hs.path_of_source hp (List.mem_of_head? he)
  source_of_path := fun e he c hc path hp => by
    have hentry := hs.entry_eq
    rw [he] at hentry
    have hmem := List.mem_of_head? he
    rw [← Option.some.inj hentry] at hp
    obtain ⟨is, hpath, hroute⟩ := (hs.source_of_path hp hc rfl).1 e hmem rfl
    refine ⟨is, ⟨hpath, hroute⟩, fun is' hpath' hroute' => ?_⟩
    exact hs.route_injective hpath' hpath hmem (hroute'.trans hroute.symm)

end Skeleton

/-- A function with a branch, a switch back to its first block, and one return. -/
def clampBody : Body := Body.ofListing [
  ⟨"entry", [(some "c", .int 1, .compare .slt (.arg 0) (.int 32 0))],
    .condBr (.inst ⟨0⟩) ⟨1⟩ ⟨2⟩⟩,
  ⟨"low", [], .ret (some (.int 32 0))⟩,
  ⟨"high", [], .switch (.arg 0) [7] [⟨1⟩, ⟨0⟩]⟩]

def clamp : Function where
  name := "clamp"
  params := [⟨"x", .int 32⟩]
  ret := .int 32
  body := some clampBody

end AffineFlow
