import AffineFlow.Proofs.Acceptance.Edges
import AffineFlow.Proofs.Phis.Simultaneous
import AffineFlow.Proofs.PlainGraph

/-!
# The phis of an edge, all or none

If each phi of a block has a value for the predecessor, the code of the edge is
made, and it gives all phis their values at once. Otherwise nothing has happened
when the first phi without a value is reported. Bodies that are written down as a
listing have their phis where they belong, so the only thing left to ask of them
is that the values exist.
-/
namespace AffineFlow

open Ssa Lowering

namespace Ssa.Body

/-- Every block lists each of its instructions once, and they belong to it. -/
def Listed (body : Body) : Prop :=
  ∀ b block, body.block? b = some block → block.insts.Nodup ∧
    ∀ id ∈ block.insts, ∃ inst, body.inst? id = some inst ∧ inst.block = b

/-- A new block comes after the old ones, and its instructions after theirs. -/
theorem Listed.append {body : Body} (h : body.Listed) (name : String) (term : Terminator)
    (insts : List Inst) (hinsts : ∀ inst ∈ insts, inst.block = ⟨body.blocks.size⟩)
    (order : List BlockId) : Listed {
      blocks := body.blocks.push
        { name, insts := (List.range insts.length).map fun i => ⟨body.insts.size + i⟩, term }
      insts := body.insts ++ insts.toArray
      order } := by
  intro b block hb
  rw [block?, Array.getElem?_push] at hb
  split at hb
  next hnew =>
    obtain rfl := Option.some.inj hb
    refine ⟨?_, fun id hid => ?_⟩
    · refine List.nodup_range.map fun i j hij => ?_
      exact Nat.add_left_cancel (InstId.mk.inj hij)
    · obtain ⟨i, hi, rfl⟩ := List.mem_map.1 hid
      have hlt : i < insts.length := List.mem_range.1 hi
      refine ⟨insts[i], ?_, (hinsts _ (List.getElem_mem hlt)).trans (hnew ▸ rfl)⟩
      rw [inst?, Array.getElem?_append_right (Nat.le_add_right _ _), Nat.add_sub_cancel_left,
        List.getElem?_toArray, List.getElem?_eq_getElem hlt]
  next hold =>
    obtain ⟨hn, hinst⟩ := h b block hb
    refine ⟨hn, fun id hid => ?_⟩
    obtain ⟨inst, hi, hblock⟩ := hinst id hid
    have hlt : id.index < body.insts.size := (Array.getElem?_eq_some_iff.1 hi).1
    refine ⟨inst, ?_, hblock⟩
    rw [inst?, Array.getElem?_append_left hlt]
    exact hi

theorem listed_ofListing (blocks : List WrittenBlock) : (ofListing blocks).Listed := by
  refine List.foldlRecOn blocks _ (fun b block hb => ?_) fun body hbody written _ => ?_
  · cases hb
  · have hnext := hbody.append written.name written.term
      (written.insts.map fun i => ⟨i.1, i.2.1, i.2.2, ⟨body.blocks.size⟩⟩)
      (fun inst hinst => ?_) (body.order ++ [⟨body.blocks.size⟩])
    · rwa [List.length_map] at hnext
    · obtain ⟨i, -, rfl⟩ := List.mem_map.1 hinst
      rfl

end Ssa.Body

namespace Scope

variable {sc : Scope} {s : Session} {target pred : BlockId} {block : Block} {predName : String}

/-- The phis of the block can take their values from `pred`: each of them is listed once, where it
belongs, and the values are there. That the values are taken at the same time only asks that no phi
is listed twice. The other two parts are what building a body keeps: an instruction is listed in the
block that it was appended to, and it can only use values that are there. -/
structure PhisWellFormed (sc : Scope) (target : BlockId) (block : Block) (pred : BlockId) :
    Prop where
  nodup : ((sc.body.phis block).map (·.1)).Nodup
  placed : ∀ p ∈ sc.body.phis block, p.2.block = target
  live : sc.IncomingLive pred block

instance (sc : Scope) (source : BlockId) (block : Block) :
    Decidable (sc.IncomingLive source block) :=
  inferInstanceAs (Decidable (∀ p ∈ sc.body.phis block, ∀ v ∈ incomingValue? p.2.kind source,
    sc.isLive v = true))

instance (sc : Scope) (target : BlockId) (block : Block) (pred : BlockId) :
    Decidable (sc.PhisWellFormed target block pred) :=
  decidable_of_iff
    (((sc.body.phis block).map (·.1)).Nodup ∧ (∀ p ∈ sc.body.phis block, p.2.block = target) ∧
      sc.IncomingLive pred block)
    ⟨fun ⟨h₁, h₂, h₃⟩ => ⟨h₁, h₂, h₃⟩, fun h => ⟨h.nodup, h.placed, h.live⟩⟩

theorem WellFormed.phisWellFormed {blocks : List WrittenBlock} (hw : sc.WellFormed)
    (hbody : sc.body = .ofListing blocks) (hblock : sc.body.block? target = some block) :
    sc.PhisWellFormed target block pred := by
  have hlisted : sc.body.Listed := hbody ▸ Body.listed_ofListing blocks
  obtain ⟨hn, hplaced⟩ := hlisted target block hblock
  refine ⟨hn.sublist (phis_sublist _ _), fun p hp => ?_, hw.incomingLive⟩
  obtain ⟨hmem, hinst, -⟩ := phis_spec hp
  obtain ⟨inst, hinst', hblock'⟩ := hplaced p.1 hmem
  obtain rfl := Option.some.inj (hinst'.symm.trans hinst)
  exact hblock'

/-- The first phi without a value is reported, and the session is as it was. -/
theorem phiCode_missing {p : InstId × Inst} (target : BlockId) (s : Session)
    (hp : (sc.body.phis block).find? (fun p => (incomingValue? p.2.kind pred).isNone) = some p) :
    sc.phiCode target block pred predName s =
      .error (.rejected (.missingIncoming sc.func.name (sc.messageName p.1) predName)) s := by
  have hmissing := sc.incomingPhis_missing pred predName (sc.body.phis block)
  unfold phiCode
  cases hps : sc.incomingPhis pred predName (sc.body.phis block) with
  | ok ps =>
      rw [hps, hp] at hmissing
      cases hmissing
  | error reason =>
      rw [hps] at hmissing
      obtain ⟨q, hq, rfl⟩ := hmissing
      obtain rfl := Option.some.inj (hp.symm.trans hq)
      rfl

theorem mem_of_incoming {ps : List IncomingPhi} {phis : List (InstId × Inst)}
    (hps : ps.map (fun p => (p.id, p.ty, some p.value)) =
      phis.map fun q => (q.1, q.2.ty, incomingValue? q.2.kind pred))
    {q : InstId × Inst} (hq : q ∈ phis) {v : Value}
    (hv : incomingValue? q.2.kind pred = some v) : ⟨q.1, q.2.ty, v⟩ ∈ ps := by
  have hmem := List.mem_map_of_mem
    (f := fun q : InstId × Inst => (q.1, q.2.ty, incomingValue? q.2.kind pred)) hq
  rw [← hps, hv] at hmem
  obtain ⟨⟨id, ty, value⟩, hp, heq⟩ := List.mem_map.1 hmem
  obtain ⟨rfl, hrest⟩ := Prod.mk.inj heq
  obtain ⟨rfl, hvalue⟩ := Prod.mk.inj hrest
  obtain rfl := Option.some.inj hvalue
  exact hp

/-- Either all phis of the block take their values from `pred` at once, each the one that it had
before the first statement, or the first phi without a value is reported before anything is
minted. -/
theorem phiCode_atomic {program : Module} {id : FuncId} {oracle : Oracle} {settings : Settings}
    (hscope : Scope.ofFunction program id oracle settings = .ok sc) (target pred : BlockId)
    (block : Block) (predName : String) (s : Session) :
    (∀ p, (sc.body.phis block).find? (fun p => (incomingValue? p.2.kind pred).isNone) = some p →
      sc.phiCode target block pred predName s =
        .error (.rejected (.missingIncoming sc.func.name (sc.messageName p.1) predName)) s) ∧
    (sc.PhisWellFormed target block pred →
      (∀ p ∈ sc.body.phis block, (incomingValue? p.2.kind pred).isSome) →
      ∃ ps stmts s', Yields (sc.phiCode target block pred predName) s stmts s' ∧
        s.supply.Extends s'.supply ∧
        ps.map (fun p => (p.id, p.ty, some p.value)) =
          (sc.body.phis block).map (fun q => (q.1, q.2.ty, incomingValue? q.2.kind pred)) ∧
        sc.Simultaneous s'.supply s.supply.size s'.supply.size ps stmts) := by
  have hbody : sc.func.body = some sc.body := by
    obtain ⟨func, body, -, hbody, rfl⟩ := ofFunction_spec hscope
    exact hbody
  refine ⟨fun p hp => phiCode_missing target s hp, fun hphis hall => ?_⟩
  have hnone : (sc.body.phis block).find? (fun p => (incomingValue? p.2.kind pred).isNone) =
      none := by
    rw [List.find?_eq_none]
    intro p hp
    simpa [Option.isNone_iff_eq_none, Option.isSome_iff_ne_none] using hall p hp
  have hdefect : (sc.phiDefect? pred predName block).map Failure.rejected = none := by
    rw [phiDefect?, hnone]
    rfl
  obtain ⟨stmts, s', hcode⟩ := ((phiCode_settles hbody hphis.live).ok_iff s).2 hdefect
  obtain ⟨ps, hps, hsimultaneous⟩ :=
    phiCode_simultaneous hphis.nodup hphis.placed hcode (.refl _)
  exact ⟨ps, stmts, s', hcode, phiCode_grows _ _ _ _ _ _ _ _ hcode, incomingPhis_eq hps,
    hsimultaneous⟩

/-- A loop that exchanges two values. -/
def swappingBody : Body := Body.ofListing [
  ⟨"entry", [], .br ⟨1⟩⟩,
  ⟨"loop", [
      (some "a", .int 32, .phi [(⟨0⟩, .int 32 0), (⟨1⟩, .inst ⟨1⟩)]),
      (some "b", .int 32, .phi [(⟨0⟩, .int 32 1), (⟨1⟩, .inst ⟨0⟩)])],
    .condBr (.arg 0) ⟨1⟩ ⟨2⟩⟩,
  ⟨"done", [], .ret none⟩]

def swapping : Function where
  name := "swapping"
  params := [⟨"c", .int 1⟩]
  ret := .void
  body := some swappingBody

def swappingScope : Scope :=
  ⟨{ funcs := #[swapping] }, ⟨0⟩, swapping, swappingBody, .silent, {}⟩

def swappingLoop : Block := ⟨"loop", [⟨0⟩, ⟨1⟩], .condBr (.arg 0) ⟨1⟩ ⟨2⟩⟩

/-- Around the loop the two values are exchanged; from a block that the phis do not know, nothing
is done. -/
theorem phiCode_atomic_swapping :
    Scope.ofFunction { funcs := #[swapping] } ⟨0⟩ .silent {} = .ok swappingScope ∧
    swappingScope.PhisWellFormed ⟨1⟩ swappingLoop ⟨1⟩ ∧
    (∀ p ∈ swappingBody.phis swappingLoop, (incomingValue? p.2.kind ⟨1⟩).isSome) ∧
    (∃ stmts s' a b, Yields (swappingScope.phiCode ⟨1⟩ swappingLoop ⟨1⟩ "loop") {} stmts s' ∧
      swappingScope.phiVariable? s'.supply ⟨0⟩ = some a ∧
      swappingScope.phiVariable? s'.supply ⟨1⟩ = some b ∧
      (∃ σ τ, RunAll stmts σ τ) ∧ ∀ σ τ, RunAll stmts σ τ → τ a = σ b ∧ τ b = σ a) ∧
    swappingScope.phiCode ⟨1⟩ swappingLoop ⟨2⟩ "done" {} =
      .error (.rejected (.missingIncoming "swapping" "%a" "done")) {} := by
  have hscope : Scope.ofFunction { funcs := #[swapping] } ⟨0⟩ .silent {} = .ok swappingScope := rfl
  have hphis : swappingScope.PhisWellFormed ⟨1⟩ swappingLoop ⟨1⟩ := by decide
  have hall : ∀ p ∈ swappingBody.phis swappingLoop, (incomingValue? p.2.kind ⟨1⟩).isSome := by
    decide
  have hdone := (phiCode_atomic hscope ⟨1⟩ ⟨2⟩ swappingLoop "done" {}).1 _ rfl
  obtain ⟨ps, stmts, s', hcode, -, hps, hsimultaneous⟩ :=
    (phiCode_atomic hscope ⟨1⟩ ⟨1⟩ swappingLoop "loop" {}).2 hphis hall
  have ha : ⟨⟨0⟩, .int 32, .inst ⟨1⟩⟩ ∈ ps := mem_of_incoming hps (.head _) rfl
  have hb : ⟨⟨1⟩, .int 32, .inst ⟨0⟩⟩ ∈ ps := mem_of_incoming hps (.tail _ (.head _)) rfl
  obtain ⟨a, hfinda⟩ := hsimultaneous.target _ ha rfl
  obtain ⟨b, hfindb⟩ := hsimultaneous.target _ hb rfl
  refine ⟨hscope, hphis, hall, ⟨stmts, s', a, b, hcode, hfinda, hfindb, ?_, ?_⟩, hdone⟩
  · exact ⟨_, hsimultaneous.total fun _ => 0⟩
  · intro σ τ hrun
    have hvaluea := hsimultaneous.value σ τ hrun _ ha rfl a hfinda _ (form?_inst rfl hfindb)
    have hvalueb := hsimultaneous.value σ τ hrun _ hb rfl b hfindb _ (form?_inst rfl hfinda)
    rw [AffineForm.eval_ofVar] at hvaluea hvalueb
    exact ⟨hvaluea, hvalueb⟩

end Scope

end AffineFlow
