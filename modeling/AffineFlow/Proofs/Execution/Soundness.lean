import AffineFlow.Proofs.ControlFlow.Correspondence
import AffineFlow.Proofs.Execution.Freshness

/-!
# Which runs have an execution

The code of a comparison stands where its result is consumed, and nothing writes
its variable. Whoever reads that variable as a number, or fixes it on an edge
because it has other uses, therefore finds the value that it had at the start.
This is all that goes wrong: a run has an execution just if it can be explained
with one value for each comparison. A run that leaves a block both ways, on a
comparison with another use, cannot; where comparisons are only branched on and
selected by, and have one use if they are branched on, every run can.
-/
namespace AffineFlow

open Ssa Lowering

namespace Scope

variable {sc : Scope} {F : VarSupply} {g : FlowGraph} {place : BlockId → Handle}
  {s s' : Session} {pieces : List Piece} {κ : InstId → Int} {α : Nat → Int} {r : List Visit}

/-- Nothing happens before the first block, if memory is not modelled. -/
theorem prologue_eq_nil (hmemory : sc.modelsMemory = false) :
    Ensures (fun r : Option Declaration × List Stmt => r.2 = []) sc.prologue := by
  have hsignature : Ensures (fun r : Declaration × List Stmt => r.2 = []) sc.signature := by
    refine .after fun scalars => ?_
    simp only [hmemory, Bool.false_and, Bool.false_eq_true, if_false]
    exact .bind (R := fun r : List TypedVar × List Stmt => r.2 = []) (.pure rfl)
      fun r hr => .after fun name => .pure hr
  have hfinish : ∀ r : Option Declaration × List Stmt, r.2 = [] →
      Ensures (fun r : Option Declaration × List Stmt => r.2 = [])
        (do return (r.1, r.2 ++ (← pure []))) := by
    intro r hr
    refine (Ensures.pure (Q := fun l : List Stmt => l = []) rfl).bind fun l hl => .pure ?_
    rw [hr, hl]
    rfl
  unfold prologue
  simp only [hmemory, Bool.false_eq_true, if_false]
  split
  · exact hsignature.bind fun r hr =>
      .bind (R := fun r : Option Declaration × List Stmt => r.2 = []) (.pure hr) hfinish
  · exact .bind (R := fun r : Option Declaration × List Stmt => r.2 = []) (.pure rfl) hfinish

theorem order_nodup_of_isNumeric (hnumeric : sc.isNumeric = true) : sc.body.order.Nodup :=
  of_decide_eq_true (Bool.and_eq_true_iff.1 hnumeric).1

/-- An assembled graph was made from the code of the blocks. -/
theorem laid_of_assembled (hbody : sc.func.body = some sc.body)
    (hhavoc : sc.settings.explicitHavoc = true) (hnumeric : sc.isNumeric = true)
    (hcodes : Yields (sc.blocksCode sc.body.order) s (pieces.map (·.code)) s')
    (hF : s'.supply.Extends F) (hg : g.Assembled place pieces []) : sc.Laid F g place := by
  have hsources := (blocksCode_spec hcodes).1
  rw [List.map_map] at hsources
  have hpiece : ∀ b ∈ sc.body.order, ∃ p ∈ pieces, p.code.source = b := by
    intro b hb
    rw [← hsources] at hb
    exact List.mem_map.1 hb
  refine ⟨hbody, hhavoc, fun b hb => ?_, fun b hb c hc he => ?_⟩
  · obtain ⟨p, hp, rfl⟩ := hpiece b hb
    obtain ⟨id, -, t, t', hcode, hgrown⟩ := blocksCode_mem hcodes (List.mem_map_of_mem hp)
    obtain ⟨block, insts, last, t₁, t₂, horder, hblock, hid, hstmts, -, hinsts, hleaves⟩ :=
      blockCode_spec hcode
    subst hid
    have hlater := hgrown.trans hF
    refine ⟨block, insts, last, p.code.leaving, p.middles, hblock,
      numericBlock_of_isNumeric hnumeric hb hblock, ?_,
      ⟨t₁, t₂, hinsts, hleaves.grows.trans hlater⟩, ⟨t₂, t', hleaves, hlater⟩, hg.laid p hp,
      fun m hm c hc he => ?_⟩
    · have hnode := hg.block p hp
      rw [ite_self, List.nil_append, hstmts] at hnode
      exact hnode
    · obtain ⟨q, hq, rfl⟩ := hpiece c hc
      exact Assembly.home_ne_middle hg.distinct hq hp hm he.symm
  · obtain ⟨p, hp, rfl⟩ := hpiece b hb
    obtain ⟨q, hq, rfl⟩ := hpiece c hc
    rw [Assembly.home_injective hg.distinct hp hq he]

theorem hasTarget_of_isNumeric (hnumeric : sc.isNumeric = true) :
    ∀ b ∈ sc.body.order, (sc.body.block? b).all (·.term.hasTarget) = true := by
  intro b hb
  cases hblock : sc.body.block? b with
  | none => rfl
  | some block =>
      have hterm := (numericBlock_of_isNumeric hnumeric hb hblock).term
      rw [Option.all_some]
      cases ht : block.term with
      | switch v cases targets =>
          rw [ht] at hterm
          simp only [isNumericTerm, Bool.and_eq_true, decide_eq_true_eq] at hterm
          cases targets with
          | nil => cases hterm.2
          | cons t rest => rfl
      | br target => rfl
      | condBr c onTrue onFalse => rfl
      | ret value => rfl
      | unreachable => rfl

/-- The graph can follow the visits, if the arguments are `α`. -/
def HasExecution (sc : Scope) (F : VarSupply) (g : FlowGraph) (place : BlockId → Handle)
    (α : Nat → Int) (r : List Visit) : Prop :=
  ∃ σ : Valuation, (∀ i x, F.find? (.value sc.funcId (.arg i)) = some x → σ x = α i) ∧
    sc.Follows F g place r σ

/-- At the start nothing has been executed, so only comparisons and arguments matter. -/
theorem agrees_at_start {R : Rules} {σ : Valuation} (hs : sc.body.Starts R r)
    (hholds : sc.Holds F κ α σ) : ∀ v ∈ r.head?, sc.Agrees F κ α v.entered σ := by
  intro v hv
  rw [hs.nothing v hv]
  exact ⟨fun id n _ _ hn => (nomatch hn), hholds, coherent_none⟩

/-- The values at the start, by what the variables stand for. -/
def startValues (κ : InstId → Int) (α : Nat → Int) : Referent → Option Int
  | .value _ (.inst id) => some (κ id)
  | .value _ (.arg i) => some (α i)
  | _ => none

/-- Comparisons and arguments can have any values at the start. -/
theorem exists_holds (sc : Scope) (F : VarSupply) (κ : InstId → Int) (α : Nat → Int) :
    ∃ σ, sc.Holds F κ α σ := by
  obtain ⟨σ, hset, -⟩ := exists_valuation F (fun _ => 0) (startValues κ α)
  exact ⟨σ, fun id x _ hx => hset _ x _ hx rfl, fun i x hx => hset _ x _ hx rfl⟩

/-- Whatever the variables of comparisons hold at the start, they hold fixed values. -/
theorem exists_frozen {σ : Valuation}
    (harg : ∀ i x, F.find? (.value sc.funcId (.arg i)) = some x → σ x = α i) :
    ∃ κ, sc.Holds F κ α σ := by
  refine ⟨fun id => ((F.find? (.value sc.funcId (.inst id))).map σ).getD 0, ?_, harg⟩
  intro id x _ hx
  rw [hx]
  rfl

theorem hasExecution_iff (hl : sc.Laid F g place)
    (hs : sc.body.Starts (sc.body.source α) r) :
    sc.HasExecution F g place α r ↔ ∃ κ, sc.body.Run (sc.known (sc.frozen κ α)) r := by
  constructor
  · intro h
    obtain ⟨σ, harg, hfollows⟩ := h
    obtain ⟨κ, hholds⟩ := exists_frozen harg
    exact ⟨κ, hl.known_of_follows hfollows hs.run (agrees_at_start hs hholds)⟩
  · intro h
    obtain ⟨κ, hk⟩ := h
    obtain ⟨σ, hholds⟩ := sc.exists_holds F κ α
    exact ⟨σ, hholds.arg, hl.follows_of_known hk hs.run (agrees_at_start hs hholds)⟩

/-- The graph of a numeric function is laid out as the source is, from the code of its blocks. -/
theorem graph_laid (hbody : sc.func.body = some sc.body) (hmemory : sc.modelsMemory = false)
    (hplain : sc.settings.simplify = false) (hhavoc : sc.settings.explicitHavoc = true)
    (hnumeric : sc.isNumeric = true) (h : Yields sc.graph s g s') :
    ∃ place middles, Corresponds sc.body g place middles ∧ sc.Laid s'.supply g place := by
  obtain ⟨plain, s₁, hrun, hsupply, hg, -⟩ := graph_spec h
  obtain rfl := hg hplain
  have hn := order_nodup_of_isNumeric hnumeric
  obtain ⟨place, pieces, pre, s₂, s₃, hcodes, hsame, hprologue, hassembled⟩ :=
    plainGraph_spec hn hrun
  obtain rfl : pre = [] := prologue_eq_nil hmemory _ _ _ hprologue
  have hF : s₂.supply.Extends s'.supply := by
    rw [hsupply, ← hsame]
    exact sc.prologue_grows _ _ _ hprologue
  exact ⟨place, middlesOf pieces,
    (assembled_skeleton hn hcodes hassembled).corresponds (hasTarget_of_isNumeric hnumeric),
    laid_of_assembled hbody hhavoc hnumeric hcodes hF hassembled⟩

theorem run_leaves {body : Body} {R : Rules} (h : body.Run R r) {v w : Visit}
    (hvw : [v, w] <:+: r) : ∃ block i, body.block? v.block = some block ∧
      block.term.successors[i]? = some w.block ∧ R.leaves v.left block.term i := by
  induction h with
  | last => exact absurd hvw.length_le (by simp)
  | @step v' w' rest block block' i _ hblock _ hi hleaves _ _ _ ih =>
      rcases List.infix_cons_iff.1 hvw with hprefix | hinfix
      · obtain ⟨rfl, hnext⟩ := List.cons_prefix_cons.1 hprefix
        obtain ⟨rfl, -⟩ := List.cons_prefix_cons.1 hnext
        exact ⟨block, i, hblock, hi, hleaves⟩
      · exact ih hinfix

/-- The run goes from `v` to `w`, and thereby decides the comparison `c`, which has another use and
a variable. -/
structure Decides (sc : Scope) (c : InstId) (t : Bool) (v w : Visit) : Prop where
  comparison : ∃ pred a b, sc.body.kind? (.inst c) = some (.compare pred a b)
  used : 2 ≤ sc.useCount (.inst c)
  shown : sc.hidden (.inst c) = false
  branch : ∃ block onTrue onFalse, sc.body.block? v.block = some block ∧
    block.term = .condBr (.inst c) onTrue onFalse ∧
    (if t then w.block ≠ onFalse else w.block ≠ onTrue)

/-- The value of a comparison that is decided cannot be any other. -/
theorem Decides.frozen_eq {c : InstId} {t : Bool} {v w : Visit} (hd : sc.Decides c t v w)
    (hk : sc.body.Run (sc.known (sc.frozen κ α)) r) (hvw : [v, w] <:+: r) : κ c = t.toInt := by
  obtain ⟨block, onTrue, onFalse, hblock, hterm, hw⟩ := hd.branch
  obtain ⟨pred, a, b, hkind⟩ := hd.comparison
  obtain ⟨block', i, hblock', hi, hleaves⟩ := run_leaves hk hvw
  obtain rfl := Option.some.inj (hblock.symm.trans hblock')
  rw [hterm] at hi hleaves
  have ht : decide (i = 0) = t := by
    match i, hi with
    | 0, hi =>
        obtain rfl := Option.some.inj hi
        cases t with
        | true => rfl
        | false => exact absurd rfl hw
    | 1, hi =>
        obtain rfl := Option.some.inj hi
        cases t with
        | true => exact absurd rfl hw
        | false => rfl
  have hmay : sc.MayBe (sc.frozen κ α v.left) (.inst c) (decide (i = 0)) := hleaves
  have hseen : sc.frozen κ α v.left (.inst c) = some (κ c) := by
    simp [frozen, hd.shown, Body.isComparison, hkind]
  simp only [MayBe, Value.toInt?, hkind, ht] at hmay
  exact hmay.2 hd.used _ hseen

/-- A run that decides a comparison with another use both ways has no execution. -/
theorem not_hasExecution_of_decides (hl : sc.Laid F g place)
    (hs : sc.body.Starts (sc.body.source α) r) {c : InstId} {v w v' w' : Visit}
    (hvw : [v, w] <:+: r) (htrue : sc.Decides c true v w) (hvw' : [v', w'] <:+: r)
    (hfalse : sc.Decides c false v' w') : ¬sc.HasExecution F g place α r := by
  intro hexecution
  obtain ⟨κ, hk⟩ := (hasExecution_iff hl hs).1 hexecution
  have h₁ := htrue.frozen_eq hk hvw
  have h₀ := hfalse.frozen_eq hk hvw'
  cases h₁.symm.trans h₀

/-- Where no comparison is read as a number, and none that is branched on has another use, every run
has an execution. -/
theorem hasExecution_of_sparesTests (hl : sc.Laid F g place) (hnumeric : sc.isNumeric = true)
    (hssa : sc.body.DefinesBeforeUse) (hspares : sc.sparesTests = true)
    (hs : sc.body.Starts (sc.body.source α) r) : sc.HasExecution F g place α r := by
  apply (hasExecution_iff hl hs).2
  refine ⟨fun _ => 0, known_run hnumeric hssa hspares hs.run fun v hv => ?_⟩
  have hentry : sc.body.entry? = some v.block := by
    rw [← hs.entry]
    exact Option.map_eq_some_iff.2 ⟨v, hv, rfl⟩
  rw [hs.nothing v hv]
  exact .entry hentry

end Scope

/-- The graph of a numeric function is laid out as the function is. -/
theorem functionGraph_laid {program : Module} {id : FuncId} {settings : Settings}
    {s s' : Session} {g : FlowGraph} {sc : Scope}
    (hscope : Scope.ofFunction program id .silent settings = .ok sc)
    (hplain : settings.simplify = false) (hhavoc : settings.explicitHavoc = true)
    (hnumeric : sc.isNumeric = true)
    (h : Yields (functionGraph program id .silent settings) s g s') :
    ∃ place middles, Corresponds sc.body g place middles ∧ sc.Laid s'.supply g place := by
  obtain ⟨sc', hscope', h⟩ := functionGraph_scope h
  obtain rfl := Except.ok.inj (hscope.symm.trans hscope')
  obtain ⟨func, body, -, hbody, rfl⟩ := Scope.ofFunction_spec hscope
  exact Scope.graph_laid hbody rfl hplain hhavoc hnumeric h

/-- In a graph that is not simplified, and has explicit havocs and no memory, a run has an execution
just if it is allowed for some fixed values of the comparisons. -/
theorem functionGraph_hasExecution_iff {program : Module} {id : FuncId} {settings : Settings}
    {s s' : Session} {g : FlowGraph} {sc : Scope}
    (hscope : Scope.ofFunction program id .silent settings = .ok sc)
    (hplain : settings.simplify = false) (hhavoc : settings.explicitHavoc = true)
    (hnumeric : sc.isNumeric = true)
    (h : Yields (functionGraph program id .silent settings) s g s') :
    ∃ place middles, Corresponds sc.body g place middles ∧
      ∀ α r, sc.body.Starts (sc.body.source α) r →
        (sc.HasExecution s'.supply g place α r ↔
          ∃ κ, sc.body.Run (sc.known (sc.frozen κ α)) r) := by
  obtain ⟨place, middles, hcorresponds, hlaid⟩ :=
    functionGraph_laid hscope hplain hhavoc hnumeric h
  exact ⟨place, middles, hcorresponds, fun α r hs => Scope.hasExecution_iff hlaid hs⟩

/-- Every run has an execution in such a graph, if operands are defined before they are used, no
comparison is read as a number, and none that is branched on has another use. -/
theorem functionGraph_hasExecution_of_sparesTests {program : Module} {id : FuncId}
    {settings : Settings} {s s' : Session} {g : FlowGraph} {sc : Scope}
    (hscope : Scope.ofFunction program id .silent settings = .ok sc)
    (hplain : settings.simplify = false) (hhavoc : settings.explicitHavoc = true)
    (hnumeric : sc.isNumeric = true) (hssa : sc.body.DefinesBeforeUse)
    (hspares : sc.sparesTests = true)
    (h : Yields (functionGraph program id .silent settings) s g s') :
    ∃ place middles, Corresponds sc.body g place middles ∧
      ∀ α r, sc.body.Starts (sc.body.source α) r → sc.HasExecution s'.supply g place α r := by
  obtain ⟨place, middles, hcorresponds, hlaid⟩ :=
    functionGraph_laid hscope hplain hhavoc hnumeric h
  exact ⟨place, middles, hcorresponds, fun α r hs =>
    Scope.hasExecution_of_sparesTests hlaid hnumeric hssa hspares hs⟩

/-- The only instruction of `clamp` is a comparison that is branched on. -/
theorem clampBody_inst? {id : InstId} {inst : Inst} (h : clampBody.inst? id = some inst) :
    id = ⟨0⟩ ∧ inst = ⟨some "c", .int 1, .compare .slt (.arg 0) (.int 32 0), ⟨0⟩⟩ := by
  obtain ⟨n⟩ := id
  cases n with
  | zero => exact ⟨rfl, (Option.some.inj h).symm⟩
  | succ n => cases h

theorem clampBody_definesBeforeUse : clampBody.DefinesBeforeUse := by
  constructor
  · intro b _ block _ done id rest _ inst hinst _ x hx
    obtain ⟨-, rfl⟩ := clampBody_inst? hinst
    simp [InstKind.operands] at hx
  · intro b _ block _ p hp
    obtain ⟨-, hinst, hphi⟩ := Scope.phis_spec hp
    rw [(clampBody_inst? hinst).2] at hphi
    cases hphi
  · intro b hb block hblock x hx
    have horder : clampBody.order = [⟨0⟩, ⟨1⟩, ⟨2⟩] := rfl
    rw [horder] at hb
    simp only [List.mem_cons, List.not_mem_nil, or_false] at hb
    rcases hb with rfl | rfl | rfl
    · obtain rfl := Option.some.inj hblock
      obtain rfl := Value.inst.inj (Option.some.inj hx)
      exact .inl List.mem_cons_self
    · obtain rfl := Option.some.inj hblock
      cases hx
    · obtain rfl := Option.some.inj hblock
      cases hx

theorem functionGraph_hasExecution_clamp :
    ∃ g s', Yields (functionGraph { funcs := #[clamp] } ⟨0⟩ .silent {}) {} g s' ∧
      ∃ sc place middles, Corresponds clampBody g place middles ∧
        ∀ α r, clampBody.Starts (clampBody.source α) r →
          Scope.HasExecution sc s'.supply g place α r := by
  have hyields : ∃ g s', Yields (functionGraph { funcs := #[clamp] } ⟨0⟩ .silent {}) {} g s' :=
    ⟨_, _, rfl⟩
  obtain ⟨g, s', h⟩ := hyields
  have hscope : Scope.ofFunction { funcs := #[clamp] } ⟨0⟩ .silent {} =
      .ok ⟨{ funcs := #[clamp] }, ⟨0⟩, clamp, clampBody, .silent, {}⟩ := rfl
  obtain ⟨place, middles, hcorresponds, hall⟩ := functionGraph_hasExecution_of_sparesTests hscope
    rfl rfl (by decide) clampBody_definesBeforeUse (by decide) h
  exact ⟨g, s', h, _, place, middles, hcorresponds, hall⟩

section Counting

/-- A loop that counts up to the argument, and whose condition is also used by a selection. -/
def countingBody : Body := Body.ofListing [
  ⟨"entry", [], .br ⟨1⟩⟩,
  ⟨"head", [
      (some "i", .int 32, .phi [(⟨0⟩, .int 32 0), (⟨2⟩, .inst ⟨3⟩)]),
      (some "c", .int 1, .compare .slt (.inst ⟨0⟩) (.arg 0))],
    .condBr (.inst ⟨1⟩) ⟨2⟩ ⟨3⟩⟩,
  ⟨"body", [
      (some "s", .int 32, .select (.inst ⟨1⟩) (.int 32 1) (.int 32 2)),
      (some "next", .int 32, .binary .add (.inst ⟨0⟩) (.int 32 1))],
    .br ⟨1⟩⟩,
  ⟨"exit", [], .ret none⟩]

def counting : Function where
  name := "counting"
  params := [⟨"n", .int 32⟩]
  ret := .void
  body := some countingBody

def countingScope : Scope := ⟨{ funcs := #[counting] }, ⟨0⟩, counting, countingBody, .silent, {}⟩

/-- The loop is left at once. -/
def skippingRun : List Visit :=
  let start : Env := fun _ => none
  let entered := Function.update start ⟨0⟩ (some 0)
  let left := Function.update entered ⟨1⟩ (some 0)
  [⟨⟨0⟩, start, start⟩, ⟨⟨1⟩, entered, left⟩, ⟨⟨3⟩, left, left⟩]

/-- The loop is left after it has been gone through once. -/
def countingRun : List Visit :=
  let start : Env := fun _ => none
  let entered := Function.update start ⟨0⟩ (some 0)
  let tested := Function.update entered ⟨1⟩ (some 1)
  let counted := Function.update (Function.update tested ⟨2⟩ (some 1)) ⟨3⟩ (some 1)
  let entered' := Function.update counted ⟨0⟩ (some 1)
  let left := Function.update entered' ⟨1⟩ (some 0)
  [⟨⟨0⟩, start, start⟩, ⟨⟨1⟩, entered, tested⟩, ⟨⟨2⟩, tested, counted⟩, ⟨⟨1⟩, entered', left⟩,
    ⟨⟨3⟩, left, left⟩]

variable {R : Rules} {id : InstId} {ids : List InstId} {pred : BlockId} {ρ ρ' : Env} {n : Int}

theorem executes_phi {body : Body} (hphi : body.isPhi id = true) (h : body.Executes R ids ρ ρ') :
    body.Executes R (id :: ids) ρ ρ' := by
  unfold Body.Executes
  rwa [if_pos hphi]

theorem executes_cons {body : Body} (hphi : body.isPhi id = false) (hn : R.result ρ id n)
    (h : body.Executes R ids (Function.update ρ id (some n)) ρ') :
    body.Executes R (id :: ids) ρ ρ' := by
  unfold Body.Executes
  rw [hphi]
  exact ⟨n, hn, h⟩

/-- A block with a single phi is entered. -/
theorem enters_single {body : Body} {block : Block} {inst : Inst} {v : Value}
    (hphis : body.phis block = [(id, inst)]) (hv : incomingValue? inst.kind pred = some v)
    (hn : R.incoming ρ id v n) : body.Enters R pred block ρ (Function.update ρ id (some n)) := by
  constructor
  · intro p hp
    rw [hphis] at hp
    obtain rfl := List.mem_singleton.1 hp
    exact ⟨v, n, hv, Function.update_self _ _ _, hn⟩
  · intro id' hid
    rw [hphis] at hid
    exact Function.update_of_ne (fun he => hid (List.mem_singleton.2 he)) _ _

theorem enters_none {body : Body} {block : Block} (hphis : body.phis block = []) :
    body.Enters R pred block ρ ρ := by
  constructor
  · intro p hp
    rw [hphis] at hp
    cases hp
  · exact fun _ _ => rfl

theorem counting_yields :
    ∃ g s', Yields (functionGraph { funcs := #[counting] } ⟨0⟩ .silent {}) {} g s' :=
  exists_of_endsWell (by decide +kernel)

theorem skippingRun_starts :
    countingBody.Starts (countingBody.source fun _ => 0) skippingRun := by
  refine ⟨?_, rfl, fun v hv => Option.some.inj hv ▸ rfl⟩
  refine .step (i := 0) (by decide) rfl rfl rfl rfl rfl (enters_single rfl rfl rfl) ?_
  refine .step (i := 1) (by decide) rfl (executes_phi rfl (executes_cons rfl ?_ rfl)) rfl rfl rfl
    (enters_none rfl) (.last (by decide) rfl rfl)
  exact ⟨_, rfl, 0, 0, rfl, rfl, rfl⟩

theorem skippingRun_known : countingBody.Run
    (countingScope.known (countingScope.frozen (fun _ => 0) fun _ => 0)) skippingRun := by
  refine .step (i := 0) (by decide) rfl rfl rfl trivial rfl (enters_single rfl rfl ?_) ?_
  · rintro - x hx
    exact Option.some.inj hx
  refine .step (i := 1) (by decide) rfl
    (executes_phi rfl (executes_cons rfl (fun _ => trivial) rfl)) rfl ⟨?_, ?_⟩ rfl
    (enters_none rfl) (.last (by decide) rfl rfl)
  · intro u hu
    exact (Option.some.inj hu).symm
  · rintro - m hm
    exact (Option.some.inj hm).symm

theorem functionGraph_hasExecution_counting :
    Scope.ofFunction { funcs := #[counting] } ⟨0⟩ .silent {} = .ok countingScope ∧
    countingScope.isNumeric = true ∧
    countingBody.Starts (countingBody.source fun _ => 0) skippingRun ∧
    ∃ g s', Yields (functionGraph { funcs := #[counting] } ⟨0⟩ .silent {}) {} g s' ∧
      ∃ place middles, Corresponds countingBody g place middles ∧
        countingScope.HasExecution s'.supply g place (fun _ => 0) skippingRun := by
  obtain ⟨g, s', h⟩ := counting_yields
  have hscope : Scope.ofFunction { funcs := #[counting] } ⟨0⟩ .silent {} = .ok countingScope := rfl
  have hnumeric : countingScope.isNumeric = true := by decide
  obtain ⟨place, middles, hcorresponds, hiff⟩ :=
    functionGraph_hasExecution_iff hscope rfl rfl hnumeric h
  have hexecution := (hiff (fun _ => 0) skippingRun skippingRun_starts).2 ⟨_, skippingRun_known⟩
  exact ⟨hscope, hnumeric, skippingRun_starts, g, s', h, place, middles, hcorresponds, hexecution⟩

theorem countingRun_starts :
    countingBody.Starts (countingBody.source fun _ => 1) countingRun := by
  refine ⟨?_, rfl, fun v hv => Option.some.inj hv ▸ rfl⟩
  refine .step (i := 0) (by decide) rfl rfl rfl rfl rfl (enters_single rfl rfl rfl) ?_
  refine .step (i := 0) (by decide) rfl (executes_phi rfl (executes_cons rfl ?_ rfl)) rfl rfl rfl
    (enters_none rfl) ?_
  · exact ⟨_, rfl, 0, 1, rfl, rfl, rfl⟩
  refine .step (i := 0) (by decide) rfl
    (executes_cons rfl ?_ (executes_cons rfl ?_ rfl)) rfl rfl rfl (enters_single rfl rfl rfl) ?_
  · exact ⟨_, rfl, true, 1, 2, rfl, rfl, rfl, rfl⟩
  · exact ⟨_, rfl, 0, 1, rfl, rfl, rfl⟩
  refine .step (i := 1) (by decide) rfl (executes_phi rfl (executes_cons rfl ?_ rfl)) rfl rfl rfl
    (enters_none rfl) (.last (by decide) rfl rfl)
  exact ⟨_, rfl, 1, 1, rfl, rfl, rfl⟩

/-- Going through the loop once and leaving it is a run, but no execution follows it. -/
theorem not_hasExecution_counting :
    countingScope.isNumeric = true ∧
    countingBody.Starts (countingBody.source fun _ => 1) countingRun ∧
    ∃ g s', Yields (functionGraph { funcs := #[counting] } ⟨0⟩ .silent {}) {} g s' ∧
      ∃ place middles, Corresponds countingBody g place middles ∧
        ¬countingScope.HasExecution s'.supply g place (fun _ => 1) countingRun := by
  obtain ⟨g, s', h⟩ := counting_yields
  have hnumeric : countingScope.isNumeric = true := by decide
  have hgraph : Yields countingScope.graph {} g s' := h
  obtain ⟨place, middles, hcorresponds, hlaid⟩ :=
    Scope.graph_laid rfl rfl rfl rfl hnumeric hgraph
  refine ⟨hnumeric, countingRun_starts, g, s', h, place, middles, hcorresponds, ?_⟩
  refine Scope.not_hasExecution_of_decides hlaid countingRun_starts (c := ⟨1⟩)
    ⟨[_], [_, _], rfl⟩ ⟨⟨_, _, _, rfl⟩, ?_, ?_, _, _, _, rfl, rfl, ?_⟩
    ⟨[_, _, _], [], rfl⟩ ⟨⟨_, _, _, rfl⟩, ?_, ?_, _, _, _, rfl, rfl, ?_⟩
  all_goals decide

end Counting

end AffineFlow
