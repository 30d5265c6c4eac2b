import AffineFlow.Proofs.Execution.Following
import Mathlib.Data.List.Basic

/-!
# Comparisons that are up to date

If every operand is defined before it is used on every path, then a comparison
that is available has been executed after whatever it reads. Its operands
therefore give its outcome again, wherever it is consumed. For an instruction
that would make a comparison outdated is executed before the comparison on every
path, and so the comparison is not available there.
-/
namespace AffineFlow

open Ssa

namespace Ssa.Body

variable (body : Body)

/-- A path from the first block to a block. The blocks before the last one are listed, the latest
first. -/
inductive Path : List BlockId → BlockId → Prop
  | entry {b : BlockId} : body.entry? = some b → Path [] b
  | step {path : List BlockId} {b c : BlockId} {block : Block} : Path path b →
      body.block? b = some block → c ∈ block.term.successors → Path (b :: path) c

/-- Every path to the block executes the instruction. -/
def AvailableIn (b : BlockId) (id : InstId) : Prop :=
  ∀ path, body.Path path b → ∃ a ∈ path, ∃ block, body.block? a = some block ∧ id ∈ block.insts

/-- The instruction has been executed, whatever the path, once the block has got through `done`. -/
def AvailableAfter (b : BlockId) (done : List InstId) (id : InstId) : Prop :=
  id ∈ done ∨ body.AvailableIn b id

/-- Every operand is defined before it is used, on every path. A phi uses its operand on the
edge. -/
structure DefinesBeforeUse : Prop where
  inst : ∀ b ∈ body.order, ∀ block, body.block? b = some block →
    ∀ done id rest, block.insts = done ++ id :: rest →
      ∀ inst, body.inst? id = some inst → inst.kind.isPhi = false →
        ∀ x, .inst x ∈ inst.kind.operands → body.AvailableAfter b done x
  phi : ∀ b ∈ body.order, ∀ block, body.block? b = some block → ∀ p ∈ body.phis block,
    ∀ pred predBlock, body.block? pred = some predBlock →
      ∀ x, incomingValue? p.2.kind pred = some (.inst x) →
        body.AvailableAfter pred predBlock.insts x
  term : ∀ b ∈ body.order, ∀ block, body.block? b = some block →
    ∀ x, block.term.operand? = some (.inst x) → body.AvailableAfter b block.insts x

/-- Every path executes the instruction `id` before the instruction `a`. -/
def AvailableBefore (a id : InstId) : Prop :=
  ∃ inst block, body.inst? a = some inst ∧ body.block? inst.block = some block ∧
    (body.AvailableIn inst.block id ∨
      inst.kind.isPhi = false ∧ ∃ done rest, block.insts = done ++ a :: rest ∧ id ∈ done)

/-- The instruction `c` compares the result of `a` with something. -/
def Compares (c a : InstId) : Prop :=
  ∃ pred x y, body.kind? (.inst c) = some (.compare pred x y) ∧ (x = .inst a ∨ y = .inst a)

variable {body} {b c : BlockId} {block : Block} {id x : InstId} {done rest : List InstId}
  {inst : Inst}

theorem not_availableIn_entry (hb : body.entry? = some b) : ¬body.AvailableIn b id := by
  intro h
  obtain ⟨a, ha, -⟩ := h [] (.entry hb)
  cases ha

/-- What is available in a block is available at the end of each block before it. -/
theorem AvailableIn.of_succ (h : body.AvailableIn c id) (hblock : body.block? b = some block)
    (hc : c ∈ block.term.successors) : body.AvailableAfter b block.insts id := by
  by_cases hid : id ∈ block.insts
  · exact .inl hid
  · right
    intro path hpath
    obtain ⟨a, ha, block', hblock', hid'⟩ := h _ (hpath.step hblock hc)
    rcases List.mem_cons.1 ha with rfl | ha
    · obtain rfl := Option.some.inj (hblock.symm.trans hblock')
      exact absurd hid' hid
    · exact ⟨a, ha, block', hblock', hid'⟩

/-- Where an instruction stands, what is available there is what is executed before it. -/
theorem availableBefore_iff (hinst : body.inst? id = some inst) (hb : inst.block = b)
    (hblock : body.block? b = some block) (hinsts : block.insts = done ++ id :: rest)
    (hn : block.insts.Nodup) (hphi : inst.kind.isPhi = false) :
    body.AvailableBefore id x ↔ body.AvailableAfter b done x := by
  constructor
  · intro h
    obtain ⟨inst', block', hinst', hblock', havailable⟩ := h
    obtain rfl := Option.some.inj (hinst.symm.trans hinst')
    rw [hb] at hblock' havailable
    obtain rfl := Option.some.inj (hblock.symm.trans hblock')
    rcases havailable with havailable | ⟨-, done', rest', hinsts', hx⟩
    · exact .inr havailable
    · rw [hinsts] at hinsts' hn
      have hnot : id ∉ done ++ rest := (List.nodup_cons.1 (List.nodup_middle.1 hn)).1
      rw [List.mem_append, not_or] at hnot
      obtain ⟨hdone, -, -⟩ := (List.append_cons_inj_of_notMem hnot.1 hnot.2).1 hinsts'
      exact .inl (hdone ▸ hx)
  · intro h
    refine ⟨inst, block, hinst, hb ▸ hblock, ?_⟩
    rcases h with hx | hx
    · exact .inr ⟨hphi, done, rest, hinsts, hx⟩
    · exact .inl (hb ▸ hx)

theorem availableBefore_phi_iff (hinst : body.inst? id = some inst) (hb : inst.block = b)
    (hblock : body.block? b = some block) (hphi : inst.kind.isPhi = true) :
    body.AvailableBefore id x ↔ body.AvailableIn b x := by
  constructor
  · intro h
    obtain ⟨inst', block', hinst', -, havailable⟩ := h
    obtain rfl := Option.some.inj (hinst.symm.trans hinst')
    rcases havailable with havailable | ⟨hno, -⟩
    · exact hb ▸ havailable
    · cases hno.symm.trans hphi
  · intro h
    exact ⟨inst, block, hinst, hb ▸ hblock, .inl (hb ▸ h)⟩

end Ssa.Body

namespace Scope

/-- The value is the result of a comparison. -/
def isTest (sc : Scope) (v : Value) : Bool := v.toInst?.any sc.body.isComparison

/-- A selection on the value can work it out if it is a comparison. -/
def isWorkedOut (sc : Scope) (c : Value) : Bool :=
  match sc.body.kind? c with
  | some (.compare _ a b) => !sc.hidden a && !sc.hidden b
  | _ => true

/-- The instruction does not read a comparison as a number. -/
def sparesKind (sc : Scope) : InstKind → Bool
  | .select c a b => sc.isWorkedOut c && !sc.isTest a && !sc.isTest b
  | .other _ => true
  | kind => kind.operands.all fun v => !sc.isTest v

/-- The terminator does not read a comparison as a number, nor does it fix one that others use. -/
def sparesTerm (sc : Scope) : Terminator → Bool
  | .condBr c _ _ => !sc.isTest c || decide (sc.useCount c < 2)
  | .switch v _ _ => !sc.isTest v
  | _ => true

/-- No comparison is read as a number, and none that is branched on has another use. -/
def sparesTests (sc : Scope) : Bool :=
  sc.body.order.all fun b => (sc.body.block? b).all fun block =>
    sc.sparesTerm block.term &&
      block.insts.all fun id => (sc.body.inst? id).all fun inst => sc.sparesKind inst.kind

variable {sc : Scope} {κ : InstId → Int} {α : Nat → Int} {ρ ρ' : Env} {v : Value} {m n u : Int}
  {b : BlockId} {block : Block} {id c a : InstId} {done rest : List InstId}

theorem sparesTerm_of_mem (h : sc.sparesTests = true) (hb : b ∈ sc.body.order)
    (hblock : sc.body.block? b = some block) : sc.sparesTerm block.term = true := by
  have hall := List.all_eq_true.1 h b hb
  rw [hblock, Option.all_some] at hall
  exact (Bool.and_eq_true_iff.1 hall).1

theorem sparesKind_of_mem {inst : Inst} (h : sc.sparesTests = true) (hb : b ∈ sc.body.order)
    (hblock : sc.body.block? b = some block) (hid : id ∈ block.insts)
    (hinst : sc.body.inst? id = some inst) : sc.sparesKind inst.kind = true := by
  have hall := List.all_eq_true.1 h b hb
  rw [hblock, Option.all_some] at hall
  have hone := List.all_eq_true.1 (Bool.and_eq_true_iff.1 hall).2 id hid
  rwa [hinst, Option.all_some] at hone

/-- What is seen of an operand that is not a comparison is what the run reads. -/
theorem reads_eq_frozen (hv : sc.isTest v = false) (hlook : sc.frozen κ α ρ v = some u)
    (hreads : v.Reads α ρ m) : m = u := by
  unfold frozen at hlook
  split at hlook
  next => cases hlook
  cases v with
  | inst id =>
      have hno : sc.body.isComparison id = false := hv
      simp only [hno, Bool.false_eq_true, if_false] at hlook
      have hread : ρ id = some m := hreads
      rw [hread] at hlook
      exact Option.some.inj hlook
  | arg i =>
      have hread : m = α i := hreads
      rw [hread]
      exact Option.some.inj hlook
  | int bits k =>
      have hread : m = literalValue bits k := hreads
      rw [hread]
      exact Option.some.inj hlook
  | global id => cases hlook
  | func id => cases hlook
  | null => cases hlook
  | undef bits => cases hlook

theorem frozen_congr (h : ∀ id, v = .inst id → ρ' id = ρ id) :
    sc.frozen κ α ρ' v = sc.frozen κ α ρ v := by
  cases v with
  | inst id =>
      unfold frozen
      dsimp only
      rw [h id rfl]
  | _ => rfl

theorem outcome?_congr (h : ∀ a, sc.body.Compares c a → ρ' a = ρ a) :
    sc.outcome? (sc.frozen κ α ρ') (.inst c) = sc.outcome? (sc.frozen κ α ρ) (.inst c) := by
  unfold outcome?
  split
  next pred x y hkind =>
    have hx : sc.frozen κ α ρ' x = sc.frozen κ α ρ x := by
      apply frozen_congr
      intro id hid
      exact h id ⟨pred, x, y, hkind, .inl hid⟩
    have hy : sc.frozen κ α ρ' y = sc.frozen κ α ρ y := by
      apply frozen_congr
      intro id hid
      exact h id ⟨pred, x, y, hkind, .inr hid⟩
    rw [hx, hy]
  next => rfl

theorem isComparison_of_kind? {pred : Predicate} {x y : Value}
    (h : sc.body.kind? (.inst c) = some (.compare pred x y)) : sc.body.isComparison c = true := by
  rw [Body.isComparison, h]

/-- A comparison does not read a comparison, if none is read as a number. -/
theorem not_isComparison_of_compares (hc : sc.body.Compares id a)
    (hspares : ∀ inst, sc.body.inst? id = some inst → sc.sparesKind inst.kind = true) :
    sc.body.isComparison a = false := by
  obtain ⟨pred, x, y, hkind, hread⟩ := hc
  obtain ⟨inst, hinst, hk⟩ := Option.map_eq_some_iff.1 hkind
  have hspared := hspares inst hinst
  rw [hk] at hspared
  simp only [sparesKind, InstKind.operands, List.all_cons, List.all_nil, Bool.and_true,
    Bool.and_eq_true, Bool.not_eq_true'] at hspared
  rcases hread with rfl | rfl
  · exact hspared.1
  · exact hspared.2

/-- A comparison that is executed has the outcome that its operands give. -/
theorem outcome_of_result {t : Bool}
    (hspares : ∀ inst, sc.body.inst? id = some inst → sc.sparesKind inst.kind = true)
    (hresult : (sc.body.source α).result ρ id n)
    (ht : sc.outcome? (sc.frozen κ α ρ) (.inst id) = some t) : n = t.toInt := by
  obtain ⟨inst, hinst, hresults⟩ := hresult
  have hspared := hspares inst hinst
  unfold outcome? at ht
  rw [kind?_inst hinst] at ht
  split at ht
  next pred x y hk =>
    have hkind : inst.kind = .compare pred x y := Option.some.inj hk
    rw [hkind] at hresults hspared
    simp only [sparesKind, InstKind.operands, List.all_cons, List.all_nil, Bool.and_true,
      Bool.and_eq_true, Bool.not_eq_true'] at hspared
    obtain ⟨u, w, hx, hy, hn⟩ := hresults
    obtain ⟨u', hu, hw⟩ := Option.bind_eq_some_iff.1 ht
    obtain ⟨w', hw', he⟩ := Option.map_eq_some_iff.1 hw
    have hu' := reads_eq_frozen hspared.1 hu hx
    have hw'' := reads_eq_frozen hspared.2 hw' hy
    rw [hn, hu', hw'', he]
  next => cases ht

theorem isComparison_of_compares (h : sc.body.Compares c a) : sc.body.isComparison c = true := by
  obtain ⟨pred, x, y, hkind, -⟩ := h
  exact isComparison_of_kind? hkind

theorem isComparison_of_outcome {look : Value → Option Int} {t : Bool}
    (h : sc.outcome? look (.inst c) = some t) : sc.body.isComparison c = true := by
  unfold outcome? at h
  split at h
  next pred x y hkind => exact isComparison_of_kind? hkind
  next => cases h

theorem isPhi_of_isComparison (h : sc.body.isComparison c = true) : sc.body.isPhi c = false := by
  unfold Body.isComparison at h
  split at h
  next pred x y hkind =>
    obtain ⟨inst, hinst, hk⟩ := Option.map_eq_some_iff.1 hkind
    rw [Body.isPhi]
    simp only [Value.toInst?, Option.bind_some] at hinst
    rw [hinst, Option.any_some, hk]
    rfl
  next => cases h

/-- The comparisons that are available in a run have been executed after what they read, once the
block has got through `done`. -/
structure Fresh (sc : Scope) (κ : InstId → Int) (α : Nat → Int) (b : BlockId) (done : List InstId)
    (ρ : Env) : Prop where
  executed : ∀ c, sc.body.isComparison c = true → sc.body.AvailableAfter b done c → (ρ c).isSome
  coherent : sc.Coherent ρ
  spared : ∀ c a, sc.body.Compares c a → (ρ a).isSome → ¬sc.body.AvailableBefore a c
  outcome : ∀ c t, sc.body.AvailableAfter b done c →
    sc.outcome? (sc.frozen κ α ρ) (.inst c) = some t → ρ c = some t.toInt

namespace Fresh

/-- At the start nothing is available. -/
theorem entry (hb : sc.body.entry? = some b) : sc.Fresh κ α b [] fun _ => none := by
  have hnone : ∀ c, ¬sc.body.AvailableAfter b [] c := by
    intro c h
    rcases h with h | h
    · cases h
    · exact Body.not_availableIn_entry hb h
  constructor
  · intro c _ h
    exact absurd h (hnone c)
  · exact coherent_none
  · intro c a _ h
    cases h
  · intro c t h
    exact absurd h (hnone c)

variable (hf : sc.Fresh κ α b done ρ)
include hf

/-- A comparison that has been executed is not available before anything that it reads. -/
theorem not_availableBefore (hc : sc.body.Compares c a) (hsome : (ρ c).isSome) :
    ¬sc.body.AvailableBefore a c := by
  have hread : (ρ a).isSome := by
    obtain ⟨pred, x, y, hkind, hread⟩ := hc
    obtain ⟨-, -, -, hx, hy⟩ := hf.coherent.comparison c pred x y hkind hsome
    rcases hread with rfl | rfl
    · exact hx a rfl
    · exact hy a rfl
  exact hf.spared c a hc hread

/-- An instruction is executed. -/
theorem executes (hb : sc.NumericBlock b block) (hblock : sc.body.block? b = some block)
    (hinsts : block.insts = done ++ id :: rest) (hphi : sc.body.isPhi id = false)
    (hspares : ∀ inst, sc.body.inst? id = some inst → sc.sparesKind inst.kind = true)
    (hresult : (sc.body.source α).result ρ id n) :
    sc.Fresh κ α b (done ++ [id]) (Function.update ρ id (some n)) := by
  have havailable : ∀ c, sc.body.AvailableAfter b (done ++ [id]) c →
      c = id ∨ sc.body.AvailableAfter b done c := by
    intro c h
    rcases h with h | h
    · rcases List.mem_append.1 h with h | h
      · exact .inr (.inl h)
      · exact .inl (List.mem_singleton.1 h)
    · exact .inr (.inr h)
  have hexecuted := hresult
  obtain ⟨inst, hinst, hresults⟩ := hexecuted
  have hid : id ∈ block.insts := hinsts ▸ List.mem_append_right _ List.mem_cons_self
  have hkind : inst.kind.isPhi = false := by
    rw [Body.isPhi, hinst] at hphi
    exact hphi
  have hbefore : ∀ c, sc.body.AvailableBefore id c ↔ sc.body.AvailableAfter b done c := fun c =>
    Body.availableBefore_iff hinst (hb.inst id hid inst hinst).1 hblock hinsts hb.insts_nodup hkind
  -- a comparison that is available here has been executed, and so has what it reads
  have hunread : ∀ c, sc.body.Compares c id → ¬sc.body.AvailableAfter b done c := by
    intro c hc h
    have hsome := hf.executed c (isComparison_of_compares hc) h
    exact hf.not_availableBefore hc hsome ((hbefore c).2 h)
  constructor
  · intro c hcomparison h
    rcases havailable c h with rfl | hold
    · rw [Function.update_self]
      rfl
    · exact isSome_update c (hf.executed c hcomparison hold)
  · exact hf.coherent.update hinst (hb.inst id hid inst hinst).2.2 hresults
  · intro c a hc hsome
    by_cases he : a = id
    · subst he
      rw [hbefore]
      exact hunread c hc
    · rw [Function.update_of_ne he] at hsome
      exact hf.spared c a hc hsome
  · intro c t h ht
    rcases havailable c h with rfl | hold
    · rw [Function.update_self]
      have hsame : sc.outcome? (sc.frozen κ α (Function.update ρ c (some n))) (.inst c) =
          sc.outcome? (sc.frozen κ α ρ) (.inst c) := by
        apply outcome?_congr
        intro a hc
        have hne : a ≠ c := by
          intro he
          subst he
          have hno := not_isComparison_of_compares hc hspares
          cases hno.symm.trans (isComparison_of_compares hc)
        exact Function.update_of_ne hne _ _
      rw [outcome_of_result hspares hresult (hsame ▸ ht)]
    · have hsame : sc.outcome? (sc.frozen κ α (Function.update ρ id (some n))) (.inst c) =
          sc.outcome? (sc.frozen κ α ρ) (.inst c) := by
        apply outcome?_congr
        intro a hc
        have hne : a ≠ id := by
          intro he
          subst he
          exact hunread c hc hold
        exact Function.update_of_ne hne _ _
      rw [hsame] at ht
      by_cases he : c = id
      · subst he
        rw [Function.update_self, outcome_of_result hspares hresult ht]
      · rw [Function.update_of_ne he]
        exact hf.outcome c t hold ht

/-- A phi has its value already. -/
theorem skips (hphi : sc.body.isPhi id = true) : sc.Fresh κ α b (done ++ [id]) ρ := by
  have havailable : ∀ c, sc.body.isComparison c = true →
      sc.body.AvailableAfter b (done ++ [id]) c → sc.body.AvailableAfter b done c := by
    intro c hcomparison h
    rcases h with h | h
    · rcases List.mem_append.1 h with h | h
      · exact .inl h
      · rw [List.mem_singleton.1 h] at hcomparison
        cases hphi.symm.trans (isPhi_of_isComparison hcomparison)
    · exact .inr h
  constructor
  · intro c hcomparison h
    exact hf.executed c hcomparison (havailable c hcomparison h)
  · exact hf.coherent
  · exact hf.spared
  · intro c t h ht
    exact hf.outcome c t (havailable c (isComparison_of_outcome ht) h) ht

omit hf in
/-- A block is entered. -/
theorem enters {R : Rules} {b' : BlockId} {block' : Block} (hf : sc.Fresh κ α b block.insts ρ)
    (hblock : sc.body.block? b = some block) (hsucc : b' ∈ block.term.successors)
    (hb' : sc.NumericBlock b' block') (hblock' : sc.body.block? b' = some block')
    (he : sc.body.Enters R b block' ρ ρ') : sc.Fresh κ α b' [] ρ' := by
  have havailable : ∀ c, sc.body.AvailableAfter b' [] c →
      sc.body.AvailableIn b' c ∧ sc.body.AvailableAfter b block.insts c := by
    intro c h
    rcases h with h | h
    · cases h
    · exact ⟨h, h.of_succ hblock hsucc⟩
  have hphi : ∀ a ∈ (sc.body.phis block').map (·.1), sc.body.isPhi a = true ∧
      ∀ c, sc.body.AvailableBefore a c ↔ sc.body.AvailableIn b' c := by
    intro a ha
    obtain ⟨p, hp, rfl⟩ := List.mem_map.1 ha
    obtain ⟨hmem, hinst, hkind⟩ := phis_spec hp
    have hisPhi : sc.body.isPhi p.1 = true := by
      rw [Body.isPhi, hinst]
      exact hkind
    exact ⟨hisPhi, fun c =>
      Body.availableBefore_phi_iff hinst (hb'.inst _ hmem _ hinst).1 hblock' hkind⟩
  have hkept : ∀ c, sc.body.isComparison c = true → ρ' c = ρ c := by
    intro c hc
    apply he.other c
    intro hm
    cases (hphi c hm).1.symm.trans (isPhi_of_isComparison hc)
  have hunread : ∀ c a, sc.body.Compares c a → sc.body.AvailableAfter b' [] c →
      a ∉ (sc.body.phis block').map (·.1) := by
    intro c a hc h hm
    obtain ⟨hin, hafter⟩ := havailable c h
    have hsome := hf.executed c (isComparison_of_compares hc) hafter
    exact hf.not_availableBefore hc hsome (((hphi a hm).2 c).2 hin)
  constructor
  · intro c hcomparison h
    rw [hkept c hcomparison]
    exact hf.executed c hcomparison (havailable c h).2
  · exact hf.coherent.enters he
  · intro c a hc hsome
    by_cases hm : a ∈ (sc.body.phis block').map (·.1)
    · rw [(hphi a hm).2]
      intro hin
      exact hunread c a hc (.inr hin) hm
    · rw [he.other a hm] at hsome
      exact hf.spared c a hc hsome
  · intro c t h ht
    have hsame : sc.outcome? (sc.frozen κ α ρ') (.inst c) =
        sc.outcome? (sc.frozen κ α ρ) (.inst c) := by
      apply outcome?_congr
      intro a hc
      exact he.other a (hunread c a hc h)
    rw [hsame] at ht
    rw [hkept c (isComparison_of_outcome ht)]
    exact hf.outcome c t (havailable c h).2 ht

end Fresh

/-- A number that is not hidden is seen, once it has been computed. -/
theorem frozen_isSome (hv : sc.isNumber v = true) (hshown : sc.hidden v = false)
    (hdefined : Defined ρ v) : ∃ u, sc.frozen κ α ρ v = some u := by
  unfold frozen
  rw [hshown]
  cases v with
  | inst id =>
      by_cases hc : sc.body.isComparison id = true
      · exact ⟨κ id, by simp [hc]⟩
      · obtain ⟨u, hu⟩ := Option.isSome_iff_exists.1 (hdefined id rfl)
        exact ⟨u, by simp [hc, hu]⟩
  | arg i => exact ⟨α i, rfl⟩
  | int bits k => exact ⟨literalValue bits k, rfl⟩
  | global id => cases hv
  | func id => cases hv
  | null => cases hv
  | undef bits => cases hshown

section Rules

/-- A selection or a branch finds the outcome that the run has, if the comparison is up to date. -/
theorem outcome_eq {t u : Bool} (hf : sc.Fresh κ α b done ρ)
    (havailable : ∀ c, v = .inst c → sc.body.AvailableAfter b done c)
    (hv : v.Reads α ρ t.toInt) (hu : sc.outcome? (sc.frozen κ α ρ) v = some u) : u = t := by
  cases v with
  | inst c =>
      have hread : ρ c = some t.toInt := hv
      rw [hf.outcome c u (havailable c rfl) hu] at hread
      have he := Option.some.inj hread
      cases u <;> cases t <;> first | rfl | cases he
  | arg i => cases hu
  | global id => cases hu
  | func id => cases hu
  | int bits k => cases hu
  | null => cases hu
  | undef bits => cases hu

/-- A literal condition is true if it is not zero. -/
theorem literal_eq {bits : Nat} {k : Int} {t : Bool} (h : t.toInt = literalValue bits k) :
    decide (k ≠ 0) = t := by
  have hzero : literalValue bits k = 0 ↔ k = 0 := by
    unfold literalValue
    split
    · by_cases hk : k = 0
      · simp [hk]
      · simp [hk]
    · rfl
  rw [← h] at hzero
  cases t with
  | true => simpa using hzero
  | false => simpa using hzero

theorem exists_of_isTest (h : sc.isTest v = true) :
    ∃ pred x y, sc.body.kind? v = some (.compare pred x y) := by
  cases v with
  | inst id =>
      have hcomparison : sc.body.isComparison id = true := h
      unfold Body.isComparison at hcomparison
      split at hcomparison
      next pred x y hkind => exact ⟨pred, x, y, hkind⟩
      next => cases hcomparison
  | arg i => cases h
  | global id => cases h
  | func id => cases h
  | int bits k => cases h
  | null => cases h
  | undef bits => cases h

theorem isTest_of_kind? {pred : Predicate} {x y : Value}
    (h : sc.body.kind? v = some (.compare pred x y)) : sc.isTest v = true := by
  cases v with
  | inst id => exact isComparison_of_kind? h
  | arg i => cases h
  | global id => cases h
  | func id => cases h
  | int bits k => cases h
  | null => cases h
  | undef bits => cases h

/-- A comparison whose operands are seen can be worked out. -/
theorem isTest_of_outcome_none (hcoherent : sc.Coherent ρ) (hworked : sc.isWorkedOut v = true)
    (hreads : v.Reads α ρ m) (h : sc.outcome? (sc.frozen κ α ρ) v = none) :
    sc.isTest v = false := by
  cases htest : sc.isTest v with
  | false => rfl
  | true =>
      obtain ⟨pred, x, y, hkind⟩ := exists_of_isTest htest
      obtain ⟨-, hx, hy, hdx, hdy⟩ := hcoherent.operands hkind hreads
      rw [isWorkedOut, hkind] at hworked
      simp only [Bool.and_eq_true, Bool.not_eq_true'] at hworked
      obtain ⟨u, hu⟩ := frozen_isSome (κ := κ) (α := α) hx hworked.1 hdx
      obtain ⟨w, hw⟩ := frozen_isSome (κ := κ) (α := α) hy hworked.2 hdy
      simp [outcome?, hkind, hu, hw] at h

/-- What a selection is seen to choose is what it chooses. -/
theorem chooses_eq {c : Value} {t u : Bool} (hf : sc.Fresh κ α b done ρ)
    (havailable : ∀ id, c = .inst id → sc.body.AvailableAfter b done id)
    (hworked : sc.isWorkedOut c = true) (hc : c.Reads α ρ t.toInt)
    (hu : sc.chooses? (sc.frozen κ α ρ) c = some u) : u = t := by
  unfold chooses? at hu
  split at hu
  next k hk =>
    cases c with
    | int bits k' =>
        obtain rfl := Option.some.inj hk
        rw [← Option.some.inj hu]
        simpa using literal_eq hc
    | inst id => cases hk
    | arg i => cases hk
    | global id => cases hk
    | func id => cases hk
    | null => cases hk
    | undef bits => cases hk
  next hk =>
    cases hw : sc.outcome? (sc.frozen κ α ρ) c with
    | some w =>
        rw [hw] at hu
        obtain rfl := Option.some.inj hu
        exact outcome_eq hf havailable hc hw
    | none =>
        rw [hw, Option.none_or] at hu
        obtain ⟨m, hm, rfl⟩ := Option.map_eq_some_iff.1 hu
        have htest := isTest_of_outcome_none hf.coherent hworked hc hw
        rw [← reads_eq_frozen htest hm hc]
        cases t <;> rfl

theorem known_result {inst : Inst} (hf : sc.Fresh κ α b done ρ)
    (hinst : sc.body.inst? id = some inst) (hspares : sc.sparesKind inst.kind = true)
    (havailable : ∀ x, .inst x ∈ inst.kind.operands → sc.body.AvailableAfter b done x)
    (hresults : inst.kind.Results α ρ n) : (sc.known (sc.frozen κ α)).result ρ id n := by
  intro _
  rw [kind?_inst hinst]
  cases hkind : inst.kind with
  | binary op x y =>
      rw [hkind] at hresults hspares
      simp only [sparesKind, InstKind.operands, List.all_cons, List.all_nil, Bool.and_true,
        Bool.and_eq_true, Bool.not_eq_true'] at hspares
      intro u w hu hw
      obtain ⟨u', w', hx, hy, hn⟩ := hresults
      rw [← reads_eq_frozen hspares.1 hu hx, ← reads_eq_frozen hspares.2 hw hy]
      exact hn
  | select c x y =>
      rw [hkind] at hresults hspares havailable
      simp only [sparesKind, Bool.and_eq_true, Bool.not_eq_true'] at hspares
      obtain ⟨⟨hworked, hx⟩, hy⟩ := hspares
      intro t u w ht hu hw
      obtain ⟨t', u', w', hc, hreadx, hready, hn⟩ := hresults
      have hsame : t = t' := by
        apply chooses_eq hf _ hworked hc ht
        intro x' hx'
        exact havailable x' (hx' ▸ List.mem_cons_self)
      rw [hsame, ← reads_eq_frozen hx hu hreadx, ← reads_eq_frozen hy hw hready]
      exact hn
  | phi incoming => trivial
  | compare pred x y => trivial
  | cast op x => trivial
  | address base ty indices => trivial
  | load ptr => trivial
  | store value ptr => trivial
  | alloca ty => trivial
  | call callee args => trivial
  | other operands => trivial

theorem known_incoming {inst : Inst} {pred : BlockId} (hspares : sc.sparesKind inst.kind = true)
    (hincoming : incomingValue? inst.kind pred = some v) (hreads : v.Reads α ρ n) :
    (sc.known (sc.frozen κ α)).incoming ρ id v n := by
  intro _ u hu
  apply reads_eq_frozen _ hu hreads
  unfold incomingValue? at hincoming
  split at hincoming
  next incoming hkind =>
    rw [hkind] at hspares
    simp only [sparesKind, List.all_eq_true, Bool.not_eq_true'] at hspares
    apply hspares v
    obtain ⟨l₁, l₂, hl, -⟩ := List.lookup_eq_some_iff.1 hincoming
    rw [hl]
    exact List.mem_map.2 ⟨(pred, v), List.mem_append_right _ List.mem_cons_self, rfl⟩
  next => cases hincoming

theorem known_leaves {term : Terminator} {i : Nat} (hf : sc.Fresh κ α b done ρ)
    (hspares : sc.sparesTerm term = true)
    (havailable : ∀ x, term.operand? = some (.inst x) → sc.body.AvailableAfter b done x)
    (h : term.Leaves α ρ i) : (sc.known (sc.frozen κ α)).leaves ρ term i := by
  cases term with
  | condBr c onTrue onFalse =>
      have hreads : c.Reads α ρ (decide (i = 0)).toInt := h
      show sc.MayBe (sc.frozen κ α ρ) c (decide (i = 0))
      unfold MayBe
      split
      next k hk =>
        cases c with
        | int bits k' =>
            obtain rfl := Option.some.inj hk
            exact literal_eq hreads
        | inst id => cases hk
        | arg j => cases hk
        | global id => cases hk
        | func id => cases hk
        | null => cases hk
        | undef bits => cases hk
      next hk =>
      split
      next pred x y hkind =>
        have htest : sc.isTest c = true := isTest_of_kind? hkind
        have hfew : sc.useCount c < 2 := by simpa [sparesTerm, htest] using hspares
        constructor
        · intro u hu
          exact outcome_eq hf (fun x hx => havailable x (hx ▸ rfl)) hreads hu
        · intro hmany
          exact absurd hfew (Nat.not_lt.2 hmany)
      next => trivial
      next hcompare _ =>
        intro m hm
        have htest : sc.isTest c = false := by
          cases htest : sc.isTest c with
          | false => rfl
          | true =>
              obtain ⟨pred, x, y, hkind⟩ := exists_of_isTest htest
              exact absurd hkind (hcompare pred x y)
        exact (reads_eq_frozen htest hm hreads).symm
  | switch v cases targets =>
      have htest : sc.isTest v = false := by simpa [sparesTerm] using hspares
      cases i with
      | zero =>
          obtain ⟨m, hm, hmem⟩ := h
          intro u hu
          rw [← reads_eq_frozen htest hu hm]
          exact hmem
      | succ i =>
          obtain ⟨m, hm, hcase⟩ := h
          intro u w hu hw
          rw [← reads_eq_frozen htest hu hm]
          exact Option.some.inj (hcase.symm.trans hw)
  | br target => trivial
  | ret value => cases h
  | unreachable => cases h

end Rules

section Runs

variable (hnumeric : sc.isNumeric = true) (hssa : sc.body.DefinesBeforeUse)
  (hspares : sc.sparesTests = true)
include hnumeric hssa hspares

/-- The instructions of a block can be explained from what is seen, whatever the comparisons are
taken to be. -/
theorem known_executes (hmem : b ∈ sc.body.order) (hblock : sc.body.block? b = some block)
    (hinsts : block.insts = done ++ rest) (hf : sc.Fresh κ α b done ρ)
    (h : sc.body.Executes (sc.body.source α) rest ρ ρ') :
    sc.body.Executes (sc.known (sc.frozen κ α)) rest ρ ρ' ∧ sc.Fresh κ α b block.insts ρ' := by
  induction rest generalizing done ρ with
  | nil =>
      rw [List.append_nil] at hinsts
      have hsame : ρ' = ρ := h
      subst hsame
      exact ⟨rfl, hinsts ▸ hf⟩
  | cons id rest ih =>
      have hnext : block.insts = (done ++ [id]) ++ rest := by
        rw [List.append_assoc]
        exact hinsts
      unfold Body.Executes at h ⊢
      by_cases hphi : sc.body.isPhi id = true
      · rw [if_pos hphi] at h ⊢
        exact ih hnext (hf.skips hphi) h
      · rw [if_neg hphi] at h ⊢
        rw [Bool.not_eq_true] at hphi
        obtain ⟨n, hresult, hrest⟩ := h
        have hb := numericBlock_of_isNumeric hnumeric hmem hblock
        have hid : id ∈ block.insts := hinsts ▸ List.mem_append_right _ List.mem_cons_self
        have hkinds : ∀ inst, sc.body.inst? id = some inst → sc.sparesKind inst.kind = true :=
          fun inst hinst => sparesKind_of_mem hspares hmem hblock hid hinst
        have hf' := hf.executes hb hblock hinsts hphi hkinds hresult
        obtain ⟨hk, hlast⟩ := ih hnext hf' hrest
        obtain ⟨inst, hinst, hresults⟩ := hresult
        have hkind : inst.kind.isPhi = false := by
          rw [Body.isPhi, hinst] at hphi
          exact hphi
        have havailable := hssa.inst b hmem block hblock done id rest hinsts inst hinst hkind
        exact ⟨⟨n, known_result hf hinst (hkinds inst hinst) havailable hresults, hk⟩, hlast⟩

/-- If no comparison is read as a number, and none that is branched on has another use, then every
run can be explained from what is seen. -/
theorem known_run {r : List Visit} (h : sc.body.Run (sc.body.source α) r)
    (hstart : ∀ v ∈ r.head?, sc.Fresh κ α v.block [] v.entered) :
    sc.body.Run (sc.known (sc.frozen κ α)) r := by
  induction h with
  | @last v block hmem hblock hexecutes =>
      have hf := hstart v rfl
      exact .last hmem hblock
        (known_executes hnumeric hssa hspares hmem hblock rfl hf hexecutes).1
  | @step v w rest block block' i hmem hblock hexecutes hi hleaves hblock' henters hrest ih =>
      have hf := hstart v rfl
      obtain ⟨hk, hf'⟩ := known_executes hnumeric hssa hspares hmem hblock rfl hf hexecutes
      have hwmem := run_mem_order hrest
      have hb' := numericBlock_of_isNumeric hnumeric hwmem hblock'
      have hnext := hf'.enters hblock (List.mem_of_getElem? hi) hb' hblock' henters
      have hleaves' := known_leaves hf' (sparesTerm_of_mem hspares hmem hblock)
        (hssa.term v.block hmem block hblock) hleaves
      have henters' :
          sc.body.Enters (sc.known (sc.frozen κ α)) v.block block' v.left w.entered := by
        constructor
        · intro p hp
          obtain ⟨u, n, hincoming, hn, hreads⟩ := henters.phi p hp
          obtain ⟨hid, hinst, -⟩ := phis_spec hp
          have hkind := sparesKind_of_mem hspares hwmem hblock' hid hinst
          exact ⟨u, n, hincoming, hn, known_incoming hkind hincoming hreads⟩
        · exact henters.other
      refine .step hmem hblock hk hi hleaves' hblock' henters' (ih ?_)
      intro x hx
      obtain rfl := Option.some.inj hx
      exact hnext

end Runs

end Scope

end AffineFlow
