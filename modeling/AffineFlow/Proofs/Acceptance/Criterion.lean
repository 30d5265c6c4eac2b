import AffineFlow.Proofs.Acceptance.Untracked

/-!
# Which functions are accepted

A well-formed function without hidden loads is lowered just if its edges stay in
the layout, its phis mention every block that control may come from, and the
indices of its translated address computations fit their types. Otherwise the
lowering is rejected for the first violation of these rules.
-/
namespace AffineFlow

open Ssa Lowering

namespace Scope

variable {sc : Scope} {i : InstId} {b : BlockId}

/-- The rules that a function has to keep. -/
structure Accepted (sc : Scope) : Prop where
  targets : ∀ b ∈ sc.body.order, ∀ block, sc.body.block? b = some block →
    ∀ succ ∈ block.term.successors, succ ∈ sc.body.order
  incoming : ∀ b ∈ sc.body.order, ∀ block, sc.body.block? b = some block →
    ∀ succ ∈ block.term.successors, ∀ succBlock, sc.body.block? succ = some succBlock →
      ∀ p ∈ sc.body.phis succBlock, (incomingValue? p.2.kind b).isSome = true
  indices : ∀ i, sc.LaidOut i → ∀ inst, sc.body.inst? i = some inst →
    ∀ base sourceTy is, inst.kind = .address base sourceTy is →
      sc.isTranslatedAddress i base = true →
      sourceTy.misfit? (is.tail.map sc.beneathExtension) = none

/-- The rejection names a violation of a rule. -/
inductive Violation (sc : Scope) : Rejection → Prop
  | target {b : BlockId} {block : Block} {succ : BlockId} : b ∈ sc.body.order →
      sc.body.block? b = some block → succ ∈ block.term.successors → succ ∉ sc.body.order →
      Violation sc (.unknownBlock sc.func.name)
  | incoming {b succ : BlockId} {block succBlock : Block} {p : InstId × Inst} :
      b ∈ sc.body.order → sc.body.block? b = some block → succ ∈ block.term.successors →
      sc.body.block? succ = some succBlock → p ∈ sc.body.phis succBlock →
      incomingValue? p.2.kind b = none →
      Violation sc (.missingIncoming sc.func.name (sc.messageName p.1) block.name)
  | index {i : InstId} {inst : Inst} {base : Value} {sourceTy : Ty} {is : List Value}
      {m : Misfit} : sc.LaidOut i → sc.body.inst? i = some inst →
      inst.kind = .address base sourceTy is → sc.isTranslatedAddress i base = true →
      sourceTy.misfit? (is.tail.map sc.beneathExtension) = some m →
      Violation sc (m.rejection sc.func.name (sc.messageName i))

/-- No violation goes with the rules being kept. -/
theorem Accepted.not_violation (ha : sc.Accepted) (r : Rejection) : ¬sc.Violation r := by
  intro hr
  cases hr with
  | target hb hblock hsucc hout => exact hout (ha.targets _ hb _ hblock _ hsucc)
  | incoming hb hblock hsucc hsuccBlock hp hnone =>
      have h := ha.incoming _ hb _ hblock _ hsucc _ hsuccBlock _ hp
      rw [hnone] at h
      cases h
  | index hi hinst hkind htranslated hm =>
      cases (ha.indices _ hi _ hinst _ _ _ hkind htranslated).symm.trans hm

/-- A defect of an instruction is a violation or a hidden load. -/
theorem violation_of_instDefect? {r : Rejection} (hi : sc.LaidOut i)
    (h : sc.instDefect? i = some (.rejected r)) : sc.Violation r := by
  unfold instDefect? at h
  split at h
  next => cases h
  next inst hinst =>
    split at h
    next base sourceTy is hkind =>
      split at h
      next htranslated =>
        obtain ⟨r', hr', he⟩ := Option.map_eq_some_iff.1 h
        obtain ⟨m, hm, hr⟩ := Option.map_eq_some_iff.1 hr'
        cases he
        exact hr ▸ .index hi hinst hkind htranslated hm
      next => cases h
    next => split at h <;> cases h
    next => cases h

theorem violation_of_edgeDefect? {block : Block} {succ : BlockId} {r : Rejection}
    (hb : b ∈ sc.body.order) (hblock : sc.body.block? b = some block)
    (hsucc : succ ∈ block.term.successors)
    (h : sc.edgeDefect? b block succ = some (.rejected r)) : sc.Violation r := by
  unfold edgeDefect? at h
  split at h
  next =>
    obtain ⟨r', hr', he⟩ := Option.map_eq_some_iff.1 h
    obtain ⟨succBlock, hsuccBlock, hphi⟩ := Option.bind_eq_some_iff.1 hr'
    obtain ⟨p, hp, hr⟩ := Option.map_eq_some_iff.1 hphi
    cases he
    have hnone := List.find?_some hp
    exact hr ▸ .incoming hb hblock hsucc hsuccBlock (List.mem_of_find?_eq_some hp)
      (Option.isNone_iff_eq_none.1 hnone)
  next hout =>
    cases h
    exact .target hb hblock hsucc hout

theorem violation_of_defect? {r : Rejection} (h : sc.defect? = some (.rejected r)) :
    sc.Violation r := by
  obtain ⟨done, b, todo, horder, hdefect, -⟩ := List.findSome?_eq_some_iff.1 h
  have hb : b ∈ sc.body.order := horder ▸ List.mem_append_right _ List.mem_cons_self
  unfold blockDefect? at hdefect
  split at hdefect
  next => cases hdefect
  next block hblock =>
    rcases Option.or_eq_some_iff.1 hdefect with hinst | ⟨-, hedge⟩
    · obtain ⟨before, i, after, he, hi, -⟩ := List.findSome?_eq_some_iff.1 hinst
      have hlaid : i ∈ block.insts := he ▸ List.mem_append_right _ List.mem_cons_self
      exact violation_of_instDefect? ⟨b, hb, block, hblock, hlaid⟩ hi
    · obtain ⟨before, succ, after, he, hsucc, -⟩ := List.findSome?_eq_some_iff.1 hedge
      have hmem : succ ∈ block.term.successors := he ▸ List.mem_append_right _ List.mem_cons_self
      exact violation_of_edgeDefect? hb hblock hmem hsucc

/-- Without hidden loads, a function without defects keeps the rules. -/
theorem accepted_of_defect? (h : sc.defect? = none) : sc.Accepted := by
  have hblocks := List.findSome?_eq_none_iff.1 h
  have hparts : ∀ b ∈ sc.body.order, ∀ block, sc.body.block? b = some block →
      (∀ i ∈ block.insts, sc.instDefect? i = none) ∧
        ∀ succ ∈ block.term.successors, sc.edgeDefect? b block succ = none := by
    intro b hb block hblock
    have hdefect := hblocks b hb
    unfold blockDefect? at hdefect
    simp only [hblock] at hdefect
    obtain ⟨hinsts, hedges⟩ := Option.or_eq_none_iff.1 hdefect
    exact ⟨List.findSome?_eq_none_iff.1 hinsts, List.findSome?_eq_none_iff.1 hedges⟩
  have htargets : ∀ b ∈ sc.body.order, ∀ block, sc.body.block? b = some block →
      ∀ succ ∈ block.term.successors, succ ∈ sc.body.order := by
    intro b hb block hblock succ hsucc
    by_contra hout
    have hedge := (hparts b hb block hblock).2 succ hsucc
    rw [edgeDefect?, if_neg hout] at hedge
    cases hedge
  refine ⟨htargets, ?_, ?_⟩
  · intro b hb block hblock succ hsucc succBlock hsuccBlock p hp
    have hedge := (hparts b hb block hblock).2 succ hsucc
    rw [edgeDefect?, if_pos (htargets b hb block hblock succ hsucc), Option.map_eq_none_iff,
      hsuccBlock] at hedge
    have hfind := List.find?_eq_none.1 (Option.map_eq_none_iff.1 hedge) p hp
    simpa [Option.isSome_iff_ne_none] using hfind
  · rintro i ⟨b, hb, block, hblock, hi⟩ inst hinst base sourceTy is hkind htranslated
    have hdefect := (hparts b hb block hblock).1 i hi
    simp only [instDefect?, hinst, hkind, htranslated, if_true, indexDefect?,
      Option.map_eq_none_iff] at hdefect
    exact hdefect

/-- Without hidden loads, the first defect is a rejection. -/
theorem defect?_ne_faulted (hnames : ∀ i, sc.isShadow (.inst i) = false) (f : Fault) :
    sc.defect? ≠ some (.faulted f) := by
  intro h
  obtain ⟨done, b, todo, -, hdefect, -⟩ := List.findSome?_eq_some_iff.1 h
  obtain ⟨block, before, after, -, i, -, -, ⟨inst, ptr, -, -, hhides⟩, -⟩ :=
    blockDefect?_eq_faulted_iff.1 hdefect
  rw [hidesLoad, hnames i, Bool.and_false] at hhides
  cases hhides

end Scope

/-- A well-formed function without hidden names is lowered, from every session, just if it keeps the
rules. Otherwise it is rejected for its first defect, which is a violation of one of them. -/
theorem functionGraph_accepts_iff {program : Module} {id : FuncId} {oracle : Oracle}
    {settings : Settings} {sc : Scope}
    (hscope : Scope.ofFunction program id oracle settings = .ok sc) (hw : sc.WellFormed)
    (hnames : ∀ i, sc.isShadow (.inst i) = false) (s : Session) :
    ((∃ g s', Yields (functionGraph program id oracle settings) s g s') ↔ sc.Accepted) ∧
      ∀ e s', functionGraph program id oracle settings s = .error e s' →
        ∃ r, e = .rejected r ∧ sc.defect? = some (.rejected r) ∧ sc.Violation r := by
  rw [functionGraph_eq hscope]
  have rejected : ∀ e, sc.defect? = some e → ∃ r, e = .rejected r ∧ sc.Violation r := by
    intro e he
    cases e with
    | rejected r => exact ⟨r, rfl, Scope.violation_of_defect? he⟩
    | faulted f => exact absurd he (Scope.defect?_ne_faulted hnames f)
  constructor
  · rw [hw.graph_settles.ok_iff s]
    constructor
    · exact Scope.accepted_of_defect?
    · intro ha
      cases hdefect : sc.defect? with
      | none => rfl
      | some e =>
          obtain ⟨r, -, hr⟩ := rejected e hdefect
          exact absurd hr (ha.not_violation r)
  · intro e s' he
    have hdefect := (hw.graph_settles.error_iff s).1 ⟨s', he⟩
    obtain ⟨r, rfl, hr⟩ := rejected e hdefect
    exact ⟨r, rfl, hdefect, hr⟩

/-- Two functions that load from a field of a struct; in the second one the field is not known. -/
def fieldLoads : Module where
  funcs := #[
    { name := "known", params := [⟨"p", .ptr⟩], ret := .void
      body := some (Body.ofListing [⟨"entry",
        [(some "q", .ptr, .address (.arg 0) (.struct [.int 8, .int 32]) [.int 64 0, .int 32 1]),
          (some "x", .int 32, .load (.inst ⟨0⟩))], .ret none⟩]) },
    { name := "unknown", params := [⟨"p", .ptr⟩, ⟨"k", .int 32⟩], ret := .void
      body := some (Body.ofListing [⟨"entry",
        [(some "q", .ptr, .address (.arg 0) (.struct [.int 8, .int 32]) [.int 64 0, .arg 1]),
          (some "x", .int 32, .load (.inst ⟨0⟩))], .ret none⟩]) }]

/-- Memory is modelled, but no pointer points into a cell. -/
def noCells : Oracle := Tables.toOracle { tracking := .memory }

theorem fieldLoads_fits (k : Fin 2) (sc : Scope)
    (h : Scope.ofFunction fieldLoads ⟨k⟩ noCells {} = .ok sc) :
    sc.WellFormed ∧ ∀ i, sc.isShadow (.inst i) = false := by
  match k with
  | 0 =>
      obtain rfl := Except.ok.inj h
      refine ⟨⟨rfl, by decide, by decide, by decide, by decide, nofun, by decide⟩, fun i => ?_⟩
      match i with
      | ⟨0⟩ => decide
      | ⟨1⟩ => decide
      | ⟨n + 2⟩ => rfl
  | 1 =>
      obtain rfl := Except.ok.inj h
      refine ⟨⟨rfl, by decide, by decide, by decide, by decide, nofun, by decide⟩, fun i => ?_⟩
      match i with
      | ⟨0⟩ => decide
      | ⟨1⟩ => decide
      | ⟨n + 2⟩ => rfl

/-- The known field is accepted, and the unknown one is rejected. -/
theorem functionGraph_accepts_fieldLoads :
    ∃ known unknown, Scope.ofFunction fieldLoads ⟨0⟩ noCells {} = .ok known ∧
      Scope.ofFunction fieldLoads ⟨1⟩ noCells {} = .ok unknown ∧
      (known.WellFormed ∧ ∀ i, known.isShadow (.inst i) = false) ∧
      (unknown.WellFormed ∧ ∀ i, unknown.isShadow (.inst i) = false) ∧
      (∃ g s', Yields (functionGraph fieldLoads ⟨0⟩ noCells {}) {} g s') ∧
      ¬unknown.Accepted ∧ unknown.Violation (.nonConstantField "unknown" "%q") := by
  have hscope : Scope.ofFunction fieldLoads ⟨0⟩ noCells {} = .ok _ := rfl
  have hscope' : Scope.ofFunction fieldLoads ⟨1⟩ noCells {} = .ok _ := rfl
  have hknown := fieldLoads_fits 0 _ hscope
  have hunknown := fieldLoads_fits 1 _ hscope'
  obtain ⟨haccepts, -⟩ := functionGraph_accepts_iff hscope hknown.1 hknown.2 {}
  obtain ⟨hrejects, hviolation⟩ := functionGraph_accepts_iff hscope' hunknown.1 hunknown.2 {}
  refine ⟨_, _, rfl, rfl, hknown, hunknown, ?_, fun ha => ?_, ?_⟩
  · exact haccepts.2 (Scope.accepted_of_defect? (by decide))
  · obtain ⟨g, s', hg⟩ := hrejects.2 ha
    cases hg
  · obtain ⟨r, hr, -, hv⟩ := hviolation _ _ rfl
    cases hr
    exact hv

end AffineFlow
