import AffineFlow.Proofs.Calls.Passing
import AffineFlow.Proofs.Execution.Graph
import AffineFlow.Proofs.Forms.Operands

/-!
# Phis that take their values at once

Along an edge, the phis that another phi reads are first saved in temporaries;
then all phis are written. Neither half reads what it writes, so each of them is
done as if all at once, and together they give each phi what its incoming value
was before the edge, in whatever way the phis read each other.
-/
namespace AffineFlow

open Ssa Lowering

namespace Scope

variable {sc : Scope} {F : VarSupply} {s s' : Session} {stmts : List Stmt} {v : Value}
  {e : AffineForm} {ps : List IncomingPhi} {saved : SavedPhis} {σ τ υ : Valuation}

/-- A phi that the code writes: it is tracked, and of a type that flows into the graph. -/
def moves (sc : Scope) (p : IncomingPhi) : Bool := isYes (sc.tracks (.inst p.id)) && sc.phiFlows p

/-- The variable of a phi. -/
abbrev phiVariable? (sc : Scope) (F : VarSupply) (id : InstId) : Option Var :=
  F.find? (.value sc.funcId (.inst id))

theorem form?_inst {id : InstId} {x : Var} (ht : isYes (sc.tracks (.inst id)) = true)
    (hx : sc.phiVariable? F id = some x) : sc.form? F (.inst id) = some (.ofVar x) :=
  form?_of_denotes (isYes_iff.1 ht) ⟨_, rfl, hx⟩

/-- The temporaries, numbered from `size` up to `size'`, that have the values of operands, and the
forms that stand for these operands from then on. -/
structure Saves (sc : Scope) (F : VarSupply) (size size' : Nat) (saved saved' : SavedPhis)
    (saves : List (Var × AffineForm)) : Prop where
  nodup : (saves.map (·.1)).Nodup
  spare : ∀ w ∈ saves, F.Spare w.1 ∧ size ≤ w.1.id ∧ w.1.id < size'
  form : ∀ w ∈ saves, ∃ v, sc.form? F v = some w.2
  lookup : ∀ v e, saved'.lookup v = some e →
    saved.lookup v = some e ∨ ∃ w ∈ saves, e = .ofVar w.1 ∧ sc.form? F v = some w.2
  kept : ∀ v, (saved.lookup v).isSome → (saved'.lookup v).isSome

namespace Saves

variable {size size' last : Nat} {saved' : SavedPhis} {saves : List (Var × AffineForm)}

theorem refl : sc.Saves F size size' saved saved [] where
  nodup := List.nodup_nil
  spare := List.forall_mem_nil _
  form := List.forall_mem_nil _
  lookup _ _ hv := .inl hv
  kept _ hv := hv

/-- Temporaries may be numbered from further below. -/
theorem mono (h : sc.Saves F size' last saved saved' saves) (hle : size ≤ size') :
    sc.Saves F size last saved saved' saves where
  nodup := h.nodup
  spare w hw := by
    obtain ⟨hspare, hge, hlt⟩ := h.spare w hw
    exact ⟨hspare, Nat.le_trans hle hge, hlt⟩
  form := h.form
  lookup := h.lookup
  kept := h.kept

/-- One more operand is saved before the others. -/
theorem save {x : Var} (h : sc.Saves F size' last ((v, .ofVar x) :: saved) saved' saves)
    (hx : F.Spare x) (hle : size ≤ x.id) (hlt : x.id < size') (hlast : size' ≤ last)
    (he : sc.form? F v = some e) : sc.Saves F size last saved saved' ((x, e) :: saves) where
  nodup := by
    refine List.nodup_cons.2 ⟨fun hm => ?_, h.nodup⟩
    obtain ⟨w, hw, hwx⟩ := List.mem_map.1 hm
    have hbound := (h.spare w hw).2.1
    rw [show w.1 = x from hwx] at hbound
    omega
  spare := List.forall_mem_cons.2 ⟨⟨hx, hle, Nat.lt_of_lt_of_le hlt hlast⟩,
    (h.mono (Nat.le_of_lt (Nat.lt_of_le_of_lt hle hlt))).spare⟩
  form := List.forall_mem_cons.2 ⟨⟨v, he⟩, h.form⟩
  lookup := by
    intro u f hu
    rcases h.lookup u f hu with hold | ⟨w, hw, hform⟩
    · rw [List.lookup_cons] at hold
      split at hold
      next huv =>
        obtain rfl := Option.some.inj hold
        obtain rfl := beq_iff_eq.1 huv
        exact .inr ⟨_, List.mem_cons_self, rfl, he⟩
      next => exact .inl hold
    · exact .inr ⟨w, List.mem_cons_of_mem _ hw, hform⟩
  kept := by
    intro u hu
    apply h.kept u
    rw [List.lookup_cons]
    split
    · rfl
    · exact hu

theorem isSome_lookup {x : Var} (h : sc.Saves F size last ((v, .ofVar x) :: saved) saved' saves) :
    (saved'.lookup v).isSome := by
  apply h.kept v
  rw [List.lookup_cons, beq_self_eq_true]
  rfl

end Saves

/-- Every operand that has a form and is a phi of the block is saved. -/
theorem savePhis_spec {block : BlockId} {saved saved' : SavedPhis}
    (h : Yields (sc.savePhis block saved ps) s (saved', stmts) s') (hF : s'.supply.Extends F) :
    ∃ saves : List (Var × AffineForm), stmts = saves.map (fun w => .assign w.1 w.2) ∧
      sc.Saves F s.supply.size s'.supply.size saved saved' saves ∧
      ∀ p ∈ ps, sc.tracks p.value = .ok true → sc.phiFlows p = true →
        sc.isPhiOf block p.value = true → (sc.form? F p.value).isSome →
        (saved'.lookup p.value).isSome := by
  induction ps generalizing s saved stmts with
  | nil =>
      obtain ⟨he, -⟩ := yields_pure.1 h
      obtain ⟨rfl, rfl⟩ := Prod.mk.inj he
      exact ⟨[], rfl, .refl, List.forall_mem_nil _⟩
  | cons p rest ih =>
      simp only [savePhis, needsSaving, yields_bind, yields_ofExcept] at h
      obtain ⟨needed, _, ⟨hneeded, rfl⟩, h⟩ := h
      cases needed with
      | false =>
          obtain ⟨saves, hstmts, hsaves, hall⟩ := ih h
          refine ⟨saves, hstmts, hsaves, List.forall_mem_cons.2 ⟨?_, hall⟩⟩
          intro htracked hflows hphi _
          -- nothing but an earlier save can have stopped this one
          rw [htracked] at hneeded
          refine hsaves.kept _ (Option.ne_none_iff_isSome.1 fun hnone => ?_)
          simp [Except.map, hflows, hphi, hnone] at hneeded
      | true =>
          simp only [if_true, yields_bind] at h
          obtain ⟨e?, s₁, he, h⟩ := h
          have hsize := (sc.express_grows _ _ _ _ he).size_le
          cases e? with
          | none =>
              have hgrown := sc.savePhis_grows _ _ _ _ _ _ h
              obtain ⟨hform, -⟩ := express_form he (hgrown.trans hF)
              obtain ⟨saves, hstmts, hsaves, hall⟩ := ih h
              refine ⟨saves, hstmts, hsaves.mono hsize, List.forall_mem_cons.2 ⟨?_, hall⟩⟩
              intro _ _ _ hsome
              rw [← hform] at hsome
              cases hsome
          | some e =>
              simp only [yields_bind, yields_pure] at h
              obtain ⟨old, s₂, hold, ⟨saved₂, stmts₂⟩, s₃, hrun, hpair, rfl⟩ := h
              obtain ⟨rfl, rfl⟩ := Prod.mk.inj hpair
              have hgrown := sc.savePhis_grows _ _ _ _ _ _ hrun
              have hspare := temporary_spec hold (hgrown.trans hF)
              have hminted := (Grows.temporary _ _ _ hold).trans (hgrown.trans hF)
              obtain ⟨hform, -⟩ := express_form he hminted
              obtain ⟨rfl, hs₂⟩ := yields_temporary.1 hold
              obtain ⟨saves, rfl, hsaves, hall⟩ := ih hrun
              have hnext : s₂.supply.size = s₁.supply.size + 1 := by
                rw [hs₂]
                exact VarSupply.size_mint _
              have hlt : s₁.supply.next.id < s₂.supply.size := hnext ▸ Nat.lt_succ_self _
              exact ⟨(s₁.supply.next, e) :: saves, rfl,
                hsaves.save hspare hsize hlt hgrown.size_le hform.symm,
                List.forall_mem_cons.2 ⟨fun _ _ _ _ => hsaves.isSome_lookup, hall⟩⟩

/-- The phi is given the variable and the form of a write. -/
structure Assigned (sc : Scope) (F : VarSupply) (saved : SavedPhis) (p : IncomingPhi) (w : Write) :
    Prop where
  target : sc.phiVariable? F p.id = some w.1
  form : w.2 = (saved.lookup p.value).or (sc.form? F p.value)
  formed : saved.lookup p.value = none → (sc.form? F p.value).isSome = sc.isExpressible p.value

theorem expressBefore_form {e? : Option AffineForm}
    (h : Yields (sc.expressBefore saved v) s e? s') (hF : s'.supply.Extends F) :
    e? = (saved.lookup v).or (sc.form? F v) ∧
      (saved.lookup v = none → (sc.form? F v).isSome = sc.isExpressible v) := by
  unfold expressBefore at h
  cases hsaved : saved.lookup v with
  | some e =>
      rw [hsaved] at h
      obtain ⟨rfl, -⟩ := yields_pure.1 h
      exact ⟨rfl, nofun⟩
  | none =>
      rw [hsaved] at h
      obtain ⟨rfl, hexpressible⟩ := express_form h hF
      exact ⟨rfl, fun _ => hexpressible⟩

theorem assignPhis_spec (h : Yields (sc.assignPhis saved ps) s stmts s')
    (hF : s'.supply.Extends F) :
    ∃ writes : List Write, stmts = writes.map (·.stmt) ∧
      List.Forall₂ (sc.Assigned F saved) (ps.filter sc.moves) writes := by
  induction ps generalizing s stmts with
  | nil =>
      obtain ⟨rfl, -⟩ := yields_pure.1 h
      exact ⟨[], rfl, .nil⟩
  | cons p rest ih =>
      simp only [assignPhis, yields_bind, yields_ofExcept] at h
      obtain ⟨tracked, _, ⟨htracked, rfl⟩, h⟩ := h
      have hmoves : sc.moves p = (tracked && sc.phiFlows p) := by rw [moves, isYes_of_eq htracked]
      split at h
      next hwritten =>
        rw [List.filter_cons_of_pos (hmoves.trans hwritten)]
        simp only [yields_bind] at h
        obtain ⟨x, s₁, hx, e?, s₂, he, h⟩ := h
        obtain ⟨stmts', hstmts, hrun⟩ : ∃ stmts', stmts = Write.stmt (x, e?) :: stmts' ∧
            Yields (sc.assignPhis saved rest) s₂ stmts' s' := by
          split at h
          next e =>
            simp only [yields_bind, yields_pure] at h
            obtain ⟨stmts', _, hrun, rfl, rfl⟩ := h
            exact ⟨stmts', rfl, hrun⟩
          next =>
            simp only [yields_bind, yields_pure] at h
            obtain ⟨stmts', _, hrun, rfl, rfl⟩ := h
            exact ⟨stmts', rfl, hrun⟩
        have hlater := (sc.assignPhis_grows _ _ _ _ _ hrun).trans hF
        obtain ⟨hform, hformed⟩ := expressBefore_form he hlater
        obtain ⟨-, r, hr, hfind⟩ :=
          variableOf_spec hx ((sc.expressBefore_grows _ _ _ _ _ he).trans hlater)
        obtain rfl := Option.some.inj hr
        obtain ⟨writes, rfl, hwrites⟩ := ih hrun
        exact ⟨(x, e?) :: writes, hstmts, .cons ⟨hfind, hform, hformed⟩ hwrites⟩
      next hwritten =>
        rw [List.filter_cons_of_neg (by simpa [hmoves] using hwritten)]
        exact ih h

/-- Writes that carry out phis: what is saved goes to spare variables, and what a phi is given
does not depend on a phi. -/
structure Resolution (sc : Scope) (F : VarSupply) (size size' : Nat) (ps : List IncomingPhi)
    (saves : List (Var × AffineForm)) (writes : List Write) : Prop where
  saves_nodup : (saves.map (·.1)).Nodup
  spare : ∀ u ∈ saves, F.Spare u.1 ∧ size ≤ u.1.id ∧ u.1.id < size'
  save : ∀ u ∈ saves, ∃ v, sc.form? F v = some u.2
  writes_nodup : (writes.map (·.1)).Nodup
  phi : List.Forall₂ (fun (p : IncomingPhi) (w : Write) =>
      sc.phiVariable? F p.id = some w.1 ∧
        ((∃ u ∈ saves, w.2 = some (.ofVar u.1) ∧ sc.form? F p.value = some u.2) ∨
          (w.2 = sc.form? F p.value ∧ (sc.form? F p.value).isSome = sc.isExpressible p.value ∧
            ∀ e, w.2 = some e → ∀ t ∈ e.terms, t.1 ∉ writes.map (·.1))))
    (ps.filter sc.moves) writes

/-- The statements give every phi what its incoming value was before all of them, and nothing else
changes, except temporaries numbered from `size` up to `size'`. -/
structure Simultaneous (sc : Scope) (F : VarSupply) (size size' : Nat) (ps : List IncomingPhi)
    (stmts : List Stmt) : Prop where
  target : ∀ p ∈ ps, sc.moves p = true → ∃ x, sc.phiVariable? F p.id = some x
  /-- No form is missing but those of values that cannot be expressed. -/
  formed : ∀ p ∈ ps, sc.moves p = true →
    (sc.form? F p.value).isSome = sc.isExpressible p.value
  total : ∀ σ, ∃ τ, RunAll stmts σ τ
  value : ∀ σ τ, RunAll stmts σ τ → ∀ p ∈ ps, sc.moves p = true →
    ∀ x, sc.phiVariable? F p.id = some x → ∀ e, sc.form? F p.value = some e → τ x = e.eval σ
  /-- Where an incoming value has no form, the phi can take any value. -/
  any : ∀ σ υ : Valuation, (∀ p ∈ ps, sc.moves p = true → ∀ x, sc.phiVariable? F p.id = some x →
      ∀ e, sc.form? F p.value = some e → υ x = e.eval σ) →
    ∃ τ, RunAll stmts σ τ ∧ ∀ p ∈ ps, sc.moves p = true →
      ∀ x, sc.phiVariable? F p.id = some x → τ x = υ x
  other : ∀ σ τ, RunAll stmts σ τ → ∀ y, τ y ≠ σ y →
    (∃ p ∈ ps, sc.moves p = true ∧ sc.phiVariable? F p.id = some y) ∨
      (F.Spare y ∧ size ≤ y.id ∧ y.id < size')

theorem Simultaneous.nil {size size' : Nat} : sc.Simultaneous F size size' [] [] where
  target _ hp := nomatch hp
  formed _ hp := nomatch hp
  total σ := ⟨σ, .nil⟩
  value _ _ _ _ hp := nomatch hp
  any σ _ _ := ⟨σ, .nil, fun _ hp => nomatch hp⟩
  other _ _ hrun _ hy := absurd (congrFun (runAll_nil_iff.1 hrun) _) hy

namespace Resolution

variable {size size' : Nat} {saves : List (Var × AffineForm)} {writes : List Write}
  (hr : sc.Resolution F size size' ps saves writes)
include hr

theorem written {w : Write} (hw : w ∈ writes) :
    ∃ p ∈ ps, sc.moves p = true ∧ sc.phiVariable? F p.id = some w.1 := by
  obtain ⟨p, hp, hfind, -⟩ := exists_mem_of_forall₂ hr.phi.flip hw
  obtain ⟨hp, hmoves⟩ := List.mem_filter.1 hp
  exact ⟨p, hp, hmoves, hfind⟩

/-- Saving changes the spare variables only. -/
theorem saves_run (hrun : RunAll (saves.map fun u => .assign u.1 u.2) σ υ) :
    (∀ y, y ∉ saves.map (·.1) → υ y = σ y) ∧ ∀ u ∈ saves, υ u.1 = u.2.eval σ := by
  let all : List Write := saves.map fun u => (u.1, some u.2)
  have hstmts : saves.map (fun u => Stmt.assign u.1 u.2) = all.map (·.stmt) := by
    rw [List.map_map]
    rfl
  have hkeys : all.map (·.1) = saves.map (·.1) := by
    rw [List.map_map]
    rfl
  rw [hstmts, runAll_writes_iff (hkeys ▸ hr.saves_nodup), hkeys] at hrun
  · exact ⟨hrun.1, fun u hu => hrun.2 (u.1, some u.2) (List.mem_map.2 ⟨u, hu, rfl⟩) u.2 rfl⟩
  · intro w hw e he t ht hm
    obtain ⟨u, hu, rfl⟩ := List.mem_map.1 hw
    obtain rfl := Option.some.inj he
    obtain ⟨v, hv⟩ := hr.save u hu
    obtain ⟨-, r, -, hfind⟩ := form?_denotes hv ht
    rw [hkeys] at hm
    obtain ⟨u', hu', he'⟩ := List.mem_map.1 hm
    exact (hr.spare u' hu').1 r (he' ▸ hfind)

theorem saved_spare {y : Var} (hy : y ∈ saves.map (·.1)) :
    F.Spare y ∧ size ≤ y.id ∧ y.id < size' := by
  obtain ⟨u, hu, rfl⟩ := List.mem_map.1 hy
  exact hr.spare u hu

/-- After saving, each phi is given what its operand was before. -/
theorem form_eq {p : IncomingPhi} {w : Write}
    (hrun : RunAll (saves.map fun u => .assign u.1 u.2) σ υ)
    (hw : (∃ u ∈ saves, w.2 = some (.ofVar u.1) ∧ sc.form? F p.value = some u.2) ∨
      w.2 = sc.form? F p.value) :
    w.2.map (·.eval υ) = (sc.form? F p.value).map (·.eval σ) := by
  obtain ⟨hold, hsaved⟩ := hr.saves_run hrun
  rcases hw with ⟨u, hu, hform, hoperand⟩ | hform
  · rw [hform, hoperand, Option.map_some, Option.map_some, AffineForm.eval_ofVar, hsaved u hu]
  · rw [hform]
    cases he : sc.form? F p.value with
    | none => rfl
    | some e =>
        refine congrArg some (AffineForm.eval_congr fun t ht => hold _ fun hm => ?_)
        obtain ⟨-, r, -, hfind⟩ := form?_denotes he ht
        exact (hr.saved_spare hm).1 r hfind

theorem writes_run : RunAll (writes.map (·.stmt)) υ τ ↔ (∀ y, y ∉ writes.map (·.1) → τ y = υ y) ∧
    ∀ w ∈ writes, ∀ e, w.2 = some e → τ w.1 = e.eval υ := by
  apply runAll_writes_iff hr.writes_nodup
  intro w hw e he t ht hm
  obtain ⟨p, -, -, ⟨u, hu, hform, -⟩ | ⟨-, -, hnot⟩⟩ := exists_mem_of_forall₂ hr.phi.flip hw
  · obtain rfl := Option.some.inj (he.symm.trans hform)
    obtain rfl := List.mem_singleton.1 ht
    obtain ⟨w', hw', he'⟩ := List.mem_map.1 hm
    obtain ⟨q, -, -, hfind⟩ := hr.written hw'
    exact (hr.spare u hu).1 _ (he' ▸ hfind)
  · exact hnot e he t ht hm

/-- The write of a phi that moves. -/
theorem write_of {p : IncomingPhi} (hp : p ∈ ps) (hmoves : sc.moves p = true) {x : Var}
    (hx : sc.phiVariable? F p.id = some x) : ∃ w ∈ writes, w.1 = x ∧
      ((∃ u ∈ saves, w.2 = some (.ofVar u.1) ∧ sc.form? F p.value = some u.2) ∨
        w.2 = sc.form? F p.value) := by
  obtain ⟨w, hw, hfind, hform⟩ := exists_mem_of_forall₂ hr.phi (List.mem_filter.2 ⟨hp, hmoves⟩)
  exact ⟨w, hw, Option.some.inj (hfind.symm.trans hx), hform.imp id (·.1)⟩

theorem value_of_run
    (hrun : RunAll (saves.map (fun u => .assign u.1 u.2) ++ writes.map (·.stmt)) σ τ)
    {p : IncomingPhi} (hp : p ∈ ps) (hmoves : sc.moves p = true) {x : Var}
    (hx : sc.phiVariable? F p.id = some x) (he : sc.form? F p.value = some e) :
    τ x = e.eval σ := by
  obtain ⟨υ, hsaves, hwrites⟩ := runAll_append_iff.1 hrun
  obtain ⟨w, hw, rfl, hform⟩ := hr.write_of hp hmoves hx
  have heq := hr.form_eq hsaves hform
  rw [he, Option.map_some] at heq
  obtain ⟨e', he', hvalue⟩ := Option.map_eq_some_iff.1 heq
  rw [(hr.writes_run.1 hwrites).2 w hw e' he', hvalue]

theorem other_of_run
    (hrun : RunAll (saves.map (fun u => .assign u.1 u.2) ++ writes.map (·.stmt)) σ τ) {y : Var}
    (hy : τ y ≠ σ y) : (∃ p ∈ ps, sc.moves p = true ∧ sc.phiVariable? F p.id = some y) ∨
      (F.Spare y ∧ size ≤ y.id ∧ y.id < size') := by
  obtain ⟨υ, hsaves, hwrites⟩ := runAll_append_iff.1 hrun
  by_cases hm : y ∈ writes.map (·.1)
  · obtain ⟨w, hw, rfl⟩ := List.mem_map.1 hm
    exact .inl (hr.written hw)
  · refine .inr (hr.saved_spare (by_contra fun hs => hy ?_))
    rw [(hr.writes_run.1 hwrites).1 y hm, (hr.saves_run hsaves).1 y hs]

omit hr in
theorem exists_saves_run (saves : List (Var × AffineForm)) (σ : Valuation) :
    ∃ υ, RunAll (saves.map fun u => .assign u.1 u.2) σ υ := by
  refine exists_runAll (fun stmt hs τ => ?_) σ
  obtain ⟨u, -, rfl⟩ := List.mem_map.1 hs
  exact ⟨_, .assign⟩

omit hr in
theorem exists_run (σ : Valuation) :
    ∃ τ, RunAll (saves.map (fun u => .assign u.1 u.2) ++ writes.map (·.stmt)) σ τ := by
  obtain ⟨υ, hsaves⟩ := exists_saves_run saves σ
  have hwrites : ∃ τ, RunAll (writes.map (·.stmt)) υ τ := by
    refine exists_runAll (fun stmt hs τ => ?_) υ
    obtain ⟨w, -, rfl⟩ := List.mem_map.1 hs
    exact w.exists_runs τ
  obtain ⟨τ, hwrites⟩ := hwrites
  exact ⟨τ, runAll_append_iff.2 ⟨υ, hsaves, hwrites⟩⟩

/-- The phis can take the values that they have in `υ`, if those that are determined agree. -/
theorem exists_run_to (hυ : ∀ p ∈ ps, sc.moves p = true → ∀ x, sc.phiVariable? F p.id = some x →
      ∀ e, sc.form? F p.value = some e → υ x = e.eval σ) :
    ∃ τ, RunAll (saves.map (fun u => .assign u.1 u.2) ++ writes.map (·.stmt)) σ τ ∧
      ∀ p ∈ ps, sc.moves p = true → ∀ x, sc.phiVariable? F p.id = some x → τ x = υ x := by
  obtain ⟨ρ, hsaves⟩ := exists_saves_run saves σ
  let τ : Valuation := fun y => if y ∈ writes.map (·.1) then υ y else ρ y
  have hwritten : ∀ w ∈ writes, τ w.1 = υ w.1 := fun w hw => if_pos (List.mem_map_of_mem hw)
  refine ⟨τ, runAll_append_iff.2 ⟨ρ, hsaves, hr.writes_run.2 ⟨fun y hy => if_neg hy, ?_⟩⟩, ?_⟩
  · intro w hw e he
    obtain ⟨p, hp, hfind, hform⟩ := exists_mem_of_forall₂ hr.phi.flip hw
    obtain ⟨hp, hmoves⟩ := List.mem_filter.1 hp
    have heq := hr.form_eq hsaves (hform.imp id (·.1))
    rw [he, Option.map_some] at heq
    obtain ⟨e', he', hvalue⟩ := Option.map_eq_some_iff.1 heq.symm
    rw [hwritten w hw, hυ p hp hmoves w.1 hfind e' he', hvalue]
  · intro p hp hmoves x hx
    obtain ⟨w, hw, rfl, -⟩ := hr.write_of hp hmoves hx
    exact hwritten w hw

theorem simultaneous : sc.Simultaneous F size size' ps
    (saves.map (fun u => .assign u.1 u.2) ++ writes.map (·.stmt)) where
  target p hp hmoves := by
    obtain ⟨w, -, hfind, -⟩ := exists_mem_of_forall₂ hr.phi (List.mem_filter.2 ⟨hp, hmoves⟩)
    exact ⟨w.1, hfind⟩
  formed p hp hmoves := by
    obtain ⟨w, -, -, ⟨u, -, -, he⟩ | ⟨-, hformed, -⟩⟩ :=
      exists_mem_of_forall₂ hr.phi (List.mem_filter.2 ⟨hp, hmoves⟩)
    · rw [he, isExpressible_of_form? he]
      rfl
    · exact hformed
  total := exists_run
  value _ _ hrun _ hp hmoves _ hx _ he := hr.value_of_run hrun hp hmoves hx he
  any _ _ hυ := hr.exists_run_to hυ
  other _ _ hrun _ hy := hr.other_of_run hrun hy

end Resolution

/-- The phis that are saved and written one after the other change at once, if each of them belongs
to the block and comes up once. -/
theorem simultaneous_of_codes {target : BlockId} {s₁ : Session} {saved' : SavedPhis}
    {saves writes : List Stmt} (hn : (ps.map (·.id)).Nodup)
    (hphi : ∀ p ∈ ps, sc.isPhiOf target (.inst p.id) = true)
    (hsaves : Yields (sc.savePhis target [] ps) s (saved', saves) s₁)
    (hwrites : Yields (sc.assignPhis saved' ps) s₁ writes s') (hF : s'.supply.Extends F) :
    sc.Simultaneous F s.supply.size s'.supply.size ps (saves ++ writes) := by
  have hgrown := sc.assignPhis_grows _ _ _ _ _ hwrites
  obtain ⟨saves', rfl, hsaved', hneeded⟩ := savePhis_spec hsaves (hgrown.trans hF)
  obtain ⟨writes', rfl, hassigned⟩ := assignPhis_spec hwrites hF
  have hresolution :
      sc.Resolution F s.supply.size s'.supply.size ps saves' writes' := by
    refine ⟨hsaved'.nodup, fun u hu => ?_, hsaved'.form, ?_, ?_⟩
    · obtain ⟨hspare, hge, hlt⟩ := hsaved'.spare u hu
      exact ⟨hspare, hge, Nat.lt_of_lt_of_le hlt hgrown.size_le⟩
    · refine nodup_of_forall₂ ?_ (hn.sublist (List.filter_sublist.map _)) hassigned
      intro p w p' w' h h' he
      have hsame : Referent.value sc.funcId (.inst p.id) = .value sc.funcId (.inst p'.id) :=
        VarSupply.find?_injective h.target (he ▸ h'.target)
      exact Value.inst.inj (Referent.value.inj hsame).2
    · have hmem : ∀ p ∈ ps.filter sc.moves, p ∈ ps ∧ sc.moves p = true := fun p hp =>
        List.mem_filter.1 hp
      apply ((List.forall₂_and_left _ _).2 ⟨hmem, hassigned⟩).imp
      intro p w hpw
      obtain ⟨⟨hp, hmoves⟩, hfind, hform, hformed⟩ := hpw
      refine ⟨hfind, ?_⟩
      cases hsaved : saved'.lookup p.value with
      | some e =>
          rw [hsaved] at hform
          rcases hsaved'.lookup _ _ hsaved with hnil | ⟨u, hu, rfl, hoperand⟩
          · cases hnil
          · exact .inl ⟨u, hu, hform, hoperand⟩
      | none =>
          rw [hsaved, Option.none_or] at hform
          refine .inr ⟨hform, hformed hsaved, fun e he t ht hm => ?_⟩
          -- the operand would be another phi of the block, and those are saved
          obtain ⟨w', hw', hvar⟩ := List.mem_map.1 hm
          obtain ⟨q, hq, hfind', -⟩ := exists_mem_of_forall₂ hassigned.flip hw'
          have hoperand := hform.symm.trans he
          obtain ⟨htracked, r, hr, hfindr⟩ := form?_denotes hoperand ht
          have hvalue : p.value = .inst q.id := by
            obtain rfl := VarSupply.find?_injective hfindr (hvar ▸ hfind')
            exact value_of_referent? hr
          have hblock := hphi q (List.mem_of_mem_filter hq)
          have hflows := (Bool.and_eq_true_iff.1 hmoves).2
          have hneed := hneeded p hp htracked hflows (hvalue ▸ hblock) (by rw [hoperand]; rfl)
          rw [hsaved] at hneed
          cases hneed
  exact hresolution.simultaneous

variable {pred : BlockId} {predName : String}

/-- Each phi is there with what it takes from the block. -/
theorem incomingPhis_eq {phis : List (InstId × Inst)}
    (h : sc.incomingPhis pred predName phis = .ok ps) :
    ps.map (fun p => (p.id, p.ty, some p.value)) =
      phis.map fun q => (q.1, q.2.ty, incomingValue? q.2.kind pred) := by
  induction phis generalizing ps with
  | nil =>
      obtain rfl := Except.ok.inj h
      rfl
  | cons phi rest ih =>
      obtain ⟨id, inst⟩ := phi
      unfold incomingPhis at h
      split at h
      next => cases h
      next value hvalue =>
        cases hrest : sc.incomingPhis pred predName rest with
        | error e => rw [hrest] at h; cases h
        | ok ps' =>
            rw [hrest] at h
            obtain rfl := Except.ok.inj h
            rw [List.map_cons, List.map_cons, ih hrest, hvalue]

theorem incomingPhis_spec {phis : List (InstId × Inst)}
    (h : sc.incomingPhis pred predName phis = .ok ps) :
    ps.map (·.id) = phis.map (·.1) ∧ ∀ p ∈ ps, ∃ inst, (p.id, inst) ∈ phis ∧ p.ty = inst.ty ∧
      incomingValue? inst.kind pred = some p.value := by
  have heq := incomingPhis_eq h
  constructor
  · have hids := congrArg (List.map (·.1)) heq
    rwa [List.map_map, List.map_map] at hids
  · intro p hp
    have hmem := List.mem_map_of_mem (f := fun p : IncomingPhi => (p.id, p.ty, some p.value)) hp
    rw [heq] at hmem
    obtain ⟨⟨id, inst⟩, hphi, hq⟩ := List.mem_map.1 hmem
    obtain ⟨hid, hrest⟩ := Prod.mk.inj hq
    obtain ⟨hty, hvalue⟩ := Prod.mk.inj hrest
    obtain rfl : id = p.id := hid
    exact ⟨inst, hphi, hty.symm, hvalue⟩

theorem phis_sublist (body : Body) (block : Block) :
    ((body.phis block).map (·.1)).Sublist block.insts := by
  have hpairs : ∀ l : List (InstId × Option Inst),
      ((l.filterMap fun p => p.2.map (p.1, ·)).map (·.1)).Sublist (l.map (·.1)) := by
    intro l
    induction l with
    | nil => exact .slnil
    | cons p rest ih =>
        obtain ⟨id, inst⟩ := p
        cases inst with
        | none => exact ih.cons _
        | some inst => exact ih.cons_cons _
  have hkeys : (block.insts.map fun id => (id, body.inst? id)).map (·.1) = block.insts := by
    rw [List.map_map]
    exact List.map_id _
  have hleading : ((body.phis block).map (·.1)).Sublist
      ((block.insts.map fun id => (id, body.inst? id)).map (·.1)) :=
    (hpairs _).trans ((List.takeWhile_sublist _).map _)
  rwa [hkeys] at hleading

theorem phis_spec {body : Body} {block : Block} {p : InstId × Inst} (hp : p ∈ body.phis block) :
    p.1 ∈ block.insts ∧ body.inst? p.1 = some p.2 ∧ p.2.kind.isPhi = true := by
  refine ⟨(phis_sublist body block).subset (List.mem_map_of_mem hp), ?_⟩
  obtain ⟨q, hq, hpair⟩ := List.mem_filterMap.1 hp
  have hphi := List.all_eq_true.1 List.all_takeWhile q hq
  obtain ⟨id, -, rfl⟩ := List.mem_map.1 ((List.takeWhile_sublist _).subset hq)
  obtain ⟨inst, hinst, rfl⟩ := Option.map_eq_some_iff.1 hpair
  dsimp only at hinst hphi
  rw [hinst] at hphi
  exact ⟨hinst, hphi⟩

/-- The phis that the code of an edge carries out change at once, if the block lists each of its
phis once. -/
theorem phiCode_simultaneous {target : BlockId} {block : Block}
    (hn : ((sc.body.phis block).map (·.1)).Nodup)
    (hplaced : ∀ p ∈ sc.body.phis block, p.2.block = target)
    (h : Yields (sc.phiCode target block pred predName) s stmts s') (hF : s'.supply.Extends F) :
    ∃ ps, sc.incomingPhis pred predName (sc.body.phis block) = .ok ps ∧
      sc.Simultaneous F s.supply.size s'.supply.size ps stmts := by
  unfold phiCode at h
  split at h
  next => exact absurd h not_yields_reject
  next hps =>
    obtain ⟨rfl, rfl⟩ := yields_pure.1 h
    exact ⟨[], hps, .nil⟩
  next p rest hps =>
    simp only [yields_bind, yields_tell, yields_pure] at h
    obtain ⟨-, s₁, hs₁, ⟨saved', saves⟩, s₂, hsaves, writes, _, hwrites, rfl, rfl⟩ := h
    have hsupply : s.supply = s₁.supply := by rw [hs₁]
    obtain ⟨hids, hall⟩ := incomingPhis_spec hps
    refine ⟨p :: rest, hps, hsupply ▸ simultaneous_of_codes (hids ▸ hn) ?_ hsaves hwrites hF⟩
    intro q hq
    obtain ⟨inst, hphi, -, -⟩ := hall q hq
    obtain ⟨-, hinst, hkind⟩ := phis_spec hphi
    have hblock : inst.block = target := hplaced (q.id, inst) hphi
    simp [isPhiOf, Value.toInst?, hinst, hkind, hblock]

end Scope

end AffineFlow
