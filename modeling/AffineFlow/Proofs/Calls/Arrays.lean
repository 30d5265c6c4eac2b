import AffineFlow.Proofs.Calls.Copying

/-!
# The arrays of cells across calls

A call site passes the cells that the oracle reports for the call, and the
declaration of the callee receives those that it reports for the function. If
these are the same, the arrays of the cells cross the call intact: the caller
leaves in each copy what the array held, and the callee starts with what the
copies hold, whatever else the stores of the two have. Whether the contents of a
cell are in its array is another matter.
-/
namespace AffineFlow

open Ssa Lowering

/-- The parts of the arguments of a call site, and of the parameters of a declaration: the
scalars, a copy of each touched cell, and then the touched and the allocated cells. -/
structure Passage where
  scalars : List TypedVar
  copies : List TypedVar
  cells : List TypedVar

namespace Passage

def all (p : Passage) : List TypedVar := p.scalars ++ (p.copies ++ p.cells)

/-- The copies and the cells are those of the effects. The copies are arrays in temporaries of
their own, numbered from `size` on. -/
structure OfEffects (p : Passage) (F : VarSupply) (size : Nat) (effects : Effects) : Prop where
  cells : List.Forall₂ (F.IsCell ·) (effects.touched ++ effects.new) p.cells
  length_eq : p.copies.length = effects.touched.length
  nodup : (p.copies.map (·.1)).Nodup
  fresh : ∀ v ∈ p.copies, v.2 = .arr ∧ F.Spare v.1 ∧ size ≤ v.1.id

theorem OfEffects.exists_array {p : Passage} {F : VarSupply} {size : Nat} {effects : Effects}
    (h : p.OfEffects F size effects) {c : Cell} (hc : c ∈ effects.touched) :
    ∃ x, F.find? (.cell c) = some x := by
  obtain ⟨v, -, -, hv⟩ := exists_mem_of_forall₂ h.cells (List.mem_append_left _ hc)
  exact ⟨v.1, hv⟩

theorem OfEffects.exists_copy {p : Passage} {F : VarSupply} {size : Nat} {effects : Effects}
    (h : p.OfEffects F size effects) {j : Nat} {c : Cell} (hj : effects.touched[j]? = some c) :
    ∃ v, p.copies[j]? = some v := by
  obtain ⟨hlt, -⟩ := List.getElem?_eq_some_iff.1 hj
  exact ⟨_, List.getElem?_eq_getElem (h.length_eq ▸ hlt)⟩

end Passage

/-- The statements before a call site. From any store they can be executed; a run leaves each copy
with what the array of its cell held before, the arrays of the touched cells with anything, and
everything else as it was but the temporaries that literals are passed in. -/
structure Scope.PassesArrays (sc : Scope) (F : VarSupply) (size : Nat) (effects : Effects)
    (args : List Value) (before : List Stmt) (p : Passage) : Prop
    extends p.OfEffects F size effects where
  copied : ∀ μ ν, StoreRunAll before μ ν →
    List.Forall₂ (fun c v => F.array? μ c = some (ν v.1)) effects.touched p.copies
  free : ∀ μ δ : Store, ∃ ν, StoreRunAll before μ ν ∧
    ∀ c ∈ effects.touched, F.array? ν c = F.array? δ c
  kept : ∀ μ ν, StoreRunAll before μ ν → ∀ y, y ∉ p.copies.map (·.1) →
    (∀ c ∈ effects.touched, F.find? (.cell c) ≠ some y) →
    ¬sc.IsLiteralTemporary F size args p.scalars y → ν y = μ y

/-- The statements that a function starts with. They can be executed where the arrays of the
allocated cells are zero; a run leaves the array of each touched cell with what its copy holds, and
everything else as it was. -/
structure ReceivesArrays (F : VarSupply) (size : Nat) (effects : Effects) (entry : List Stmt)
    (p : Passage) : Prop extends p.OfEffects F size effects where
  received : ∀ ρ τ, StoreRunAll entry ρ τ →
    List.Forall₂ (fun c v => F.array? τ c = some (ρ v.1)) effects.touched p.copies
  runs : ∀ ρ, (∀ c ∈ effects.new, F.array? ρ c = some .zeros) → ∃ τ, StoreRunAll entry ρ τ
  kept : ∀ ρ τ, StoreRunAll entry ρ τ → ∀ y,
    (∀ c ∈ effects.touched, F.find? (.cell c) ≠ some y) → τ y = ρ y

/-- Each formal holds what the actual at the same place holds. -/
def Bound (ν ρ : Store) (actuals formals : List TypedVar) : Prop :=
  ∀ (j : Nat) (v w : TypedVar), actuals[j]? = some v → formals[j]? = some w → ρ w.1 = ν v.1

/-- The store with each formal bound to what the actual at the same place holds. -/
def bindFormals (ν : Store) : List TypedVar → List TypedVar → Store → Store
  | v :: actuals, w :: formals, ρ => Function.update (bindFormals ν actuals formals ρ) w.1 (ν v.1)
  | _, _, ρ => ρ

section Binding

variable {μ ν ρ τ : Store} {actuals formals : List TypedVar} {F G : VarSupply}
  {size size' : Nat} {effects : Effects} {p q : Passage}

theorem bound_bindFormals (hn : (formals.map (·.1)).Nodup) :
    Bound ν (bindFormals ν actuals formals ρ) actuals formals := by
  induction actuals generalizing formals with
  | nil => exact fun j v w hv _ => nomatch hv
  | cons v' actuals ih =>
      cases formals with
      | nil => exact fun j v w _ hw => nomatch hw
      | cons w' formals =>
          obtain ⟨hnew, hn⟩ := List.nodup_cons.1 hn
          intro j v w hv hw
          cases j with
          | zero =>
              obtain rfl := Option.some.inj hv
              obtain rfl := Option.some.inj hw
              exact Function.update_self ..
          | succ j =>
              have hmem : w.1 ∈ formals.map (·.1) := List.mem_map_of_mem (List.mem_of_getElem? hw)
              have hne : w.1 ≠ w'.1 := by
                intro he
                rw [he] at hmem
                exact hnew hmem
              rw [bindFormals, Function.update_of_ne hne]
              exact ih hn j v w hv hw

theorem bindFormals_of_notMem {y : Var} (hy : y ∉ formals.map (·.1)) :
    bindFormals ν actuals formals ρ y = ρ y := by
  induction actuals generalizing formals with
  | nil => rfl
  | cons v actuals ih =>
      cases formals with
      | nil => rfl
      | cons w formals =>
          rw [List.map_cons, List.mem_cons, not_or] at hy
          rw [bindFormals, Function.update_of_ne hy.1, ih hy.2]

/-- Binding the copies leaves alone whatever stands for something. -/
theorem bindFormals_of_find? (h : q.OfEffects G size effects) {r : Referent} {x : Var}
    (hx : G.find? r = some x) : bindFormals ν actuals q.copies ρ x = ρ x := by
  refine bindFormals_of_notMem fun hm => ?_
  obtain ⟨v, hv, rfl⟩ := List.mem_map.1 hm
  exact (h.fresh v hv).2.1 _ hx

variable {sc : Scope} {args : List Value} {before entry : List Stmt}

/-- What the array of a touched cell holds in the callee is what it held in the caller. -/
theorem Scope.PassesArrays.arrays_cross (hp : sc.PassesArrays F size effects args before p)
    (hq : ReceivesArrays G size' effects entry q) (hbefore : StoreRunAll before μ ν)
    (hbound : Bound ν ρ p.copies q.copies) (hentry : StoreRunAll entry ρ τ) {c : Cell}
    (hc : c ∈ effects.touched) : ∃ d, F.array? μ c = some d ∧ G.array? τ c = some d := by
  obtain ⟨j, hj⟩ := List.mem_iff_getElem?.1 hc
  obtain ⟨v, hv, hcopied⟩ := exists_of_forall₂ (hp.copied μ ν hbefore) hj
  obtain ⟨w, hw, hreceived⟩ := exists_of_forall₂ (hq.received ρ τ hentry) hj
  exact ⟨ν v.1, hcopied, hbound j v w hv hw ▸ hreceived⟩

/-- From any store of the caller, the call is reached and the callee gets past its start, if the
arrays of the cells that it allocates are zero. -/
theorem Scope.PassesArrays.exists_crossing (hp : sc.PassesArrays F size effects args before p)
    (hq : ReceivesArrays G size' effects entry q) (μ ρ : Store)
    (hρ : ∀ c ∈ effects.new, G.array? ρ c = some .zeros) :
    ∃ ν τ, StoreRunAll before μ ν ∧ StoreRunAll entry (bindFormals ν p.copies q.copies ρ) τ := by
  obtain ⟨ν, hν, -⟩ := hp.free μ μ
  obtain ⟨τ, hτ⟩ := hq.runs (bindFormals ν p.copies q.copies ρ) fun c hc => by
    rw [← hρ c hc]
    exact array?_congr fun x hx => bindFormals_of_find? hq.toOfEffects hx
  exact ⟨ν, τ, hν, hτ⟩

end Binding

section Lowered

variable {sc : Scope} {F : VarSupply} {s s' : Session} {effects : Effects} {size : Nat}
  {copies : List CellCopy} {vs : List TypedVar}

theorem VarSupply.Copies.ofEffects {scalars : List TypedVar}
    (h : F.Copies size effects.touched copies)
    (hcells : List.Forall₂ (F.IsCell ·) (effects.touched ++ effects.new) vs) {size' : Nat}
    (hle : size' ≤ size) :
    Passage.OfEffects ⟨scalars, copies.map (·.passed), vs⟩ F size' effects where
  cells := hcells
  length_eq := by rw [List.length_map, h.ofCells.length_eq]
  nodup := by
    rw [List.map_map]
    exact h.nodup
  fresh v hv := by
    obtain ⟨p, hp, rfl⟩ := List.mem_map.1 hv
    exact ⟨rfl, h.spare p hp, Nat.le_trans hle (h.new p hp)⟩

/-- A variable that is no cell of the list is not written by handing over or taking over. -/
theorem VarSupply.Copies.array_notMem {cells : List Cell} {y : Var}
    (h : F.Copies size cells copies) (hy : ∀ c ∈ cells, F.find? (.cell c) ≠ some y) :
    y ∉ copies.map (·.array) := by
  intro hm
  obtain ⟨p, hp, rfl⟩ := List.mem_map.1 hm
  obtain ⟨c, hc, hfind⟩ := h.cell_of_mem hp
  exact hy c hc hfind

theorem Scope.callSiteCode_passesArrays {id : InstId} {ty : Ty} {callee : FuncId}
    {args : List Value} {stmts : List Stmt}
    (h : Yields (sc.callSiteCode id ty callee args) s stmts s') (hF : s'.supply.Extends F)
    (hmemory : sc.modelsMemory = true) (hn : (sc.oracle.callEffects sc.funcId id).read.Nodup) :
    ∃ before site p, stmts = before ++ [.call site] ∧ site.args = p.all ∧
      sc.PassesArrays F s.supply.size (sc.oracle.callEffects sc.funcId id) args before p := by
  simp only [callSiteCode, passCells, hmemory, if_true, yields_bind, yields_pure] at h
  obtain ⟨⟨scalars, setup⟩, s₁, hscalars, ⟨passed, stmts'⟩, s₂,
    ⟨⟨vs, handed⟩, s₃, hvs, cells, s₄, hcells, he, rfl⟩, ret, s₅, hret, func, s₆, hfunc, rfl,
    rfl⟩ := h
  obtain ⟨rfl, rfl⟩ := Prod.mk.inj he
  have hgrown₂ := (sc.receiver?_grows _ _ _ _ _ hret).trans
    ((sc.functionVariable_grows _ _ _ _ hfunc).trans hF)
  have hgrown₁ := (cellVariables_grows _ _ _ _ hcells).trans hgrown₂
  obtain ⟨copies, hcopies, rfl, rfl⟩ := passCopies_laid hvs hgrown₁
  have hsetup := passScalars_writes hscalars ((passCopies_grows _ _ _ _ hvs).trans hgrown₁)
  have hapart := hcopies.apart (Effects.touched_nodup hn)
  -- only the temporaries of literals are written before the cells are copied
  have hfirst : ∀ μ κ, StoreRunAll setup μ κ → ∀ y,
      ¬sc.IsLiteralTemporary F s.supply.size args scalars y → κ y = μ y := by
    intro μ κ hrun y hy
    refine hrun.frame fun stmt hstmt he => ?_
    obtain ⟨z, a, rfl, hz⟩ := hsetup stmt hstmt
    rw [Write.target?_stmt] at he
    exact hy (Option.some.inj he ▸ hz)
  have hof : Passage.OfEffects ⟨scalars, _, cells⟩ F s.supply.size _ :=
    hcopies.ofEffects (cellVariables_spec hcells hgrown₂)
      (sc.passScalars_grows _ _ _ _ hscalars).size_le
  refine ⟨setup ++ copies.flatMap (·.handOver), _, ⟨scalars, copies.map (·.passed), cells⟩, rfl,
    rfl, { hof with copied := ?_, free := ?_, kept := ?_ }⟩
  · intro μ ν hrun
    obtain ⟨κ, hκ, hν⟩ := storeRunAll_append_iff.1 hrun
    refine List.forall₂_map_right_iff.2 (hcopies.imp fun c p hp hfind => ?_)
    have hsame : κ p.array = μ p.array :=
      hfirst μ κ hκ p.array fun htemporary => htemporary.1 _ hfind
    have hcopied : ν p.copy = κ p.array := ((handOver_run_iff hapart).1 hν).1 p hp
    rw [array?_eq hfind, ← hsame, ← hcopied]
    rfl
  · intro μ δ
    have hruns : ∀ stmt ∈ setup, ∀ μ, ∃ κ, stmt.StoreRuns μ κ := by
      intro stmt hstmt μ
      obtain ⟨z, a, rfl, -⟩ := hsetup stmt hstmt
      exact exists_literal_run a z μ
    obtain ⟨κ, hκ⟩ := exists_storeRunAll hruns μ
    obtain ⟨ν, hν, harrays⟩ := exists_handOver_run hapart κ δ
    refine ⟨ν, storeRunAll_append_iff.2 ⟨κ, hκ, hν⟩, fun c hc => ?_⟩
    obtain ⟨p, hp, hfind⟩ := exists_mem_of_forall₂ hcopies.ofCells hc
    rw [array?_eq hfind, array?_eq hfind, harrays p hp]
  · intro μ ν hrun y hy hcells' hy'
    obtain ⟨κ, hκ, hν⟩ := storeRunAll_append_iff.1 hrun
    rw [List.map_map] at hy
    have hkept := ((handOver_run_iff hapart).1 hν).2 y hy (hcopies.array_notMem hcells')
    exact hkept.trans (hfirst μ κ hκ y hy')

theorem Scope.prologue_receivesArrays {decl? : Option Declaration} {entry : List Stmt}
    (h : Yields sc.prologue s (decl?, entry) s') (hF : s'.supply.Extends F)
    (hinter : sc.settings.interprocedural = true) (hmemory : sc.modelsMemory = true)
    (hentry : sc.isProgramEntry = false) (hn : (sc.oracle.funcEffects sc.funcId).read.Nodup)
    (hnew : ∀ c ∈ (sc.oracle.funcEffects sc.funcId).new,
      c ∉ (sc.oracle.funcEffects sc.funcId).touched) :
    ∃ decl p, decl? = some decl ∧ decl.params = p.all ∧
      ReceivesArrays F s.supply.size (sc.oracle.funcEffects sc.funcId) entry p := by
  simp only [prologue, signature, receiveCells, memoryCode, hinter, hmemory, hentry,
    Bool.not_false, Bool.and_true, Bool.false_eq_true, if_true, if_false, yields_bind,
    yields_pure] at h
  obtain ⟨-, _, ⟨scalars, s₁, hscalars, -, _,
    ⟨⟨vs, received⟩, s₂, hvs, cells, s₃, hcells, rfl, rfl⟩, name, s₄, hname, rfl, rfl⟩,
    -, _, ⟨rfl, rfl⟩, -, _,
    ⟨zeroed, s₅, hzeroed, -, _, ⟨rfl, rfl⟩, rfl, rfl⟩, he, rfl⟩ := h
  obtain ⟨rfl, rfl⟩ := Prod.mk.inj he
  have hgrown₂ := (sc.functionVariable_grows _ _ _ _ hname).trans
    ((newCellsCode_grows _ _ _ _ hzeroed).trans hF)
  have hgrown₁ := (cellVariables_grows _ _ _ _ hcells).trans hgrown₂
  obtain ⟨copies, hcopies, rfl, rfl⟩ := receiveCopies_laid hvs hgrown₁
  have hapart := hcopies.apart (Effects.touched_nodup hn)
  have hof : Passage.OfEffects ⟨scalars, _, cells⟩ F s.supply.size _ :=
    hcopies.ofEffects (cellVariables_spec hcells hgrown₂)
      (sc.scalarParams_grows _ _ _ _ _ hscalars).size_le
  have hrun : ∀ ρ τ, StoreRunAll (copies.map (·.takeOver) ++ (zeroed ++ [])) ρ τ ↔
      StoreRunAll (copies.map (·.takeOver)) ρ τ ∧
        ∀ c ∈ (sc.oracle.funcEffects sc.funcId).new, F.array? τ c = some .zeros := by
    intro ρ τ
    rw [List.append_nil, storeRunAll_append_iff]
    simp only [newCellsCode_run_iff hzeroed hF]
    constructor
    · intro h
      obtain ⟨κ, hκ, rfl, hzeros⟩ := h
      exact ⟨hκ, hzeros⟩
    · intro h
      exact ⟨τ, h.1, rfl, h.2⟩
  refine ⟨_, ⟨scalars, copies.map (·.passed), cells⟩, rfl, rfl,
    { hof with received := ?_, runs := ?_, kept := ?_ }⟩
  · intro ρ τ h
    have hcopied := ((takeOver_run_iff hapart).1 ((hrun ρ τ).1 h).1).1
    refine List.forall₂_map_right_iff.2 (hcopies.imp fun c p hp hfind => ?_)
    rw [array?_eq hfind, hcopied p hp]
    rfl
  · intro ρ hzeros
    obtain ⟨τ, hτ⟩ := exists_takeOver_run copies ρ
    refine ⟨τ, (hrun ρ τ).2 ⟨hτ, fun c hc => ?_⟩⟩
    rw [← hzeros c hc]
    refine array?_congr fun x hx => ((takeOver_run_iff hapart).1 hτ).2 x ?_
    refine hcopies.array_notMem fun c' hc' hx' => ?_
    cases VarSupply.find?_injective hx hx'
    exact hnew c hc hc'
  · intro ρ τ h y hy
    exact ((takeOver_run_iff hapart).1 ((hrun ρ τ).1 h).1).2 y (hcopies.array_notMem hy)

end Lowered

end AffineFlow
