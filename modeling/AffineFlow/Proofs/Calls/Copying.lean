import AffineFlow.Proofs.Acceptance.Settles
import AffineFlow.Proofs.Calls.Agreement
import AffineFlow.Proofs.Execution.Stores

/-!
# Copying arrays out and in

Before a call site, the array of each touched cell is copied to a temporary and
then given up to the callee, one cell after the other. The callee starts by
putting each copy that it receives into the array of the cell. Neither spoils a
copy: what is given up is the array of a cell, which stands for that cell only,
and the copies stand for nothing. The temporaries of literals, which are set
first, stand for nothing either, and the arrays of the allocated cells, which
come last, are not written at all. Cells whose contents are elsewhere are not
treated differently.
-/
namespace AffineFlow

open Ssa Lowering

theorem Effects.touched_nodup {effects : Effects} (h : effects.read.Nodup) :
    effects.touched.Nodup := by
  have hfold : ∀ cells listed : List Cell, listed.Nodup →
      (cells.foldl (fun cells c => if c ∈ cells then cells else cells ++ [c]) listed).Nodup := by
    intro cells
    induction cells with
    | nil => exact fun _ hn => hn
    | cons c rest ih =>
        intro listed hn
        refine ih _ ?_
        dsimp only
        split
        next => exact hn
        next hc =>
          exact hn.append (List.nodup_singleton c) (List.disjoint_singleton.2 hc)
  exact hfold _ _ h

/-- What the array of the cell holds. -/
def VarSupply.array? (F : VarSupply) (μ : Store) (c : Cell) : Option Datum :=
  (F.find? (.cell c)).map μ

variable {F : VarSupply} {s s' : Session} {cells : List Cell} {vs : List TypedVar}
  {stmts : List Stmt} {effects : Effects} {c : Cell} {x y : Var} {μ ν ρ τ : Store}

theorem array?_eq (hx : F.find? (.cell c) = some x) : F.array? μ c = some (μ x) := by
  rw [VarSupply.array?, hx]
  rfl

theorem array?_congr (h : ∀ x, F.find? (.cell c) = some x → ν x = μ x) :
    F.array? ν c = F.array? μ c := by
  unfold VarSupply.array?
  cases hx : F.find? (.cell c) with
  | none => rfl
  | some x => exact congrArg some (h x hx)

section Literals

/-- Setting a temporary to a literal can always be executed. -/
theorem exists_literal_run (a : Value) (x : Var) (μ : Store) :
    ∃ ν, (Write.stmt (x, a.literalForm?)).StoreRuns μ ν := by
  cases he : a.literalForm? with
  | some e =>
      obtain ⟨n, rfl⟩ := literalForm?_const he
      exact ⟨_, .assign (AffineForm.gives_const μ n)⟩
  | none => exact ⟨_, .havoc (.number 0)⟩

namespace Scope

variable {sc : Scope}

/-- The arguments that are passed, in order. -/
def passedArgs (sc : Scope) (args : List Value) : List Value :=
  args.filter fun a => isYes (sc.isPassed a)

theorem passedArgs_cons {a : Value} {args : List Value} {isPassed : Bool}
    (h : sc.isPassed a = .ok isPassed) :
    sc.passedArgs (a :: args) =
      if isPassed then a :: sc.passedArgs args else sc.passedArgs args := by
  rw [passedArgs, List.filter_cons, isYes_of_eq h]
  rfl

/-- The variable is a temporary, numbered from `size` on, that stands for a literal among the
arguments that are passed. -/
def IsLiteralTemporary (sc : Scope) (F : VarSupply) (size : Nat) (args : List Value)
    (scalars : List TypedVar) (y : Var) : Prop :=
  F.Spare y ∧ size ≤ y.id ∧
    ∃ a v, (a, v) ∈ (sc.passedArgs args).zip scalars ∧ a.isLiteral = true ∧ v.1 = y

/-- What is executed before the cells are copied sets temporaries to literals. -/
theorem passScalars_writes {args : List Value}
    (h : Yields (sc.passScalars args) s (vs, stmts) s') (hF : s'.supply.Extends F) :
    ∀ stmt ∈ stmts, ∃ y, ∃ a : Value, stmt = Write.stmt (y, a.literalForm?) ∧
      sc.IsLiteralTemporary F s.supply.size args vs y := by
  induction args generalizing s vs stmts with
  | nil =>
      obtain ⟨he, -⟩ := yields_pure.1 h
      obtain ⟨rfl, rfl⟩ := Prod.mk.inj he
      exact List.forall_mem_nil _
  | cons arg rest ih =>
      simp only [passScalars, yields_bind, yields_ofExcept] at h
      obtain ⟨isPassed, _, ⟨hpassed, rfl⟩, h⟩ := h
      unfold IsLiteralTemporary
      rw [passedArgs_cons hpassed]
      cases isPassed with
      | false => exact ih h
      | true =>
          simp only [if_true, yields_bind, yields_pure] at h
          obtain ⟨⟨v, setup⟩, s₁, hv, ⟨vs', stmts'⟩, s₂, hrest, he, rfl⟩ := h
          obtain ⟨rfl, rfl⟩ := Prod.mk.inj he
          intro stmt hstmt
          rcases List.mem_append.1 hstmt with hstmt | hstmt
          · unfold passed at hv
            split at hv
            next hliteral =>
              have hgrown := (sc.passScalars_grows rest _ _ _ hrest).trans hF
              obtain ⟨hspare, hid, rfl, -⟩ := literalTemporary_spec hv hgrown
              exact ⟨v.1, arg, List.mem_singleton.1 hstmt, hspare, hid, arg, v,
                List.mem_cons_self, hliteral, rfl⟩
            next =>
              simp only [yields_bind, yields_pure] at hv
              obtain ⟨ty, _, -, z, _, -, he, -⟩ := hv
              obtain ⟨-, rfl⟩ := Prod.mk.inj he
              cases hstmt
          · obtain ⟨y, b, hset, hspare, hid, a, w, hmem, hliteral, hw⟩ := ih hrest stmt hstmt
            have hle := (sc.passed_grows arg _ _ _ hv).size_le
            exact ⟨y, b, hset, hspare, Nat.le_trans hle hid, a, w, .tail _ hmem, hliteral, hw⟩

end Scope

end Literals

section Copies

variable {copies : List CellCopy} {size : Nat}

/-- The copies are different, so are the cells, and no copy is a cell. -/
structure Apart (copies : List CellCopy) : Prop where
  copies_nodup : (copies.map (·.copy)).Nodup
  arrays_nodup : (copies.map (·.array)).Nodup
  disjoint : ∀ p ∈ copies, ∀ q ∈ copies, p.copy ≠ q.array

theorem Apart.of_cons {p : CellCopy} (h : Apart (p :: copies)) : Apart copies where
  copies_nodup := (List.nodup_cons.1 h.copies_nodup).2
  arrays_nodup := (List.nodup_cons.1 h.arrays_nodup).2
  disjoint q hq r hr := h.disjoint q (.tail _ hq) r (.tail _ hr)

theorem VarSupply.Copies.cell_of_mem (h : F.Copies size cells copies) {p : CellCopy}
    (hp : p ∈ copies) : ∃ c ∈ cells, F.find? (.cell c) = some p.array :=
  exists_mem_of_forall₂ h.ofCells.flip hp

theorem VarSupply.Copies.apart (h : F.Copies size cells copies) (hn : cells.Nodup) :
    Apart copies where
  copies_nodup := h.nodup
  arrays_nodup := by
    refine nodup_of_forall₂ (f := id) ?_ (by rwa [List.map_id]) h.ofCells
    intro c p c' p' hp hp' he
    cases VarSupply.find?_injective hp (he ▸ hp')
    rfl
  disjoint p hp q hq he := by
    obtain ⟨c, -, hc⟩ := h.cell_of_mem hq
    exact h.spare p hp _ (he ▸ hc)

theorem Apart.copy_notMem {p : CellCopy} (h : Apart copies) (hp : p ∈ copies) :
    p.copy ∉ copies.map (·.array) := by
  intro hm
  obtain ⟨q, hq, he⟩ := List.mem_map.1 hm
  exact h.disjoint p hp q hq he.symm

/-- Handing over gives each copy what the array of its cell held before, and leaves open what the
array holds from then on. -/
theorem handOver_run_iff (h : Apart copies) : StoreRunAll (copies.flatMap (·.handOver)) μ ν ↔
    (∀ p ∈ copies, ν p.copy = μ p.array) ∧
      ∀ y, y ∉ copies.map (·.copy) → y ∉ copies.map (·.array) → ν y = μ y := by
  induction copies generalizing μ with
  | nil => simp [StoreRunAll, funext_iff]
  | cons p rest ih =>
      have hcopy : p.copy ∉ rest.map (·.copy) := (List.nodup_cons.1 h.copies_nodup).1
      have harray : p.array ∉ rest.map (·.array) := (List.nodup_cons.1 h.arrays_nodup).1
      have hapart := h.copy_notMem List.mem_cons_self
      rw [List.map_cons, List.mem_cons, not_or] at hapart
      obtain ⟨hne, hcopy'⟩ := hapart
      -- the other cells are still untouched when it is their turn
      have hlater : ∀ d, ∀ q ∈ rest, Function.update (Function.update μ p.copy (μ p.array))
          p.array d q.array = μ q.array := by
        intro d q hq
        have hmem : q.array ∈ rest.map (·.array) := List.mem_map_of_mem hq
        have hq₁ : q.array ≠ p.array := fun he => harray (he ▸ hmem)
        have hq₂ : q.array ≠ p.copy := fun he => hcopy' (he ▸ hmem)
        rw [Function.update_of_ne hq₁, Function.update_of_ne hq₂]
      rw [List.flatMap_cons, storeRunAll_append_iff]
      simp only [List.map_cons, List.mem_cons, not_or, forall_eq_or_imp]
      constructor
      · intro hrun
        obtain ⟨κ, ⟨κ₁, hassign, κ₂, hhavoc, rfl⟩, hrun⟩ := hrun
        obtain rfl := storeRuns_copy_iff.1 hassign
        obtain ⟨d, rfl⟩ := storeRuns_havoc_iff.1 hhavoc
        obtain ⟨hcopied, hkept⟩ := (ih h.of_cons).1 hrun
        refine ⟨⟨?_, fun q hq => ?_⟩, fun y hy hy' => ?_⟩
        · rw [hkept _ hcopy hcopy', Function.update_of_ne hne, Function.update_self]
        · rw [hcopied q hq, hlater d q hq]
        · rw [hkept y hy.2 hy'.2, Function.update_of_ne hy'.1, Function.update_of_ne hy.1]
      · intro hparts
        obtain ⟨hcopied, hkept⟩ := hparts
        refine ⟨_, ⟨_, .assign (.copy rfl), _, .havoc (ν p.array), rfl⟩,
          (ih h.of_cons).2 ⟨fun q hq => ?_, fun y hy hy' => ?_⟩⟩
        · rw [hlater _ q hq, hcopied.2 q hq]
        · by_cases he : y = p.array
          · rw [he, Function.update_self]
          rw [Function.update_of_ne he]
          by_cases he' : y = p.copy
          · rw [he', Function.update_self, hcopied.1]
          · rw [Function.update_of_ne he', hkept y ⟨he', hy⟩ ⟨he, hy'⟩]

open scoped Classical in
/-- The arrays can be left with what they hold in any store. -/
theorem exists_handOver_run (h : Apart copies) (μ δ : Store) :
    ∃ ν, StoreRunAll (copies.flatMap (·.handOver)) μ ν ∧ ∀ p ∈ copies, ν p.array = δ p.array := by
  have hstmts : ∀ stmt ∈ copies.flatMap (·.handOver), ∀ μ, ∃ ν, stmt.StoreRuns μ ν := by
    intro stmt hstmt μ
    obtain ⟨p, -, hp⟩ := List.mem_flatMap.1 hstmt
    rcases List.mem_pair.1 hp with rfl | rfl
    · exact ⟨_, .assign (.copy rfl)⟩
    · exact ⟨_, .havoc (.number 0)⟩
  obtain ⟨κ, hκ⟩ := exists_storeRunAll hstmts μ
  obtain ⟨hcopied, hkept⟩ := (handOver_run_iff h).1 hκ
  refine ⟨fun y => if y ∈ copies.map (·.array) then δ y else κ y,
    (handOver_run_iff h).2 ⟨fun p hp => ?_, fun y hy hy' => ?_⟩, fun p hp => ?_⟩
  · rw [if_neg (h.copy_notMem hp), hcopied p hp]
  · rw [if_neg hy', hkept y hy hy']
  · exact if_pos (List.mem_map_of_mem hp)

/-- Taking over gives the array of each cell what its copy holds. -/
theorem takeOver_run_iff (h : Apart copies) : StoreRunAll (copies.map (·.takeOver)) ρ τ ↔
    (∀ p ∈ copies, τ p.array = ρ p.copy) ∧ ∀ y, y ∉ copies.map (·.array) → τ y = ρ y := by
  induction copies generalizing ρ with
  | nil => simp [StoreRunAll, funext_iff]
  | cons p rest ih =>
      have harray : p.array ∉ rest.map (·.array) := (List.nodup_cons.1 h.arrays_nodup).1
      have hlater : ∀ q ∈ rest, Function.update ρ p.array (ρ p.copy) q.copy = ρ q.copy :=
        fun q hq => Function.update_of_ne (h.disjoint q (.tail _ hq) p List.mem_cons_self) _ _
      have hstep : ∀ κ, p.takeOver.StoreRuns ρ κ ↔ κ = Function.update ρ p.array (ρ p.copy) :=
        fun κ => storeRuns_copy_iff
      simp only [List.map_cons, StoreRunAll, hstep, exists_eq_left, ih h.of_cons, List.mem_cons,
        not_or, forall_eq_or_imp]
      constructor
      · intro hparts
        obtain ⟨hcopied, hkept⟩ := hparts
        refine ⟨⟨?_, fun q hq => ?_⟩, fun y hy => ?_⟩
        · rw [hkept _ harray, Function.update_self]
        · rw [hcopied q hq, hlater q hq]
        · rw [hkept y hy.2, Function.update_of_ne hy.1]
      · intro hparts
        obtain ⟨hcopied, hkept⟩ := hparts
        refine ⟨fun q hq => ?_, fun y hy => ?_⟩
        · rw [hcopied.2 q hq, hlater q hq]
        · by_cases he : y = p.array
          · rw [he, Function.update_self, hcopied.1]
          · rw [Function.update_of_ne he, hkept y ⟨he, hy⟩]

theorem exists_takeOver_run (copies : List CellCopy) (ρ : Store) :
    ∃ τ, StoreRunAll (copies.map (·.takeOver)) ρ τ := by
  refine exists_storeRunAll (fun stmt hstmt ρ => ?_) ρ
  obtain ⟨p, -, rfl⟩ := List.mem_map.1 hstmt
  exact ⟨_, .assign (.copy rfl)⟩

end Copies

/-- The array that is zero everywhere. -/
def Datum.zeros : Datum := .array fun _ => 0

/-- Allocated cells are not written; it is assumed that their arrays are zero. -/
theorem newCellsCode_run_iff (h : Yields (newCellsCode cells) s stmts s')
    (hF : s'.supply.Extends F) : StoreRunAll stmts ρ τ ↔
      τ = ρ ∧ ∀ c ∈ cells, F.array? ρ c = some .zeros := by
  induction cells generalizing s stmts with
  | nil =>
      obtain ⟨rfl, -⟩ := yields_pure.1 h
      simp [StoreRunAll]
  | cons c rest ih =>
      simp only [newCellsCode, yields_bind, yields_pure] at h
      obtain ⟨array, s₁, harray, stmts', s₂, hrest, rfl, rfl⟩ := h
      have hfind := cellVariable_spec harray ((Scope.newCellsCode_grows rest _ _ _ hrest).trans hF)
      have hzero : F.array? ρ c = some .zeros ↔ ρ array = .array fun _ => 0 := by
        rw [array?_eq hfind]
        exact Option.some_inj
      rw [List.forall_mem_cons, hzero]
      simp only [StoreRunAll, storeRuns_assumeArray_iff, and_assoc, exists_and_left,
        exists_eq_left, ih hrest]
      exact and_left_comm

end AffineFlow
