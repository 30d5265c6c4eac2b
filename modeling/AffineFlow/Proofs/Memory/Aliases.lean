import AffineFlow.Lowering.Prologue
import AffineFlow.Proofs.Outcome
import Mathlib.Data.List.Nodup
import Mathlib.Data.List.Perm.Subperm

/-!
# Chains of aliases

The initializer of a global can be that of another global, which can be that of
a third one, and so on, in a circle as well. Whoever follows such a chain and
remembers where it has been stops in the end, since there are finitely many
globals. If the chain has an end, that is where it stops: the globals on the way
are at different distances from the end, so none of them comes up twice. A cell
gets its initial contents from the end of the chain.
-/
namespace AffineFlow

open Ssa

def Ssa.Initializer.isAlias : Initializer → Bool
  | .alias _ => true
  | _ => false

namespace Ssa.Module

variable {m : Module} {id : GlobalId} {init last last' : Initializer} {seen : List GlobalId}
  {result result' : Option Initializer} {turns turns' n n' : Nat}

/-- The initializer of a global that exists and has one. -/
abbrev init? (m : Module) (id : GlobalId) : Option Initializer := (m.global? id).bind (·.init)

/-- Following `n` aliases leads from one initializer to the other. -/
inductive LeadsIn (m : Module) : Nat → Initializer → Initializer → Prop
  | here {init : Initializer} : LeadsIn m 0 init init
  | next {n : Nat} {id : GlobalId} {init last : Initializer} (h : m.init? id = some init)
      (rest : LeadsIn m n init last) : LeadsIn m (n + 1) (.alias id) last

/-- The chain of aliases that begins with the one initializer comes to the other one. -/
def Leads (m : Module) (init last : Initializer) : Prop := ∃ n, m.LeadsIn n init last

/-- Where a chain ends, and how far away the end is, depends on nothing but its beginning. -/
theorem LeadsIn.unique (h : m.LeadsIn n init last) (h' : m.LeadsIn n' init last')
    (hlast : last.isAlias = false) (hlast' : last'.isAlias = false) : n = n' ∧ last = last' := by
  induction h generalizing n' with
  | here =>
      cases h' with
      | here => exact ⟨rfl, rfl⟩
      | next _ _ => cases hlast
  | next hinit _ ih =>
      cases h' with
      | here => cases hlast'
      | next hinit' rest' =>
          obtain rfl := Option.some.inj (hinit.symm.trans hinit')
          obtain ⟨rfl, rfl⟩ := ih rest' hlast
          exact ⟨rfl, rfl⟩

theorem resolveAlias_of_not_alias {fuel : Nat} (h : init.isAlias = false) :
    resolveAlias m fuel init = some init := by
  cases init with
  | «alias» _ => cases h
  | _ => cases fuel <;> rfl

theorem resolveAlias_next {fuel : Nat} (h : m.init? id = some init) :
    resolveAlias m (fuel + 1) (.alias id) = resolveAlias m fuel init := by
  simp only [resolveAlias, h]

/-- Whatever the bound is, an initializer that comes out is the end of the chain. -/
theorem leads_of_resolveAlias {fuel : Nat} (h : resolveAlias m fuel init = some last) :
    m.Leads init last ∧ last.isAlias = false := by
  fun_induction resolveAlias m fuel init with
  | case1 fuel id init hinit ih =>
      obtain ⟨⟨n, hrest⟩, hlast⟩ := ih h
      exact ⟨⟨n + 1, .next hinit hrest⟩, hlast⟩
  | case2 => cases h
  | case3 => cases h
  | case4 fuel init hnext hzero =>
      obtain rfl := Option.some.inj h
      refine ⟨⟨0, .here⟩, ?_⟩
      cases init with
      | «alias» id =>
          cases fuel with
          | zero => exact (hzero id rfl rfl).elim
          | succ fuel => exact (hnext fuel id rfl rfl).elim
      | _ => rfl

/-- The loop that follows aliases and has been to the globals in `seen` ends with the result, after
as many turns. -/
inductive Follows (m : Module) : Nat → List GlobalId → Initializer → Option Initializer → Prop
  | ends {seen : List GlobalId} {init : Initializer} (h : init.isAlias = false) :
      Follows m 0 seen init (some init)
  | again {seen : List GlobalId} {id : GlobalId} (h : id ∈ seen) :
      Follows m 1 seen (.alias id) none
  | missing {seen : List GlobalId} {id : GlobalId} (h : id ∉ seen) (hinit : m.init? id = none) :
      Follows m 1 seen (.alias id) none
  | next {turns : Nat} {seen : List GlobalId} {id : GlobalId} {init : Initializer}
      {result : Option Initializer} (h : id ∉ seen) (hinit : m.init? id = some init)
      (rest : Follows m turns (id :: seen) init result) :
      Follows m (turns + 1) seen (.alias id) result

/-- What the loop has been to are globals, each one once. -/
structure Visited (m : Module) (seen : List GlobalId) : Prop where
  nodup : seen.Nodup
  exist : ∀ id ∈ seen, id.index < m.globals.size

theorem visited_nil (m : Module) : m.Visited [] := ⟨List.nodup_nil, List.forall_mem_nil _⟩

theorem Visited.length_le (h : m.Visited seen) : seen.length ≤ m.globals.size := by
  have hindices : (seen.map (·.index)).Nodup :=
    h.nodup.map fun i j hij => congrArg GlobalId.mk hij
  have hsubset : seen.map (·.index) ⊆ List.range m.globals.size := by
    intro i hi
    obtain ⟨id, hid, rfl⟩ := List.mem_map.1 hi
    exact List.mem_range.2 (h.exist id hid)
  have hle := (hindices.subperm hsubset).length_le
  rwa [List.length_map, List.length_range] at hle

theorem Visited.cons (h : m.Visited seen) (hid : id ∉ seen) (hinit : m.init? id = some init) :
    m.Visited (id :: seen) := by
  obtain ⟨g, hg, -⟩ := Option.bind_eq_some_iff.1 hinit
  have hlt : id.index < m.globals.size := (Array.getElem?_eq_some_iff.1 hg).1
  exact ⟨List.nodup_cons.2 ⟨hid, h.nodup⟩, List.forall_mem_cons.2 ⟨hlt, h.exist⟩⟩

/-- The loop ends: each turn but the last one adds a global to those that it has been to. -/
theorem exists_follows {seen : List GlobalId} (h : m.Visited seen) (init : Initializer) :
    ∃ turns result, m.Follows turns seen init result := by
  cases init with
  | «alias» id =>
      by_cases hid : id ∈ seen
      · exact ⟨1, none, .again hid⟩
      · cases hinit : m.init? id with
        | none => exact ⟨1, none, .missing hid hinit⟩
        | some next =>
            obtain ⟨turns, result, hrest⟩ := exists_follows (h.cons hid hinit) next
            exact ⟨turns + 1, result, .next hid hinit hrest⟩
  | _ => exact ⟨0, _, .ends rfl⟩
termination_by m.globals.size - seen.length
decreasing_by
  have hle := (h.cons hid hinit).length_le
  rw [List.length_cons] at hle ⊢
  omega

namespace Follows

theorem turns_le (h : m.Follows turns seen init result) (hv : m.Visited seen) :
    turns + seen.length ≤ m.globals.size + if result.isSome then 0 else 1 := by
  induction h with
  | ends _ => simpa using hv.length_le
  | again _ => simpa [Nat.add_comm] using hv.length_le
  | missing _ _ => simpa [Nat.add_comm] using hv.length_le
  | next hid hinit _ ih =>
      have hle := ih (hv.cons hid hinit)
      rw [List.length_cons] at hle
      omega

theorem unique (h : m.Follows turns seen init result) (h' : m.Follows turns' seen init result') :
    turns = turns' ∧ result = result' := by
  induction h generalizing turns' with
  | ends hlast =>
      cases h' with
      | ends _ => exact ⟨rfl, rfl⟩
      | again _ => cases hlast
      | missing _ _ => cases hlast
      | next _ _ _ => cases hlast
  | again hid =>
      cases h' with
      | ends hlast => cases hlast
      | again _ => exact ⟨rfl, rfl⟩
      | missing hid' _ => exact absurd hid hid'
      | next hid' _ _ => exact absurd hid hid'
  | missing hid hinit =>
      cases h' with
      | ends hlast => cases hlast
      | again hid' => exact absurd hid' hid
      | missing _ _ => exact ⟨rfl, rfl⟩
      | next _ hinit' _ => cases hinit.symm.trans hinit'
  | next hid hinit _ ih =>
      cases h' with
      | ends hlast => cases hlast
      | again hid' => exact absurd hid' hid
      | missing _ hinit' => cases hinit.symm.trans hinit'
      | next _ hinit' rest' =>
          obtain rfl := Option.some.inj (hinit.symm.trans hinit')
          obtain ⟨rfl, rfl⟩ := ih rest'
          exact ⟨rfl, rfl⟩

/-- Whatever bound is put on the number of aliases, if the loop gets along with it, then following
the aliases without remembering them comes to the same result. -/
theorem resolveAlias_eq (h : m.Follows turns seen init (some last)) {fuel : Nat}
    (hfuel : turns ≤ fuel) : resolveAlias m fuel init = some last := by
  generalize hresult : some last = result at h
  induction h generalizing fuel with
  | ends hlast => exact resolveAlias_of_not_alias hlast
  | again _ => cases hresult
  | missing _ _ => cases hresult
  | next _ hinit _ ih =>
      obtain ⟨fuel, rfl⟩ : ∃ fuel', fuel = fuel' + 1 := Nat.exists_eq_succ_of_ne_zero (by omega)
      rw [resolveAlias_next hinit]
      exact ih (by omega) hresult

end Follows

/-- The end of a chain is found from any place before it: what the loop has been to is farther away
from the end. -/
theorem LeadsIn.follows (h : m.LeadsIn n init last) (hlast : last.isAlias = false)
    (hseen : ∀ id ∈ seen, ∀ next, m.init? id = some next → ∃ k, n ≤ k ∧ m.LeadsIn k next last) :
    m.Follows n seen init (some last) := by
  induction h generalizing seen with
  | here => exact .ends hlast
  | @next n id init last hinit hrest ih =>
      have hid : id ∉ seen := by
        intro hid
        obtain ⟨k, hk, hfar⟩ := hseen id hid init hinit
        obtain ⟨rfl, -⟩ := hfar.unique hrest hlast hlast
        omega
      refine .next hid hinit (ih hlast (List.forall_mem_cons.2 ⟨?_, ?_⟩))
      · intro next hnext
        obtain rfl := Option.some.inj (hinit.symm.trans hnext)
        exact ⟨n, Nat.le_refl n, hrest⟩
      · intro id' hid' next hnext
        obtain ⟨k, hk, hfar⟩ := hseen id' hid' next hnext
        exact ⟨k, Nat.le_of_succ_le hk, hfar⟩

theorem resolveAlias_eq_some_iff : resolveAlias m m.globals.size init = some last ↔
    m.Leads init last ∧ last.isAlias = false := by
  constructor
  · exact leads_of_resolveAlias
  · intro h
    obtain ⟨⟨n, hleads⟩, hlast⟩ := h
    have hfollows : m.Follows n [] init (some last) := hleads.follows hlast (List.forall_mem_nil _)
    exact hfollows.resolveAlias_eq (by simpa using hfollows.turns_le m.visited_nil)

/-- The loop ends, on every chain, and what it finds is what is found by following as many aliases
as there are globals. -/
theorem follows_resolveAlias (m : Module) (init : Initializer) : ∃ turns ≤ m.globals.size + 1,
    m.Follows turns [] init (resolveAlias m m.globals.size init) := by
  obtain ⟨turns, result, h⟩ := exists_follows m.visited_nil init
  have hturns := h.turns_le m.visited_nil
  cases result with
  | some last =>
      have hle : turns ≤ m.globals.size := by simpa using hturns
      refine ⟨turns, Nat.le_succ_of_le hle, ?_⟩
      rwa [h.resolveAlias_eq hle]
  | none =>
      refine ⟨turns, by simpa using hturns, ?_⟩
      cases hresolve : resolveAlias m m.globals.size init with
      | none => exact h
      | some last =>
          obtain ⟨⟨n, hleads⟩, hlast⟩ := leads_of_resolveAlias hresolve
          cases (h.unique (hleads.follows hlast (List.forall_mem_nil _))).2

end Ssa.Module

/-- What a cell begins with, as a statement about its variable. Single numbers are registers. -/
def Ssa.Initializer.fill? : Initializer → Option (Var → Stmt)
  | .zero => some fun array => .assumeArray array 0
  | .data elem values => if elem.isInt then some fun array => .arrayInit array values else none
  | _ => none

/-- What the cell begins with at whose global the chain begins: the end of the chain says so. -/
def Ssa.Module.fill? (m : Module) (init : Initializer) : Option (Var → Stmt) :=
  (resolveAlias m m.globals.size init).bind (·.fill?)

theorem Ssa.Module.Leads.fill?_eq {m : Module} {init last : Initializer} (h : m.Leads init last)
    {fill : Var → Stmt} (hfill : last.fill? = some fill) : m.fill? init = some fill := by
  have hlast : last.isAlias = false := by
    cases last with
    | «alias» _ => cases hfill
    | _ => rfl
  rw [Module.fill?, m.resolveAlias_eq_some_iff.2 ⟨h, hlast⟩, Option.bind_some, hfill]

theorem Ssa.Module.exists_fill?_iff (m : Module) (init : Initializer) :
    (∃ fill, m.fill? init = some fill) ↔ m.Leads init .zero ∨
      ∃ elem values, elem.isInt = true ∧ m.Leads init (.data elem values) := by
  constructor
  · intro h
    obtain ⟨fill, hfill⟩ := h
    obtain ⟨last, hresolve, hlast⟩ := Option.bind_eq_some_iff.1 hfill
    have hleads := (Module.leads_of_resolveAlias hresolve).1
    cases last with
    | zero => exact .inl hleads
    | data elem values =>
        cases helem : elem.isInt with
        | true => exact .inr ⟨elem, values, helem, hleads⟩
        | false => simp [Initializer.fill?, helem] at hlast
    | int _ => cases hlast
    | «alias» _ => cases hlast
    | other => cases hlast
  · rintro (hzero | ⟨elem, values, helem, hdata⟩)
    · exact ⟨_, hzero.fill?_eq rfl⟩
    · exact ⟨_, hdata.fill?_eq (if_pos helem)⟩

theorem contentsCode_eq (m : Module) (cell : Cell) (init : Initializer) : contentsCode m cell init =
    match m.fill? init with
    | some fill => do return [fill (← Lowering.cellVariable cell)]
    | none => return [] := by
  unfold contentsCode Module.fill?
  cases resolveAlias m m.globals.size init with
  | none => rfl
  | some last =>
      cases last with
      | data elem values => cases helem : elem.isInt <;> simp [Initializer.fill?, helem]
      | _ => rfl

theorem yields_contentsCode {m : Module} {cell : Cell} {init : Initializer} {s s' : Session}
    {stmts : List Stmt} : Yields (contentsCode m cell init) s stmts s' ↔
      (∃ fill, m.fill? init = some fill ∧ ∃ array, Yields (Lowering.cellVariable cell) s array s' ∧
        stmts = [fill array]) ∨
      m.fill? init = none ∧ stmts = [] ∧ s' = s := by
  rw [contentsCode_eq]
  cases m.fill? init with
  | none => simp
  | some fill =>
      simp only [yields_bind, yields_pure]
      constructor
      · intro h
        obtain ⟨array, s₁, hcell, rfl, rfl⟩ := h
        exact .inl ⟨fill, rfl, array, hcell, rfl⟩
      · rintro (⟨_, hfill, array, hcell, rfl⟩ | ⟨hnone, -, -⟩)
        · obtain rfl := Option.some.inj hfill
          exact ⟨array, s', hcell, rfl, rfl⟩
        · cases hnone

/-- The loop that follows the aliases at a global takes at most one turn more than there are
globals. The cell of the global begins with what the chain ends with, if the chain has an end and
that is zero or a list of integers. Otherwise, as on a circle or at a global that does not exist,
nothing is said about the cell, and no variable is made for it. -/
theorem contentsCode_resolves (m : Module) (cell : Cell) (init : Initializer) (s : Session) :
    (∃ turns ≤ m.globals.size + 1, m.Follows turns [] init (resolveAlias m m.globals.size init)) ∧
      ∃ stmts s', Yields (contentsCode m cell init) s stmts s' ∧
        (stmts ≠ [] ↔ m.Leads init .zero ∨
          ∃ elem values, elem.isInt = true ∧ m.Leads init (.data elem values)) ∧
        (stmts = [] → s' = s) ∧
        (m.Leads init .zero → ∃ array, Yields (Lowering.cellVariable cell) s array s' ∧
          stmts = [.assumeArray array 0]) ∧
        ∀ elem values, elem.isInt = true → m.Leads init (.data elem values) → ∃ array,
          Yields (Lowering.cellVariable cell) s array s' ∧ stmts = [.arrayInit array values] := by
  refine ⟨m.follows_resolveAlias init, ?_⟩
  rw [← m.exists_fill?_iff init]
  cases hfill : m.fill? init with
  | none =>
      refine ⟨[], s, yields_contentsCode.2 (.inr ⟨hfill, rfl, rfl⟩), by simp, fun _ => rfl, ?_, ?_⟩
      · intro hzero
        cases hfill.symm.trans (hzero.fill?_eq rfl)
      · intro elem values helem hdata
        cases hfill.symm.trans (hdata.fill?_eq (if_pos helem))
  | some fill =>
      obtain ⟨array, s', hcell⟩ : ∃ array s', Yields (Lowering.cellVariable cell) s array s' :=
        ⟨_, _, Lowering.yields_request.2 ⟨rfl, rfl⟩⟩
      refine ⟨[fill array], s', yields_contentsCode.2 (.inl ⟨fill, hfill, array, hcell, rfl⟩),
        by simp, by simp, ?_, ?_⟩
      · intro hzero
        obtain rfl := Option.some.inj (hfill.symm.trans (hzero.fill?_eq rfl))
        exact ⟨array, hcell, rfl⟩
      · intro elem values helem hdata
        obtain rfl := Option.some.inj (hfill.symm.trans (hdata.fill?_eq (if_pos helem)))
        exact ⟨array, hcell, rfl⟩

end AffineFlow
