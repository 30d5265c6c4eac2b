import AffineFlow.Proofs.Forms.Operands
import AffineFlow.Proofs.Memory.Home
import AffineFlow.Proofs.Statements.Emission

/-!
# Stores that reach their cell

A store of an integer through a pointer into a cell writes the contents of the
cell where loads read them, if both the pointer and the stored value have affine
forms. If one of them has none, the store is lowered to nothing, and the cell
keeps what it had.
-/
namespace AffineFlow

open Ssa Lowering

/-- The variable that the statement assigns, forgets, or stores into. -/
def Stmt.renewed? : Stmt → Option Var
  | .assign x _ => some x
  | .havoc x => some x
  | .arrayStore x _ _ _ => some x
  | _ => none

namespace Scope

variable {sc : Scope} {F : VarSupply} {s s' : Session} {c : Cell} {ptr value : Value} {ty : Ty}
  {code : List Stmt}

/-- The code assigns, forgets or stores into the variable that has the contents of the cell. -/
def Renews (sc : Scope) (F : VarSupply) (code : List Stmt) (c : Cell) : Prop :=
  ∃ x, sc.Home F c x ∧ ∃ stmt ∈ code, stmt.renewed? = some x

/-- A store of an integer into a cell is one write of the forms of its operands, or nothing. -/
theorem storeCode_spec (hmemory : sc.modelsMemory = true) (hty : sc.typeOf value = .ok ty)
    (hint : ty.isInt = true) (hcell : sc.cellAt? ptr = some c)
    (h : Yields (sc.storeCode value ptr) s code s') (hF : s'.supply.Extends F) :
    (∃ index stored x, sc.form? F ptr = some index ∧ sc.form? F value = some stored ∧
      sc.Home F c x ∧ ((∃ o, sc.HeldBy c o) ∧ code = [.assign x stored] ∨
        (∀ o, ¬sc.HeldBy c o) ∧
          code = [.arrayStore x index stored (sc.program.layout.allocSize ty)])) ∨
    (sc.isExpressible ptr && sc.isExpressible value) = false ∧ code = [] := by
  simp only [storeCode, yields_bind, yields_ofExcept] at h
  obtain ⟨ty', _, ⟨hty', rfl⟩, h⟩ := h
  obtain rfl := Except.ok.inj (hty.symm.trans hty')
  rw [hint, hmemory, Bool.and_self, if_pos rfl, hcell] at h
  simp only [yields_bind] at h
  obtain ⟨index?, s₁, hindex, stored?, s₂, hstored, h⟩ := h
  have hgrown : s₂.supply.Extends F := by
    refine VarSupply.Extends.trans ?_ hF
    split at h
    · exact sc.writeCode_grows _ _ _ _ _ _ _ h
    · exact (yields_pure.1 h).2 ▸ .refl _
  obtain ⟨hformv, hsomev⟩ := express_form hstored hgrown
  obtain ⟨hformp, hsomep⟩ :=
    express_form hindex ((sc.express_grows value _ _ _ hstored).trans hgrown)
  split at h
  next index stored =>
    obtain ⟨x, hhome, hcode⟩ := accessCode_spec (fun x => .assign x stored)
      (fun x => .arrayStore x index stored (sc.program.layout.allocSize ty)) h hF
    exact .inl ⟨index, stored, x, hformp.symm, hformv.symm, hhome, hcode⟩
  next hnone =>
    refine .inr ⟨?_, (yields_pure.1 h).1⟩
    rw [← hsomep, ← hsomev]
    cases index? with
    | none => rfl
    | some index =>
        cases stored? with
        | none => rfl
        | some stored => exact absurd rfl (hnone index stored rfl)

/-- The contents of the cell are renewed just if both operands can be expressed. -/
theorem storeCode_renews_iff (hmemory : sc.modelsMemory = true) (hty : sc.typeOf value = .ok ty)
    (hint : ty.isInt = true) (hcell : sc.cellAt? ptr = some c)
    (h : Yields (sc.storeCode value ptr) s code s') (hF : s'.supply.Extends F) :
    sc.Renews F code c ↔ sc.isExpressible ptr = true ∧ sc.isExpressible value = true := by
  rcases storeCode_spec hmemory hty hint hcell h hF with
    ⟨index, stored, x, hp, hv, hhome, hcode⟩ | ⟨hinexpressible, rfl⟩
  · refine iff_of_true ⟨x, hhome, ?_⟩ ⟨isExpressible_of_form? hp, isExpressible_of_form? hv⟩
    rcases hcode with ⟨-, rfl⟩ | ⟨-, rfl⟩
    · exact ⟨_, .head _, rfl⟩
    · exact ⟨_, .head _, rfl⟩
  · refine iff_of_false ?_ (by simpa using hinexpressible)
    rintro ⟨x, -, stmt, hmem, -⟩
    cases hmem

end Scope

/-- In a graph with memory, a store of an integer through a pointer into a cell renews the contents
of the cell just if the pointer and the stored value can be expressed. Then it is an assignment to
the object that has the contents, if there is one, and otherwise a store into the array of the cell;
if not, it is nothing at all. -/
theorem functionGraph_stores_iff {program : Module} {id : FuncId} {oracle : Oracle}
    {settings : Settings} {s s' : Session} {g : FlowGraph} (hmemory : oracle.modelsMemory = true)
    (h : Yields (functionGraph program id oracle settings) s g s') :
    ∃ sc, Scope.ofFunction program id oracle settings = .ok sc ∧
      ∀ b ∈ sc.body.order, ∀ block, sc.body.block? b = some block → ∀ i ∈ block.insts,
        ∃ inst code, sc.body.inst? i = some inst ∧ sc.Emits s'.supply i code ∧
          (settings.simplify = false → sc.body.order.Nodup →
            ∃ k n, g.nodes.get? k = some n ∧ code <:+: n.stmts) ∧
          ∀ value ptr ty c, inst.kind = .store value ptr → sc.typeOf value = .ok ty →
            ty.isInt = true → sc.cellAt? ptr = some c →
            (sc.Renews s'.supply code c ↔
              sc.isExpressible ptr = true ∧ sc.isExpressible value = true) ∧
            ((∃ index stored x, sc.form? s'.supply ptr = some index ∧
                sc.form? s'.supply value = some stored ∧ sc.Home s'.supply c x ∧
                ((∃ o, sc.HeldBy c o) ∧ code = [.assign x stored] ∨
                  (∀ o, ¬sc.HeldBy c o) ∧
                    code = [.arrayStore x index stored (program.layout.allocSize ty)])) ∨
              (sc.isExpressible ptr && sc.isExpressible value) = false ∧ code = []) := by
  obtain ⟨sc, hscope, hinsts⟩ := functionGraph_emits h
  obtain ⟨func, body, -, -, rfl⟩ := Scope.ofFunction_spec hscope
  refine ⟨_, hscope, fun b hb block hblock i hi => ?_⟩
  obtain ⟨inst, code, u, u', hinst, hcode, hgrown, hplaced⟩ := hinsts b hb block hblock i hi
  refine ⟨inst, code, hinst, ⟨u, u', hcode, hgrown⟩, hplaced, ?_⟩
  intro value ptr ty c hkind hty hint hcell
  simp only [Scope.instCode, hinst, hkind] at hcode
  exact ⟨Scope.storeCode_renews_iff hmemory hty hint hcell hcode hgrown,
    Scope.storeCode_spec hmemory hty hint hcell hcode hgrown⟩

/-- A function that stores a number to a global, then an undefined value, and loads from the
global. -/
def storeTwiceLoad : Module where
  funcs := #[
    { name := "f", params := [], ret := .void
      body := some (Body.ofListing [⟨"entry",
        [(none, .void, .store (.int 32 7) (.global ⟨0⟩)),
          (none, .void, .store (.undef (some 32)) (.global ⟨0⟩)),
          (some "x", .int 32, .load (.global ⟨0⟩))], .ret none⟩]) }]
  globals := #[⟨"g", .int 32, none⟩]

/-- The global is alone in a cell. -/
def globalInCell : Oracle :=
  Tables.toOracle
    { tracking := .memory
      cells := [((⟨0⟩, .global ⟨0⟩), ⟨0⟩)]
      singletons := [(⟨0⟩, .global ⟨0⟩)] }

/-- The first store renews the contents of the cell, and the second one does not. -/
theorem functionGraph_stores_storeTwiceLoad :
    ∃ g s' sc code code', globalInCell.modelsMemory = true ∧
      Yields (functionGraph storeTwiceLoad ⟨0⟩ globalInCell {}) {} g s' ∧
      Scope.ofFunction storeTwiceLoad ⟨0⟩ globalInCell {} = .ok sc ∧
      sc.Emits s'.supply ⟨0⟩ code ∧ sc.Renews s'.supply code ⟨0⟩ ∧
      sc.Emits s'.supply ⟨1⟩ code' ∧ ¬sc.Renews s'.supply code' ⟨0⟩ := by
  obtain ⟨g, s', hg⟩ : ∃ g s', Yields (functionGraph storeTwiceLoad ⟨0⟩ globalInCell {}) {} g s' :=
    ⟨_, _, rfl⟩
  obtain ⟨sc, hscope, hinsts⟩ := functionGraph_stores_iff rfl hg
  obtain rfl := Except.ok.inj hscope
  obtain ⟨inst, code, hinst, hemits, -, hstore⟩ := hinsts ⟨0⟩ (.head _) _ rfl ⟨0⟩ (.head _)
  obtain rfl := Option.some.inj hinst
  obtain ⟨inst', code', hinst', hemits', -, hstore'⟩ :=
    hinsts ⟨0⟩ (.head _) _ rfl ⟨1⟩ (.tail _ (.head _))
  obtain rfl := Option.some.inj hinst'
  obtain ⟨hiff, -⟩ := hstore (.int 32 7) (.global ⟨0⟩) (.int 32) ⟨0⟩ rfl rfl rfl rfl
  obtain ⟨hiff', -⟩ := hstore' (.undef (some 32)) (.global ⟨0⟩) (.int 32) ⟨0⟩ rfl rfl rfl rfl
  exact ⟨g, s', _, code, code', rfl, hg, hscope, hemits, hiff.2 ⟨rfl, rfl⟩, hemits',
    fun hrenews => nomatch (hiff'.1 hrenews).2⟩

/-- The load reads the number that was stored first, although the cell has been stored to since. -/
theorem staleLoad_storeTwiceLoad :
    ∃ sc g s' n x y, Scope.ofFunction storeTwiceLoad ⟨0⟩ globalInCell {} = .ok sc ∧
      Yields (functionGraph storeTwiceLoad ⟨0⟩ globalInCell {}) {} g s' ∧
      (sc.body.inst? ⟨1⟩).map (·.kind) = some (.store (.undef (some 32)) (.global ⟨0⟩)) ∧
      sc.typeOf (.undef (some 32)) = .ok (.int 32) ∧ sc.cellAt? (.global ⟨0⟩) = some ⟨0⟩ ∧
      sc.HeldBy ⟨0⟩ (.global ⟨0⟩) ∧ sc.Home s'.supply ⟨0⟩ x ∧
      (∀ code, sc.Emits s'.supply ⟨1⟩ code → ¬sc.Renews s'.supply code ⟨0⟩) ∧
      g.nodes.get? g.entry = some n ∧ n.stmts = [.assign x (.const 7), .assign y (.ofVar x)] := by
  refine ⟨_, _, _, _, ⟨0⟩, ⟨1⟩, rfl, rfl, rfl, rfl, rfl, ⟨rfl, rfl, rfl⟩,
    .object (o := .global ⟨0⟩) ⟨rfl, rfl, rfl⟩ ⟨_, rfl, rfl⟩, ?_, rfl, rfl⟩
  rintro code ⟨u, u', hcode, hgrown⟩ hrenews
  have hiff := Scope.storeCode_renews_iff rfl
    (rfl : Scope.typeOf _ (.undef (some 32)) = .ok (.int 32)) rfl
    (rfl : Scope.cellAt? _ (.global ⟨0⟩) = some ⟨0⟩) hcode hgrown
  cases (hiff.1 hrenews).2

end AffineFlow
