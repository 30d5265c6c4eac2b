import AffineFlow.Proofs.Addresses.Offsets
import AffineFlow.Proofs.Execution.Graph
import AffineFlow.Proofs.Forms.Operands
import AffineFlow.Proofs.Memory.Home

/-!
# Address computations are exact

The code of an address computation leaves the sum of the base and all offsets in
the variable of the result, and changes nothing else but temporaries that it
mints. It may do the known offsets last, because addition does not mind the
order, and it may read an index after the result has been written to, because
the result is not an operand.
-/
namespace AffineFlow

open Ssa Lowering IndexStep

/-- The code can be run, it leaves a value in `x`, and it changes no other variable, except
temporaries numbered from `size` up to `size'`. -/
structure Computes (F : VarSupply) (size size' : Nat) (code : List Stmt) (x : Var)
    (value : Valuation → Int) : Prop where
  total : ∀ σ, ∃ τ, RunAll code σ τ
  value : ∀ σ τ, RunAll code σ τ → τ x = value σ
  other : ∀ σ τ, RunAll code σ τ → ∀ y, τ y ≠ σ y →
    y = x ∨ F.Spare y ∧ size ≤ y.id ∧ y.id < size'

namespace Computes

variable {F : VarSupply} {lo mid hi : Nat} {code code' : List Stmt} {x t : Var}
  {value value' : Valuation → Int} {σ τ : Valuation}

theorem nil : Computes F lo hi [] x fun σ => σ x where
  total σ := ⟨σ, .nil⟩
  value _ _ hrun := congrFun (runAll_nil_iff.1 hrun) x
  other _ _ hrun y hy := absurd (congrFun (runAll_nil_iff.1 hrun) y) hy

/-- A statement that always has one outcome, written to `x`. -/
theorem single {stmt : Stmt} (h : ∀ σ τ, stmt.Runs σ τ ↔ τ = Function.update σ x (value σ)) :
    Computes F lo hi [stmt] x value where
  total σ := ⟨_, runAll_singleton_iff.2 ((h σ _).2 rfl)⟩
  value σ τ hrun := by
    rw [(h σ τ).1 (runAll_singleton_iff.1 hrun), Function.update_self]
  other σ τ hrun y hy := by
    refine .inl (by_contra fun hne => hy ?_)
    rw [(h σ τ).1 (runAll_singleton_iff.1 hrun), Function.update_of_ne hne]

theorem assign (e : AffineForm) : Computes F lo hi [.assign x e] x e.eval :=
  single fun _ _ => runs_assign_iff

theorem add (a b : AffineForm) :
    Computes F lo hi [.arith .add x a b] x fun σ => a.eval σ + b.eval σ :=
  single fun σ τ => by simp [runs_arith_iff, ArithOp.value?]

/-- Temporaries may be numbered from further below. -/
theorem mono (h : Computes F mid hi code x value) (hlo : lo ≤ mid) :
    Computes F lo hi code x value where
  total := h.total
  value := h.value
  other σ τ hrun y hy := by
    obtain hyx | ⟨hspare, hge, hlt⟩ := h.other σ τ hrun y hy
    · exact .inl hyx
    · exact .inr ⟨hspare, Nat.le_trans hlo hge, hlt⟩

/-- A product is made in a temporary and added. -/
theorem addProduct (e : AffineForm) (size : Nat) (ht : F.Spare t) (hlo : lo ≤ t.id)
    (hhi : t.id < hi) (hne : x ≠ t) :
    Computes F lo hi [.arith .mul t e (.const size), .arith .add x (.ofVar x) (.ofVar t)] x
      fun σ => σ x + e.eval σ * size := by
  have hruns : ∀ σ τ, RunAll [.arith .mul t e (.const size), .arith .add x (.ofVar x) (.ofVar t)]
      σ τ ↔ τ = Function.update (Function.update σ t (e.eval σ * size)) x
        (σ x + e.eval σ * size) := by
    intro σ τ
    simp [runAll_cons_iff, runAll_nil_iff, runs_arith_iff, ArithOp.value?,
      Function.update_of_ne hne]
  constructor
  · intro σ
    exact ⟨_, (hruns σ _).2 rfl⟩
  · intro σ τ hrun
    rw [(hruns σ τ).1 hrun, Function.update_self]
  · intro σ τ hrun y hy
    rw [(hruns σ τ).1 hrun] at hy
    by_cases hyx : y = x
    · exact .inl hyx
    · rw [Function.update_of_ne hyx] at hy
      obtain rfl : y = t := by_contra fun hyt => hy (Function.update_of_ne hyt _ _)
      exact .inr ⟨ht, hlo, hhi⟩

/-- One part after the other, where what the second part computes is known in terms of what there
was before the first one. -/
theorem append (h : Computes F lo mid code x value) (h' : Computes F mid hi code' x value')
    (hlo : lo ≤ mid) (hhi : mid ≤ hi) {value'' : Valuation → Int}
    (hvalue : ∀ σ τ, τ x = value σ → (∀ y, τ y ≠ σ y → y = x ∨ F.Spare y) →
      value' τ = value'' σ) : Computes F lo hi (code ++ code') x value'' where
  total σ := by
    obtain ⟨τ, hτ⟩ := h.total σ
    obtain ⟨υ, hυ⟩ := h'.total τ
    exact ⟨υ, runAll_append_iff.2 ⟨τ, hτ, hυ⟩⟩
  value σ υ hrun := by
    obtain ⟨τ, hτ, hυ⟩ := runAll_append_iff.1 hrun
    rw [h'.value τ υ hυ]
    exact hvalue σ τ (h.value σ τ hτ) fun y hy => (h.other σ τ hτ y hy).imp_right (·.1)
  other σ υ hrun y hy := by
    obtain ⟨τ, hτ, hυ⟩ := runAll_append_iff.1 hrun
    by_cases hsame : τ y = σ y
    · rw [← hsame] at hy
      obtain hyx | ⟨hspare, hge, hlt⟩ := h'.other τ υ hυ y hy
      · exact .inl hyx
      · exact .inr ⟨hspare, Nat.le_trans hlo hge, hlt⟩
    · obtain hyx | ⟨hspare, hge, hlt⟩ := h.other σ τ hτ y hsame
      · exact .inl hyx
      · exact .inr ⟨hspare, hge, Nat.lt_of_lt_of_le hlt hhi⟩

end Computes

namespace Scope

variable {sc : Scope} {F : VarSupply} {s s' : Session} {id : InstId} {dst : Var} {v : Value}
  {e p : AffineForm} {σ τ : Valuation} {steps : List IndexStep} {code stmts : List Stmt}

/-- What an index stands for: the number that it is, or the value of its form. -/
def count (sc : Scope) (F : VarSupply) (σ : Valuation) (v : Value) : Int :=
  v.number?.getD (((sc.form? F v).map (·.eval σ)).getD 0)

theorem countsNumbers_count (sc : Scope) (F : VarSupply) (σ : Valuation) :
    CountsNumbers (sc.count F σ) := by
  intro v n hn
  rw [count, hn]
  rfl

theorem count_of_form? (hn : v.number? = none) (he : sc.form? F v = some e) :
    sc.count F σ v = e.eval σ := by
  rw [count, hn, he]
  rfl

/-- An operand other than the result is not affected by what is written to the result and to
temporaries. -/
theorem form?_eval_congr (hdst : sc.Denotes F (.inst id) dst) (hv : v ≠ .inst id)
    (he : sc.form? F v = some e) (hother : ∀ y, τ y ≠ σ y → y = dst ∨ F.Spare y) :
    e.eval τ = e.eval σ := by
  refine AffineForm.eval_congr fun t ht => by_contra fun hne => ?_
  obtain ⟨-, hdenotes⟩ := form?_denotes he ht
  rcases hother t.1 hne with hdst' | hspare
  · exact hv ((hdst' ▸ hdenotes).value_unique hdst)
  · obtain ⟨r, -, hfind⟩ := hdenotes
    exact hspare r hfind

/-- The steps that are not known multiply values that can be expressed and are not the result. -/
def ScalesOthers (sc : Scope) (id : InstId) (steps : List IndexStep) : Prop :=
  ∀ index size, .scaled index size ∈ steps →
    index.number? = none ∧ index ≠ .inst id ∧ sc.isExpressible index = true

theorem scaledBytes_count_congr (hsteps : sc.ScalesOthers id steps)
    (hdst : sc.Denotes F (.inst id) dst) (hother : ∀ y, τ y ≠ σ y → y = dst ∨ F.Spare y) :
    scaledBytes (sc.count F τ) steps = scaledBytes (sc.count F σ) steps := by
  refine scaledBytes_congr fun index size hm => ?_
  obtain ⟨-, hne, -⟩ := hsteps index size hm
  unfold count
  cases he : sc.form? F index with
  | none => rfl
  | some e => rw [Option.map_some, Option.map_some, form?_eval_congr hdst hne he hother]

/-- The products are added one after the other. -/
theorem scaledCode_computes {complete : Bool} (hsteps : sc.ScalesOthers id steps)
    (hdst : sc.Denotes F (.inst id) dst)
    (h : Yields (sc.scaledCode dst steps) s (stmts, complete) s') (hF : s'.supply.Extends F) :
    complete = true ∧ Computes F s.supply.size s'.supply.size stmts dst
      fun σ => σ dst + scaledBytes (sc.count F σ) steps := by
  induction steps generalizing s stmts with
  | nil =>
      obtain ⟨hpair, rfl⟩ := yields_pure.1 h
      obtain ⟨rfl, rfl⟩ := Prod.mk.inj hpair
      refine ⟨rfl, ?_⟩
      simp only [scaledBytes, Int.add_zero]
      exact .nil
  | cons step rest ih =>
      have hrest : sc.ScalesOthers id rest := fun index size hm => hsteps index size (.tail _ hm)
      cases step with
      | offset n => exact ih hrest h
      | scaled index size =>
          obtain ⟨hnumber, -, hexpressible⟩ := hsteps index size (.head _)
          simp only [scaledCode, yields_bind] at h
          obtain ⟨e?, s₁, he, h⟩ := h
          cases e? with
          | none =>
              obtain ⟨-, rfl⟩ := yields_pure.1 h
              cases (express_form he hF).2.trans hexpressible
          | some e =>
              simp only [yields_bind, yields_pure] at h
              obtain ⟨t, s₂, ht, ⟨others, complete'⟩, s₃, hothers, hpair, rfl⟩ := h
              obtain ⟨rfl, rfl⟩ := Prod.mk.inj hpair
              have hgrown := sc.scaledCode_grows _ _ _ _ _ hothers
              have hminted := Grows.temporary _ _ _ ht
              have hform := (express_form he (hminted.trans (hgrown.trans hF))).1.symm
              obtain ⟨hcomplete, hcomputes⟩ := ih hrest hothers
              have hspare := temporary_spec ht (hgrown.trans hF)
              obtain ⟨rfl, hs₂⟩ := yields_temporary.1 ht
              have hsize := (sc.express_grows _ _ _ _ he).size_le
              have hnext : s₂.supply.size = s₁.supply.next.id + 1 := by
                rw [hs₂]
                exact VarSupply.size_mint _
              have hne : dst ≠ s₁.supply.next := by
                obtain ⟨r, -, hfind⟩ := hdst
                exact fun hdst => hspare r (hdst ▸ hfind)
              have hproduct : Computes F s.supply.size s₂.supply.size _ dst _ :=
                .addProduct e size hspare hsize (by omega) hne
              refine ⟨hcomplete, hproduct.append hcomputes (Nat.le_trans hsize hminted.size_le)
                hgrown.size_le fun σ τ hτ hother => ?_⟩
              rw [hτ, scaledBytes_count_congr hrest hdst hother, scaledBytes,
                count_of_form? hnumber hform, Int.add_assoc]

/-- The known offsets are added last, and not at all if they cancel. -/
theorem stepsCode_computes {offset : Int} (hsteps : sc.ScalesOthers id steps)
    (hdst : sc.Denotes F (.inst id) dst) (hoffset : knownOffset 0 steps = some offset)
    (h : Yields (sc.stepsCode dst p steps) s code s') (hF : s'.supply.Extends F) :
    Computes F s.supply.size s'.supply.size code dst
      fun σ => p.eval σ + (offset + scaledBytes (sc.count F σ) steps) := by
  simp only [stepsCode, hoffset] at h
  split at h
  next hknown =>
    obtain ⟨rfl, rfl⟩ := yields_pure.1 h
    have hadd : Computes F s'.supply.size s'.supply.size _ dst _ := .add p (.const offset)
    simpa only [scaledBytes_of_known hknown, AffineForm.eval_const, Int.add_zero] using hadd
  next hknown =>
    simp only [yields_bind, yields_pure] at h
    obtain ⟨⟨scaled, complete⟩, s₁, hscaled, rfl, rfl⟩ := h
    obtain ⟨rfl, hproducts⟩ := scaledCode_computes hsteps hdst hscaled hF
    have hsize := (sc.scaledCode_grows _ _ _ _ _ hscaled).size_le
    have hbase : Computes F s.supply.size s.supply.size [.assign dst p] dst p.eval := .assign p
    have hlast : Computes F s'.supply.size s'.supply.size
        (if true && offset ≠ 0 then [.arith .add dst (.ofVar dst) (.const offset)] else []) dst
        fun σ => σ dst + offset := by
      by_cases hzero : offset = 0
      · simp only [hzero, Int.add_zero]
        exact .nil
      · simpa [hzero] using Computes.add (.ofVar dst) (.const offset)
    have htail : Computes F s.supply.size s'.supply.size _ dst
        fun σ => σ dst + scaledBytes (sc.count F σ) steps + offset :=
      hproducts.append hlast hsize (Nat.le_refl _) fun σ τ hτ _ => by rw [hτ]
    refine hbase.append htail (Nat.le_refl _) hsize fun σ τ hτ hother => ?_
    rw [hτ, scaledBytes_count_congr hsteps hdst hother]
    omega

/-- The address computation `id` is translated, and its indices fit the type and can be expressed;
of an index that is an extension, the operand counts. -/
structure Addresses (sc : Scope) (id : InstId) (base : Value) (sourceTy : Ty)
    (indices : List Value) : Prop where
  kind : sc.body.kind? (.inst id) = some (.address base sourceTy indices)
  translated : sc.isTranslatedAddress id base = true
  fits : sourceTy.misfit? (indices.tail.map sc.beneathExtension) = none
  expressible : ∀ index ∈ indices, sc.isExpressible (sc.beneathExtension index) = true

namespace Addresses

variable {base : Value} {sourceTy : Ty} {indices : List Value}

theorem answers (h : sc.Addresses id base sourceTy indices) :
    sc.tracks (.inst id) = .ok true ∧ sc.isAddressWanted id = .ok true ∧
      sc.isExpressible base = true := by
  have htranslated := h.translated
  simp only [isTranslatedAddress, Bool.and_eq_true, isYes_iff, and_assoc] at htranslated
  exact htranslated

theorem scalesOthers (h : sc.Addresses id base sourceTy indices)
    (hother : .inst id ∉ indices.map sc.beneathExtension) {constants : List Int}
    {distance : (Value → Int) → Int}
    (hwalks : Walks steps (indices.map sc.beneathExtension) constants distance) :
    sc.ScalesOthers id steps := by
  intro index size hm
  obtain ⟨hmem, hnumber⟩ := hwalks.scaled index size hm
  refine ⟨hnumber, fun he => hother (he ▸ hmem), ?_⟩
  obtain ⟨v, hv, rfl⟩ := List.mem_map.1 hmem
  exact h.expressible v hv

/-- The code is that of the steps. -/
theorem yields_iff (h : sc.Addresses id base sourceTy indices) :
    Yields (sc.instCode id) s code s' ↔ ∃ dst s₁ p s₂ steps s₃,
      Yields (sc.variableOf (.inst id)) s dst s₁ ∧ Yields (sc.express base) s₁ (some p) s₂ ∧
        Yields (sc.indexSteps id sourceTy indices) s₂ steps s₃ ∧
        Yields (sc.stepsCode dst p steps) s₃ code s' := by
  obtain ⟨htracks, hwanted, hbase⟩ := h.answers
  have hcode : sc.instCode id = sc.addressCode id base sourceTy indices := by
    obtain ⟨inst, hinst, hkind⟩ := Option.map_eq_some_iff.1 h.kind
    rw [instCode, show sc.body.inst? id = some inst from hinst]
    simp only [hkind]
  rw [hcode]
  constructor
  · intro hyields
    rcases yields_onlyIf.1 hyields with ⟨-, hyields⟩ | ⟨hnot, -⟩
    swap
    · cases htracks.symm.trans hnot
    simp only [yields_bind, yields_ofExcept] at hyields
    obtain ⟨dst, _, hdst, wanted, s₁, ⟨hanswer, rfl⟩, hyields⟩ := hyields
    obtain rfl := Except.ok.inj (hwanted.symm.trans hanswer)
    simp only [if_true, yields_bind] at hyields
    obtain ⟨p?, s₂, hp, hyields⟩ := hyields
    obtain ⟨p, rfl, -⟩ := express_of_isExpressible hp (.refl _) hbase
    obtain ⟨steps, s₃, hsteps, hyields⟩ := yields_bind.1 hyields
    exact ⟨dst, s₁, p, s₂, steps, s₃, hdst, hp, hsteps, hyields⟩
  · intro hparts
    obtain ⟨dst, s₁, p, s₂, steps, s₃, hdst, hp, hsteps, hyields⟩ := hparts
    refine yields_onlyIf.2 (.inl ⟨htracks, ?_⟩)
    refine yields_bind.2 ⟨dst, s₁, hdst, yields_bind.2 ⟨true, s₁, ?_, ?_⟩⟩
    · exact yields_ofExcept.2 ⟨hwanted, rfl⟩
    · exact yields_bind.2 ⟨some p, s₂, hp, yields_bind.2 ⟨steps, s₃, hsteps, hyields⟩⟩

end Addresses

/-- An address computation whose constant offsets add up in 128 bits leaves the base plus the
distance in the variable of its result, and changes nothing else but temporaries that it mints. It
is lowered from every session, unless its type cannot be measured. -/
theorem instCode_address_exact {base : Value} {sourceTy : Ty} {indices : List Value}
    (h : sc.Addresses id base sourceTy indices)
    (hother : .inst id ∉ indices.map sc.beneathExtension)
    (hconstants : AddUp128
      (sc.program.layout.addressConstants sourceTy (indices.map sc.beneathExtension))) :
    (∀ s code s' F, Yields (sc.instCode id) s code s' → s'.supply.Extends F →
      ∃ x p, sc.form? F (.inst id) = some (.ofVar x) ∧ sc.form? F base = some p ∧
        Computes F s.supply.size s'.supply.size code x fun σ => p.eval σ +
          sc.program.layout.addressOffset (sc.count F σ) sourceTy
            (indices.map sc.beneathExtension)) ∧
    (indices = [] ∨ sc.program.layout.measurable sourceTy = true →
      ∀ s, ∃ code s', Yields (sc.instCode id) s code s') := by
  obtain ⟨hfit, hsums⟩ := hconstants
  obtain ⟨steps, honly, hfound, hwalks⟩ := indexSteps_walks id h.fits hfit
  have hsteps := h.scalesOthers hother hwalks
  have hoffset : knownOffset 0 steps = some (steps.filterMap known?).sum := by
    rw [← Int.zero_add (List.sum _)]
    refine knownOffset_eq fun part hpart => ?_
    rw [hwalks.known] at hpart
    rw [Int.zero_add]
    exact hsums part hpart
  obtain ⟨htracks, -, hbase⟩ := h.answers
  refine ⟨fun s code s' F hcode hF => ?_, fun hmeasurable s => ?_⟩
  · obtain ⟨dst, s₁, p, s₂, steps', s₃, hdst, hp, hindices, hcode⟩ := h.yields_iff.1 hcode
    obtain ⟨rfl, rfl⟩ := honly _ _ _ hindices
    have hgrown := sc.express_grows _ _ _ _ hp
    have hF₂ := (sc.stepsCode_grows _ _ _ _ _ _ hcode).trans hF
    have hform := (express_form hp hF₂).1.symm
    obtain ⟨-, hdenotes⟩ := variableOf_spec hdst (hgrown.trans hF₂)
    have hsize := Nat.le_trans (sc.variableOf_grows _ _ _ _ hdst).size_le hgrown.size_le
    have hcomputes := (stepsCode_computes hsteps hdenotes hoffset hcode hF).mono hsize
    refine ⟨dst, p, form?_of_denotes htracks hdenotes, hform, ?_⟩
    have htotal : ∀ σ : Valuation, sc.program.layout.addressOffset (sc.count F σ) sourceTy
        (indices.map sc.beneathExtension) =
          (steps'.filterMap known?).sum + scaledBytes (sc.count F σ) steps' := by
      intro σ
      rw [← sum_bytes, hwalks.total _ (sc.countsNumbers_count F σ)]
    simpa only [htotal] using hcomputes
  · obtain ⟨dst, s₁, hdst⟩ := ((variableOf_safe htracks rfl).ok_iff s).2 rfl
    have hanswered := answered_of_isExpressible hbase
    obtain ⟨p?, s₂, hp⟩ := ((express_settles_of_answered hanswered).ok_iff s₁).2 rfl
    obtain ⟨p, rfl, -⟩ := express_of_isExpressible hp (.refl _) hbase
    have hsafe : Safe (sc.stepsCode dst p steps) := stepsCode_safe_of_answered
      fun index size hm => answered_of_isExpressible (hsteps index size hm).2.2
    obtain ⟨code, s', hcode⟩ := (hsafe.ok_iff s₂).2 rfl
    exact ⟨code, s', h.yields_iff.2
      ⟨dst, s₁, p, s₂, steps, s₂, hdst, hp, hfound hmeasurable s₂, hcode⟩⟩

/-- A function of a pointer and a number, in a program with memory. -/
def pointerScope (insts : List (Option String × Ty × InstKind)) : Scope :=
  let body := Body.ofListing [⟨"entry", insts, .ret none⟩]
  let func : Function :=
    { name := "f", params := [⟨"p", .ptr⟩, ⟨"i", .int 32⟩], ret := .void, body := some body }
  ⟨{ funcs := #[func] }, ⟨0⟩, func, body, Tables.toOracle { tracking := .memory }, {}⟩

/-- Arrays of four structs that have three numbers each after a byte. -/
def recordsTy : Ty := .array (.struct [.int 8, .array (.int 16) 3]) 4

/-- A load of the `i`-th number of the `i`-th struct, from one array before the pointer. -/
def recordsScope : Scope :=
  pointerScope [
    (some "wide", .int 64, .cast .sext (.arg 1)),
    (some "q", .ptr, .address (.arg 0) recordsTy [.int 64 (-1), .inst ⟨0⟩, .int 32 1, .arg 1]),
    (some "v", .int 32, .load (.inst ⟨1⟩))]

/-- The known offsets are minus thirty-two for the array and two for the field. -/
theorem instCode_address_exact_records :
    recordsScope.Addresses ⟨1⟩ (.arg 0) recordsTy [.int 64 (-1), .inst ⟨0⟩, .int 32 1, .arg 1] ∧
    ∃ code s' x p i, Yields (recordsScope.instCode ⟨1⟩) {} code s' ∧
      recordsScope.form? s'.supply (.inst ⟨1⟩) = some (.ofVar x) ∧
      recordsScope.form? s'.supply (.arg 0) = some (.ofVar p) ∧
      recordsScope.form? s'.supply (.arg 1) = some (.ofVar i) ∧
      Computes s'.supply 0 s'.supply.size code x fun σ => σ p + (10 * σ i - 30) := by
  have haddress : recordsScope.Addresses ⟨1⟩ (.arg 0) recordsTy
      [.int 64 (-1), .inst ⟨0⟩, .int 32 1, .arg 1] := ⟨rfl, rfl, rfl, by decide⟩
  obtain ⟨hexact, htotal⟩ := instCode_address_exact haddress (by decide) (by decide)
  obtain ⟨code, s', hcode⟩ := htotal (.inr rfl) {}
  obtain ⟨x, e, hx, hp, hcomputes⟩ := hexact {} code s' s'.supply hcode (.refl _)
  obtain ⟨p, -, rfl⟩ := Option.map_eq_some_iff.1 hp
  obtain ⟨i, hi⟩ : ∃ i, recordsScope.form? s'.supply (.arg 1) = some (.ofVar i) := by
    cases hcode
    exact ⟨_, rfl⟩
  refine ⟨haddress, code, s', x, p, i, hcode, hx, hp, hi, ?_⟩
  have hdistance : ∀ σ : Valuation, (AffineForm.ofVar p).eval σ +
      recordsScope.program.layout.addressOffset (recordsScope.count s'.supply σ) recordsTy
        ([.int 64 (-1), .inst ⟨0⟩, .int 32 1, .arg 1].map recordsScope.beneathExtension) =
      σ p + (10 * σ i - 30) := by
    intro σ
    have hindex : recordsScope.count s'.supply σ (.arg 1) = σ i := by
      rw [count_of_form? rfl hi, AffineForm.eval_ofVar]
    show _ + (-1 * 32 + (recordsScope.count s'.supply σ (.arg 1) * 8 +
      (2 + (recordsScope.count s'.supply σ (.arg 1) * 2 + 0)))) = _
    rw [hindex, AffineForm.eval_ofVar]
    omega
  simp only [hdistance] at hcomputes
  exact hcomputes

/-- Arrays of one array of one array of almost all bytes that 64 bits can number. -/
def wideTy : Ty := .array (.array (.array (.int 8) 18446744073709551615) 1) 1

/-- Far down and further, and then back again. -/
def wideIndices : List Value := [.int 64 (-9223372036854775808), .int 64 (-1), .int 64 1]

def wideScope : Scope :=
  pointerScope [
    (some "q", .ptr, .address (.arg 0) wideTy wideIndices),
    (some "v", .int 32, .load (.inst ⟨0⟩))]

/-- An address that steps over as many elements as an extension of the address itself says. -/
def selfScope : Scope :=
  pointerScope [
    (some "e", .int 64, .cast .zext (.inst ⟨1⟩)),
    (some "q", .ptr, .address (.arg 0) (.int 32) [.inst ⟨0⟩]),
    (some "v", .int 32, .load (.inst ⟨1⟩))]

/-- It is not enough that the constant offsets fit in 128 bits together: where those of the first
two indices do not, the result is forgotten. And it is not enough that the result is no operand:
where an index is an extension of it, the result is read after it has been written to. -/
theorem instCode_address_inexact :
    (wideScope.Addresses ⟨0⟩ (.arg 0) wideTy wideIndices ∧ .inst ⟨0⟩ ∉ .arg 0 :: wideIndices ∧
      (fit128 (wideScope.program.layout.addressConstants wideTy
        (wideIndices.map wideScope.beneathExtension)).sum).isSome ∧
      ∃ code s' x p σ τ, Yields (wideScope.instCode ⟨0⟩) {} code s' ∧
        wideScope.form? s'.supply (.inst ⟨0⟩) = some (.ofVar x) ∧
        wideScope.form? s'.supply (.arg 0) = some p ∧ RunAll code σ τ ∧
        τ x ≠ p.eval σ + wideScope.program.layout.addressOffset (wideScope.count s'.supply σ) wideTy
          (wideIndices.map wideScope.beneathExtension)) ∧
    selfScope.Addresses ⟨1⟩ (.arg 0) (.int 32) [.inst ⟨0⟩] ∧
      .inst ⟨1⟩ ∉ [Value.arg 0, .inst ⟨0⟩] ∧
      AddUp128 (selfScope.program.layout.addressConstants (.int 32)
        ([.inst ⟨0⟩].map selfScope.beneathExtension)) ∧
      ∃ code s' x p σ τ, Yields (selfScope.instCode ⟨1⟩) {} code s' ∧
        selfScope.form? s'.supply (.inst ⟨1⟩) = some (.ofVar x) ∧
        selfScope.form? s'.supply (.arg 0) = some p ∧ RunAll code σ τ ∧
        τ x ≠ p.eval σ + selfScope.program.layout.addressOffset (selfScope.count s'.supply σ)
          (.int 32) ([.inst ⟨0⟩].map selfScope.beneathExtension) := by
  refine ⟨⟨⟨rfl, rfl, rfl, by decide⟩, by decide, by decide, ?_⟩,
    ⟨rfl, rfl, rfl, by decide⟩, by decide, by decide, ?_⟩
  · refine ⟨_, _, _, _, fun _ => 0, _, rfl, rfl, rfl, runAll_singleton_iff.2 (.havoc 0), ?_⟩
    decide
  · refine ⟨_, _, _, _, fun y => y.id, _, rfl, rfl, rfl,
      .cons .assign (.cons (.arith rfl) (.cons (.arith rfl) .nil)), ?_⟩
    decide

end Scope

end AffineFlow
