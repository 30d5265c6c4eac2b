import AffineFlow.Proofs.Execution.Graph
import AffineFlow.Proofs.Execution.Source
import AffineFlow.Proofs.Supply.Lowering

/-!
# Variables and the values that they show

In a numeric function a value is hidden, a literal, or has a variable. Where the
variables agree with a run, the form of an operand has the value that somebody
sees to whom the comparisons are frozen: comparisons are never written, so their
variables keep what they hold at the start.
-/
namespace AffineFlow

open Ssa Lowering

namespace Scope

variable {sc : Scope} {F : VarSupply} {s s' : Session} {v : Value} {e? : Option AffineForm}
  {κ : InstId → Int} {α : Nat → Int} {ρ : Env} {σ : Valuation}

theorem typeOf_of_isNumber (hv : sc.isNumber v = true) :
    ∃ ty, sc.typeOf v = .ok ty ∧ ty.isInt = true := by
  have htype := (Bool.and_eq_true_iff.1 hv).1
  split at htype
  next ty hty => exact ⟨ty, hty, htype⟩
  next => cases htype

theorem typeOf_inst {id : InstId} {inst : Inst} (hbody : sc.func.body = some sc.body)
    (hinst : sc.body.inst? id = some inst) : sc.typeOf (.inst id) = .ok inst.ty := by
  simp [typeOf, Function.typeOf, hbody, hinst, Except.mapError]

theorem tracks_of_typeOf {ty : Ty} (hty : sc.typeOf v = .ok ty) (hint : ty.isInt = true) :
    sc.tracks v = .ok (!sc.hidden v) := by
  have htracked : sc.tracksType ty = true := by
    unfold Ty.isInt at hint
    split at hint
    next => rfl
    next => cases hint
  rw [tracks, hty, hidden]
  cases v.isUndef || sc.isShadow v with
  | true => rfl
  | false => exact congrArg Except.ok htracked

theorem tracks_of_isNumber (hv : sc.isNumber v = true) : sc.tracks v = .ok (!sc.hidden v) := by
  obtain ⟨ty, hty, hint⟩ := typeOf_of_isNumber hv
  exact tracks_of_typeOf hty hint

theorem hasIntType_of_isNumber (hv : sc.isNumber v = true) : sc.hasIntType v = .ok true := by
  obtain ⟨ty, hty, hint⟩ := typeOf_of_isNumber hv
  rw [hasIntType, hty]
  exact congrArg Except.ok hint

/-- The form of an operand: none if it is hidden, else the literal or the variable. -/
def Expresses (sc : Scope) (F : VarSupply) (v : Value) (e? : Option AffineForm) : Prop :=
  if sc.hidden v then e? = none
  else
    match v with
    | .int bits n => e? = some (.const (literalValue bits n))
    | _ => ∃ x, e? = some (.ofVar x) ∧ sc.Denotes F v x

theorem express_spec (hv : sc.isNumber v = true) (h : Yields (sc.express v) s e? s')
    (hF : s'.supply.Extends F) : sc.Expresses F v e? := by
  have hvalue : ∀ s, Yields (do
      if ← Lowering.ofExcept (sc.tracks v) then return some (.ofVar (← sc.variableOf v))
      else return none) s e? s' → v.toInt? = none → sc.Expresses F v e? := by
    intro s h hliteral
    simp only [yields_bind, yields_ofExcept, tracks_of_isNumber hv] at h
    obtain ⟨b, _, ⟨hb, rfl⟩, h⟩ := h
    obtain rfl := Except.ok.inj hb
    unfold Expresses
    cases hhidden : sc.hidden v with
    | true =>
        rw [hhidden] at h
        exact (yields_pure.1 h).1
    | false =>
        rw [hhidden] at h
        simp only [Bool.not_false, if_true, yields_bind, yields_pure] at h
        obtain ⟨x, _, hx, rfl, rfl⟩ := h
        have hdenotes := (variableOf_spec hx hF).2
        cases v with
        | int bits n => cases hliteral
        | inst id => exact ⟨x, rfl, hdenotes⟩
        | arg i => exact ⟨x, rfl, hdenotes⟩
        | global id => exact ⟨x, rfl, hdenotes⟩
        | func id => exact ⟨x, rfl, hdenotes⟩
        | null => exact ⟨x, rfl, hdenotes⟩
        | undef bits => exact ⟨x, rfl, hdenotes⟩
  cases v with
  | int bits n =>
      have hfit : (fit64 n).isSome := (Bool.and_eq_true_iff.1 hv).2
      have hshown : sc.hidden (.int bits n) = false := rfl
      have hform : e? = some (.const (literalValue bits n)) := by
        simp only [express] at h
        unfold literalValue
        unfold fit64 at h hfit
        split at h
        next hb => rw [if_pos hb, (yields_pure.1 h).1]
        next hb =>
          rw [if_neg hb, (yields_pure.1 h).1]
          split at hfit
          next hn => rw [if_pos hn]; rfl
          next => cases hfit
      rw [Expresses, hshown]
      exact hform
  | null => cases hv
  | undef bits => exact (yields_pure.1 h).1
  | inst id => exact hvalue s h rfl
  | arg i => exact hvalue s h rfl
  | global id => exact hvalue s h rfl
  | func id => exact hvalue s h rfl

/-- Only an instruction stands for what it stands for. -/
theorem value_of_referent? {id : InstId}
    (h : sc.referent? v = some (.value sc.funcId (.inst id))) : v = .inst id := by
  cases v with
  | inst id' => exact (Referent.value.inj (Option.some.inj h)).2
  | arg i => cases (Referent.value.inj (Option.some.inj h)).2
  | global g => cases Option.some.inj h
  | func f => cases Option.some.inj h
  | int bits n => cases h
  | null => cases h
  | undef bits => cases h

theorem Expresses.shown {e : AffineForm} (he : sc.Expresses F v (some e)) :
    sc.hidden v = false := by
  cases hhidden : sc.hidden v with
  | false => rfl
  | true =>
      unfold Expresses at he
      rw [if_pos hhidden] at he
      cases he

theorem Expresses.unique {e?' : Option AffineForm} (he : sc.Expresses F v e?)
    (he' : sc.Expresses F v e?') : e? = e?' := by
  have hvariable : (∃ x, e? = some (.ofVar x) ∧ sc.Denotes F v x) →
      (∃ x, e?' = some (.ofVar x) ∧ sc.Denotes F v x) → e? = e?' := by
    rintro ⟨x, rfl, r, hr, hx⟩ ⟨y, rfl, r', hr', hy⟩
    obtain rfl := Option.some.inj (hr.symm.trans hr')
    rw [Option.some.inj (hx.symm.trans hy)]
  unfold Expresses at he he'
  cases hhidden : sc.hidden v with
  | true =>
      rw [hhidden] at he he'
      exact Eq.trans he (Eq.symm he')
  | false =>
      rw [hhidden] at he he'
      cases v with
      | int bits n => exact Eq.trans he (Eq.symm he')
      | inst id => exact hvariable he he'
      | arg i => exact hvariable he he'
      | global id => exact hvariable he he'
      | func id => exact hvariable he he'
      | null => exact hvariable he he'
      | undef bits => exact hvariable he he'

/-- The variables that stand for something are the same; temporaries do not matter. -/
def SameFor (F : VarSupply) (σ τ : Valuation) : Prop := ∀ r x, F.find? r = some x → τ x = σ x

/-- Variables that stand for something can be given any values; the others stay as they are. -/
theorem exists_valuation (F : VarSupply) (σ : Valuation) (value : Referent → Option Int) :
    ∃ τ : Valuation, (∀ r x n, F.find? r = some x → value r = some n → τ x = n) ∧
      ∀ x, (∀ r, F.find? r = some x → value r = none) → τ x = σ x := by
  classical
  let Given (x : Var) (p : Referent × Int) : Prop := F.find? p.1 = some x ∧ value p.1 = some p.2
  refine ⟨fun x => if h : ∃ p, Given x p then h.choose.2 else σ x, ?_, ?_⟩
  · intro r x n hx hn
    have hgiven : ∃ p, Given x p := ⟨(r, n), hx, hn⟩
    obtain ⟨hfind, hvalue⟩ := hgiven.choose_spec
    have hsame := VarSupply.find?_injective hfind hx
    rw [hsame] at hvalue
    exact (dif_pos hgiven).trans (Option.some.inj (hvalue.symm.trans hn))
  · intro x hx
    apply dif_neg
    intro hpair
    obtain ⟨p, hfind, hvalue⟩ := hpair
    cases (hx p.1 hfind).symm.trans hvalue

/-- The variables show the values of the instructions that have been executed. Comparisons are
left out. -/
def Shows (sc : Scope) (F : VarSupply) (ρ : Env) (σ : Valuation) : Prop :=
  ∀ id n, sc.body.isComparison id = false → sc.hidden (.inst id) = false → ρ id = some n →
    ∃ x, F.find? (.value sc.funcId (.inst id)) = some x ∧ σ x = n

/-- The variables hold the values `κ` of the comparisons and the arguments `α`. -/
structure Holds (sc : Scope) (F : VarSupply) (κ : InstId → Int) (α : Nat → Int)
    (σ : Valuation) : Prop where
  comparison : ∀ id x, sc.body.isComparison id = true →
    F.find? (.value sc.funcId (.inst id)) = some x → σ x = κ id
  arg : ∀ i x, F.find? (.value sc.funcId (.arg i)) = some x → σ x = α i

/-- The operand has been executed, if it is an instruction. -/
def Defined (ρ : Env) (v : Value) : Prop := ∀ id, v = .inst id → (ρ id).isSome

theorem defined_of_reads {n : Int} (h : v.Reads α ρ n) : Defined ρ v := by
  rintro id rfl
  exact Option.isSome_iff_exists.2 ⟨n, h⟩

/-- The form of an operand has the value that is seen where the comparisons are frozen. -/
theorem Expresses.eval (he : sc.Expresses F v e?) (hv : sc.isNumber v = true)
    (hdefined : Defined ρ v) (hshows : sc.Shows F ρ σ) (hholds : sc.Holds F κ α σ) :
    e?.map (·.eval σ) = sc.frozen κ α ρ v := by
  unfold Expresses at he
  unfold frozen
  cases hhidden : sc.hidden v with
  | true =>
      rw [hhidden] at he
      rw [show e? = none from he]
      rfl
  | false =>
      rw [hhidden] at he
      cases v with
      | int bits n =>
          rw [show e? = _ from he]
          exact congrArg some (AffineForm.eval_const σ _)
      | null => cases hv
      | global id => cases hv
      | func id => cases hv
      | undef bits => cases hhidden
      | arg i =>
          obtain ⟨x, rfl, r, hr, hfind⟩ := he
          obtain rfl := Option.some.inj hr
          rw [Option.map_some, AffineForm.eval_ofVar, hholds.arg i x hfind]
          rfl
      | inst id =>
          obtain ⟨x, rfl, r, hr, hfind⟩ := he
          obtain rfl := Option.some.inj hr
          rw [Option.map_some, AffineForm.eval_ofVar]
          cases hc : sc.body.isComparison id with
          | true => simp [hholds.comparison id x hc hfind, hc]
          | false =>
              obtain ⟨n, hn⟩ := Option.isSome_iff_exists.1 (hdefined id rfl)
              obtain ⟨y, hy, rfl⟩ := hshows id n hc hhidden hn
              obtain rfl := Option.some.inj (hfind.symm.trans hy)
              simp [hc, hn]

end Scope

end AffineFlow
