import AffineFlow.Lowering.Code
import AffineFlow.Proofs.Acceptance.WellFormed

/-!
# Instructions that cannot be lowered

In a well-formed function, most instructions are lowered from every session.
There are two exceptions. An address computation is rejected if it is translated
and its indices do not fit its type. A load is lowered to a read of a cell
without a look at the name of its result; where that name hides the result, the
variable that is asked for does not exist.
-/
namespace AffineFlow

open Ssa Lowering

namespace Scope

variable {sc : Scope} {v : Value} {id : InstId}

theorem variableOf_safe (htracked : sc.tracks v = .ok true) (hv : v.isLiteral = false) :
    Safe (sc.variableOf v) := by
  refine .ask htracked ?_
  cases v with
  | inst id => exact .request _ _
  | arg index => exact .request _ _
  | global id => exact .request _ _
  | func id => exact .request _ _
  | int bits n => cases hv
  | null => cases hv
  | undef bits => cases hv

/-- The value has an affine form. -/
def isExpressible (sc : Scope) (v : Value) : Bool :=
  match v with
  | .int bits n => bits == 1 || (fit64 n).isSome
  | .null => sc.modelsMemory
  | .undef _ => false
  | _ => isYes (sc.tracks v)

/-- Of the literals, only integers can be conditions that are integers and tracked. -/
theorem not_literal_of_integer (hinteger : sc.isInteger v = true) (hv : v.toInt? = none)
    (htracked : sc.tracks v = .ok true) : v.isLiteral = false := by
  cases v with
  | int bits n => cases hv
  | null => cases hasIntType_of_isInteger hinteger
  | undef bits => cases htracked
  | _ => rfl

theorem not_literal_of_kind? {kind : InstKind} (hkind : sc.body.kind? v = some kind) :
    v.isLiteral = false := by
  cases v with
  | inst id => rfl
  | _ => cases hkind

/-- Only what is not a literal is looked up, so whether it is tracked is all that has to be
known. -/
theorem express_settles_of_answered (hv : Answered (sc.tracks v)) :
    Settles (fun e? => e?.isSome = sc.isExpressible v) none (sc.express v) := by
  have asked : v.isLiteral = false →
      Settles (fun e? => e?.isSome = isYes (sc.tracks v)) none (do
        if ← Lowering.ofExcept (sc.tracks v) then
          return some (AffineForm.ofVar (← sc.variableOf v))
        else return none) := by
    intro hliteral
    obtain ⟨tracked, htracked⟩ := hv
    rw [isYes_of_eq htracked]
    refine .ask htracked ?_
    cases tracked with
    | true => exact (variableOf_safe htracked hliteral).andThen fun x => .pure rfl
    | false => exact .pure rfl
  cases v with
  | int bits n =>
      simp only [express, isExpressible]
      split
      next hb => exact .pure (by simp [hb])
      next hb => exact .pure (by simp [hb])
  | null =>
      refine .pure ?_
      show (if sc.modelsMemory = true then _ else _ : Option AffineForm).isSome = sc.modelsMemory
      cases sc.modelsMemory <;> rfl
  | undef bits => exact .pure rfl
  | inst id => exact asked rfl
  | arg index => exact asked rfl
  | global id => exact asked rfl
  | func id => exact asked rfl

theorem express_settles (hbody : sc.func.body = some sc.body) (hv : sc.isLive v = true) :
    Settles (fun e? => e?.isSome = sc.isExpressible v) none (sc.express v) :=
  express_settles_of_answered (tracks_answered hbody hv)

theorem answered_of_isExpressible (hv : sc.isExpressible v = true) : Answered (sc.tracks v) := by
  have asked : isYes (sc.tracks v) = true → Answered (sc.tracks v) := fun h => ⟨_, isYes_iff.1 h⟩
  cases v with
  | int bits n => exact ⟨_, rfl⟩
  | null => exact ⟨_, rfl⟩
  | undef bits => cases hv
  | inst id => exact asked hv
  | arg i => exact asked hv
  | global id => exact asked hv
  | func id => exact asked hv

/-- The comparison that is asked about is the instruction. -/
theorem kind?_of_comparison? {pred : Predicate} {a b : Value}
    (h : sc.comparison? v = .ok (some (pred, a, b))) :
    sc.body.kind? v = some (.compare pred a b) := by
  unfold comparison? at h
  split at h
  next q u w hkind =>
    cases hint : sc.hasIntType v with
    | error f =>
        rw [hint] at h
        cases h
    | ok int =>
        rw [hint] at h
        cases int with
        | true =>
            cases h
            exact hkind
        | false => cases h
  next => cases h

theorem comparisonConstraints_safe_of_answered {a b : Value} (pred : Predicate) (negated : Bool)
    (ha : Answered (sc.tracks a)) (hb : Answered (sc.tracks b)) :
    Safe (sc.comparisonConstraints pred a b negated) := by
  have hboth : Answered (sc.tracks (orient pred a b).2.1) ∧
      Answered (sc.tracks (orient pred a b).2.2) := by
    unfold orient
    split <;> simp [ha, hb]
  refine (express_settles_of_answered hboth.1).safe.bind fun x => ?_
  refine (express_settles_of_answered hboth.2).safe.bind fun y => ?_
  split
  · exact .pure _
  · exact .pure _

theorem ruleCode_safe (op : BinaryOp) (dst : Var) (a b : AffineForm) :
    Safe (sc.ruleCode op dst a b) := by
  unfold ruleCode
  split
  · unfold arithCode
    split
    · exact (Safe.tell _).bind fun _ => .pure _
    · split
      · exact .pure _
      · exact .pure _
  · unfold shiftCode
    split
    · exact .pure _
    · split
      · exact .pure _
      · exact (Safe.tell _).bind fun _ => .pure _
  · exact .pure _
  · exact .pure _

theorem binaryCode_safe_of_answered {a b : Value} (op : BinaryOp)
    (hid : Answered (sc.tracks (.inst id))) (ha : Answered (sc.tracks a))
    (hb : Answered (sc.tracks b)) : Safe (sc.binaryCode id op a b) := by
  obtain ⟨tracked, htracked⟩ := hid
  refine .onlyIf htracked fun ht => ?_
  subst ht
  refine (variableOf_safe htracked rfl).bind fun dst => ?_
  split
  · exact .pure _
  · refine (express_settles_of_answered ha).safe.bind fun x =>
      (express_settles_of_answered hb).safe.bind fun y => ?_
    split
    · exact ruleCode_safe _ _ _ _
    · exact .pure _

section Selections

theorem tracks_answered_of_integer (hinteger : sc.isInteger v = true) :
    Answered (sc.tracks v) := by
  refine .ite (.ok _) ?_
  cases hty : sc.typeOf v with
  | ok ty => exact .ok _
  | error f =>
      have hint := hasIntType_of_isInteger hinteger
      rw [hasIntType, hty] at hint
      cases hint

/-- The operands of a comparison that the value may be are known to be tracked or not. -/
def HasKnownOperands (sc : Scope) (v : Value) : Prop :=
  ∀ pred a b, sc.body.kind? v = some (.compare pred a b) →
    Answered (sc.tracks a) ∧ Answered (sc.tracks b)

theorem guardConstraint?_safe_of_answered (hoperands : sc.HasKnownOperands v) :
    Safe (sc.guardConstraint? v) := by
  unfold guardConstraint?
  split
  next pred a b hkind =>
    obtain ⟨ha, hb⟩ := hoperands pred a b hkind
    refine (comparisonConstraints_safe_of_answered pred false ha hb).bind fun constraints => ?_
    split
    · exact .pure _
    · exact .pure _
  next => exact .pure _

theorem chooseCode_safe_of_answered {dst : Var} {x y : AffineForm}
    (hinteger : sc.isInteger v = true) (hoperands : sc.HasKnownOperands v) :
    Safe (sc.chooseCode dst v x y) := by
  unfold chooseCode
  split
  next => exact .pure _
  next hnone =>
    refine (guardConstraint?_safe_of_answered hoperands).bind fun guard => ?_
    split
    · exact .pure _
    · obtain ⟨tracked, htracked⟩ := tracks_answered_of_integer hinteger
      refine .ask htracked ?_
      cases tracked with
      | true =>
          have hliteral := not_literal_of_integer hinteger hnone htracked
          exact (variableOf_safe htracked hliteral).bind fun _ => .pure _
      | false => exact .pure _

theorem selectCode_safe_of_answered {cond a b : Value} (hid : Answered (sc.isSelectWanted id a b))
    (ha : Answered (sc.tracks a)) (hb : Answered (sc.tracks b))
    (hinteger : sc.isInteger cond = true) (hoperands : sc.HasKnownOperands cond) :
    Safe (sc.selectCode id cond a b) := by
  obtain ⟨wanted, hwanted⟩ := hid
  refine .onlyIf hwanted fun h => ?_
  subst h
  refine (variableOf_safe (yes_of_both hwanted).1 rfl).bind fun dst => ?_
  refine (express_settles_of_answered ha).safe.bind fun x =>
    (express_settles_of_answered hb).safe.bind fun y => ?_
  split
  · exact chooseCode_safe_of_answered hinteger hoperands
  · exact .pure _

end Selections

namespace WellFormed

variable (hw : sc.WellFormed)
include hw

theorem express_settles (hv : sc.isLive v = true) :
    Settles (fun e? => e?.isSome = sc.isExpressible v) none (sc.express v) :=
  Scope.express_settles hw.body_eq hv

theorem express_safe (hv : sc.isLive v = true) : Safe (sc.express v) := (hw.express_settles hv).safe

/-- Code that starts with the variable of a value, where that is tracked. -/
theorem onTracked_safe {code : Var → Lowering (List Stmt)} (hv : sc.isLive v = true)
    (hliteral : sc.tracks v = .ok true → v.isLiteral = false) (hcode : ∀ x, Safe (code x)) :
    Safe (onlyIf (sc.tracks v) (sc.variableOf v >>= code)) := by
  obtain ⟨tracked, htracked⟩ := hw.tracks_answered hv
  refine .onlyIf htracked fun ht => ?_
  subst ht
  exact (variableOf_safe htracked (hliteral htracked)).bind hcode

theorem forgetResult_safe (hid : sc.isLive (.inst id) = true) : Safe (sc.forgetResult id) :=
  hw.onTracked_safe hid (fun _ => rfl) fun _ => .pure _

theorem binaryCode_safe {op : BinaryOp} {a b : Value} (hid : sc.isLive (.inst id) = true)
    (ha : sc.isLive a = true) (hb : sc.isLive b = true) : Safe (sc.binaryCode id op a b) :=
  binaryCode_safe_of_answered op (hw.tracks_answered hid) (hw.tracks_answered ha)
    (hw.tracks_answered hb)

section Conditions

theorem comparisonConstraints_safe {pred : Predicate} {a b : Value} {negated : Bool}
    (ha : sc.isLive a = true) (hb : sc.isLive b = true) :
    Safe (sc.comparisonConstraints pred a b negated) :=
  comparisonConstraints_safe_of_answered pred negated (hw.tracks_answered ha)
    (hw.tracks_answered hb)

theorem pinTracked_safe {negated : Bool} (hv : sc.isLive v = true)
    (hliteral : sc.tracks v = .ok true → v.isLiteral = false) : Safe (sc.pinTracked v negated) :=
  hw.onTracked_safe hv hliteral fun _ => .pure _

theorem comparisonAssumptions_safe {pred : Predicate} {a b : Value} {negated : Bool}
    (hv : sc.isLive v = true) (hkind : sc.body.kind? v = some (.compare pred a b)) :
    Safe (sc.comparisonAssumptions v pred a b negated) := by
  obtain ⟨ha, hb⟩ : sc.isLive a = true ∧ sc.isLive b = true := by
    simpa [InstKind.operands] using hw.live_of_kind? hkind
  obtain ⟨flow, hflow⟩ := hw.operandsFlow_answered ha hb
  refine .onlyIf hflow fun _ => (hw.comparisonConstraints_safe ha hb).bind fun constraints => ?_
  exact .ite_bind (hw.pinTracked_safe hv fun _ => not_literal_of_kind? hkind) (.pure _) fun _ =>
    .pure _

theorem live_of_comparison? {pred : Predicate} {a b : Value}
    (h : sc.comparison? v = .ok (some (pred, a, b))) :
    sc.isLive a = true ∧ sc.isLive b = true := by
  simpa [InstKind.operands] using hw.live_of_kind? (kind?_of_comparison? h)

theorem bothAssumptions_safe {a b : Value} {negated : Bool} (ha : sc.isLive a = true)
    (hb : sc.isLive b = true) : Safe (sc.bothAssumptions a b negated) := by
  obtain ⟨first, hfirst⟩ := hw.comparison?_answered ha
  obtain ⟨second, hsecond⟩ := hw.comparison?_answered hb
  refine .ask hfirst (.ask hsecond ?_)
  split
  next =>
    obtain ⟨h₁, h₂⟩ := hw.live_of_comparison? hfirst
    obtain ⟨h₃, h₄⟩ := hw.live_of_comparison? hsecond
    exact (hw.comparisonConstraints_safe h₁ h₂).bind fun _ =>
      (hw.comparisonConstraints_safe h₃ h₄).bind fun _ => .pure _
  next => exact .pure _

theorem connectiveAssumptions_safe {op : BinaryOp} {a b : Value} {negated : Bool}
    (hv : sc.isLive v = true) (hkind : sc.body.kind? v = some (.binary op a b)) :
    Safe (sc.connectiveAssumptions v op a b negated) := by
  obtain ⟨ha, hb⟩ : sc.isLive a = true ∧ sc.isLive b = true := by
    simpa [InstKind.operands] using hw.live_of_kind? hkind
  unfold connectiveAssumptions
  split
  · exact hw.bothAssumptions_safe ha hb
  · exact hw.bothAssumptions_safe ha hb
  · exact .pure _
  · exact .pure _
  · split
    · exact hw.onTracked_safe hv (fun _ => not_literal_of_kind? hkind) fun _ => .pure _
    · exact .pure _

theorem assumptions_safe {negated : Bool} (hv : sc.isLive v = true)
    (hinteger : sc.isInteger v = true) : Safe (sc.assumptions v negated) := by
  unfold assumptions
  split
  next => exact .pure _
  next hnone =>
    split
    next hkind => exact hw.comparisonAssumptions_safe hv hkind
    next hkind => exact hw.connectiveAssumptions_safe hv hkind
    next => exact hw.pinTracked_safe hv (not_literal_of_integer hinteger hnone)

end Conditions

section Selections

theorem castCode_safe {ty : Ty} {op : CastOp} (hid : sc.isLive (.inst id) = true)
    (hv : sc.isLive v = true) : Safe (sc.castCode id ty op v) := by
  unfold castCode
  split
  · exact .pure _
  · obtain ⟨wanted, hwanted⟩ := hw.isCastWanted_answered ty hid
    refine .onlyIf hwanted fun h => ?_
    subst h
    refine (variableOf_safe (yes_of_both hwanted).1 rfl).bind fun dst => ?_
    refine (hw.express_safe hv).bind fun src => ?_
    split
    · exact .pure _
    · obtain ⟨ty', hty⟩ := hw.typeOf_answered hv
      refine .ask hty ?_
      split
      · exact .pure _
      · exact .pure _

theorem selectCode_safe {cond a b : Value} (hid : sc.isLive (.inst id) = true)
    (ha : sc.isLive a = true) (hb : sc.isLive b = true) (hinteger : sc.isInteger cond = true) :
    Safe (sc.selectCode id cond a b) := by
  refine selectCode_safe_of_answered (hw.isSelectWanted_answered hid ha hb)
    (hw.tracks_answered ha) (hw.tracks_answered hb) hinteger fun pred u w hkind => ?_
  obtain ⟨hu, hv⟩ : sc.isLive u = true ∧ sc.isLive w = true := by
    simpa [InstKind.operands] using hw.live_of_kind? hkind
  exact ⟨hw.tracks_answered hu, hw.tracks_answered hv⟩

end Selections

section Memory

theorem objectVariable?_safe (c : Cell) : Safe (sc.objectVariable? c) := by
  unfold objectVariable?
  split
  next => exact .pure _
  next object hobject =>
    split
    next => exact .pure _
    next hliteral =>
      obtain ⟨tracked, htracked⟩ := hw.tracks_answered (hw.objects_live c object hobject)
      refine .ask htracked ?_
      cases tracked with
      | true =>
          exact (variableOf_safe htracked (Bool.eq_false_iff.2 hliteral)).bind fun _ => .pure _
      | false => exact .pure _

theorem readCode_safe {dst : Var} {c : Cell} {index : AffineForm} {size : Nat} :
    Safe (sc.readCode dst c index size) := by
  refine (hw.objectVariable?_safe c).bind fun object => ?_
  split
  · exact .pure _
  · exact (cellVariable_safe c).bind fun _ => .pure _

theorem writeCode_safe {c : Cell} {index value : AffineForm} {size : Nat} :
    Safe (sc.writeCode c index value size) := by
  refine (hw.objectVariable?_safe c).bind fun object => ?_
  split
  · exact .pure _
  · exact (cellVariable_safe c).bind fun _ => .pure _

theorem storeCode_safe {value ptr : Value} (hvalue : sc.isLive value = true)
    (hptr : sc.isLive ptr = true) : Safe (sc.storeCode value ptr) := by
  obtain ⟨ty, hty⟩ := hw.typeOf_answered hvalue
  refine .ask hty ?_
  split
  · split
    · exact .pure _
    · refine (hw.express_safe hptr).bind fun index => (hw.express_safe hvalue).bind fun stored => ?_
      split
      · exact hw.writeCode_safe
      · exact .pure _
  · exact .pure _

omit hw in
theorem zeroedCode_safe (c? : Option Cell) : Safe (zeroedCode c?) := by
  unfold zeroedCode
  split
  · exact (cellVariable_safe _).bind fun _ => .pure _
  · exact .pure _

omit hw in
theorem allocaCode_safe (id : InstId) : Safe (sc.allocaCode id) := by
  unfold allocaCode
  split
  · exact zeroedCode_safe _
  · exact .pure _

end Memory

end WellFormed

end Scope

end AffineFlow
