import AffineFlow.Lowering.Code
import AffineFlow.Proofs.Renaming.Uniform

/-!
# Instructions lower alike

From supplies that have grown alike, every instruction and every condition is
lowered alike. Decisions depend on the source, on the oracle and on forms only
through what renaming does not change, so both runs go the same way. There is
one fact for each function, in the order in which they call each other.
-/
namespace AffineFlow

open Ssa Lowering

variable {s₀ t₀ : VarSupply} {W : World s₀ t₀}

namespace Alike

variable {x y : Var} {a a' b b' : AffineForm} {c c' : Constraint}

theorem assign (hx : Alike W x y) (ha : Alike W a a') :
    Alike W (Stmt.assign x a) (.assign y a') :=
  hx.map₂ (fun _ _ _ _ => rfl) ha

theorem havoc (hx : Alike W x y) : Alike W (Stmt.havoc x) (.havoc y) := hx.map fun _ _ _ => rfl

theorem assume (hc : Alike W c c') : Alike W (Stmt.assume c) (.assume c') :=
  hc.map fun _ _ _ => rfl

theorem arith (op : ArithOp) (hx : Alike W x y) (ha : Alike W a a') (hb : Alike W b b') :
    Alike W (Stmt.arith op x a b) (.arith op y a' b') := by
  intro π hπ
  rw [hx π hπ, ha π hπ, hb π hπ]
  rfl

theorem assumeArray (hx : Alike W x y) (n : Int) :
    Alike W (Stmt.assumeArray x n) (.assumeArray y n) :=
  hx.map (f := fun v => Stmt.assumeArray v n) fun _ _ _ => rfl

theorem typed (hx : Alike W x y) (type : VarType) :
    Alike W ((x, type) : TypedVar) (y, type) :=
  hx.pair (.refl type)

theorem eq (ha : Alike W a a') (hb : Alike W b b') :
    Alike W (Constraint.eq a b) (.eq a' b') :=
  ha.map₂ (fun π _ => Constraint.rename_eq π) hb

theorem ne (ha : Alike W a a') (hb : Alike W b b') :
    Alike W (Constraint.ne a b) (.ne a' b') :=
  ha.map₂ (fun π _ => Constraint.rename_ne π) hb

theorem le (ha : Alike W a a') (hb : Alike W b b') :
    Alike W (Constraint.le a b) (.le a' b') :=
  ha.map₂ (fun π _ => Constraint.rename_le π) hb

theorem ge (ha : Alike W a a') (hb : Alike W b b') : Alike W (Constraint.ge a b) (.ge a' b') :=
  hb.le ha

theorem addConst (ha : Alike W a a') (c : Int) : Alike W (a.addConst c) (a'.addConst c) :=
  ha.map fun π _ e => AffineForm.rename_addConst π e c

/-- A list of constraints becomes a list of assumptions. -/
theorem assumes {l m : List Constraint} (h : Alike W l m) :
    Alike W (l.map Stmt.assume) (m.map .assume) := by
  refine h.map fun π _ l => ?_
  induction l with
  | nil => rfl
  | cons c rest ih => exact congrArg _ ih

end Alike

namespace Scope

variable (sc : Scope)

section Values

theorem variableOf_uniform (W : World s₀ t₀) (v : Value) :
    Uniform W (sc.variableOf v) (sc.variableOf v) := by
  refine .ofExcept_bind fun tracked => ?_
  split
  · split
    · exact .request W _ _
    · exact .fault _
  · exact .fault _

theorem functionVariable_uniform (W : World s₀ t₀) (id : FuncId) :
    Uniform W (sc.functionVariable id) (sc.functionVariable id) :=
  .request W _ _

theorem express_uniform (W : World s₀ t₀) (v : Value) :
    Uniform W (sc.express v) (sc.express v) := by
  unfold express
  split
  · split
    · exact .pure (.some (.const _))
    · exact .pure (by cases fit64 _ with
        | none => exact .none
        | some n => exact .some (.const n))
  · split
    · exact .pure (.some (.const 0))
    · exact .pure .none
  · exact .pure .none
  · refine .ofExcept_bind fun tracked => ?_
    split
    · exact (sc.variableOf_uniform W _).bind fun W' x y _ hx => .pure (.some hx.ofVar)
    · exact .pure .none

variable {x y : Var}

theorem forget_alike (hx : Alike W x y) : Alike W (sc.forget x) (sc.forget y) := by
  unfold forget
  split
  · exact .singleton hx.havoc
  · exact .nil

theorem forgetResult_uniform (W : World s₀ t₀) (id : InstId) :
    Uniform W (sc.forgetResult id) (sc.forgetResult id) :=
  .onlyIf ((sc.variableOf_uniform W _).bind fun _ _ _ _ hx => .pure (sc.forget_alike hx))

theorem objectVariable?_uniform (W : World s₀ t₀) (c : Cell) :
    Uniform W (sc.objectVariable? c) (sc.objectVariable? c) := by
  unfold objectVariable?
  split
  · exact .pure .none
  · split
    · exact .pure .none
    · refine .ofExcept_bind fun tracked => ?_
      split
      · exact (sc.variableOf_uniform W _).bind fun _ x y _ hx => .pure (.some hx)
      · exact .pure .none

theorem cellVariables_uniform (W : World s₀ t₀) (cells : List Cell) :
    Uniform W (cellVariables cells) (cellVariables cells) := by
  induction cells generalizing W with
  | nil => exact .pure .nil
  | cons c rest ih =>
      refine (Uniform.cellVariable W c).bind fun W₁ x y _ hx => ?_
      refine (ih W₁).bind fun W₂ l m hle hl => .pure (.cons ?_ hl)
      exact (hx.later hle).typed _

end Values

section Binary

variable {x y : Var} {a a' b b' : AffineForm}

theorem arithCode_uniform (source : BinaryOp) (op : ArithOp) (hx : Alike W x y)
    (ha : Alike W a a') (hb : Alike W b b') :
    Uniform W (sc.arithCode source op x a b) (sc.arithCode source op y a' b') := by
  unfold arithCode
  rw [ha.isConst_eq, hb.isConst_eq]
  split
  · exact .tell_bind (.pure (sc.forget_alike hx))
  · split
    · exact .pure (.cons (hx.assign ha) (.singleton (.arith op hx hx.ofVar hb)))
    · exact .pure (.singleton (.arith op hx ha hb))

theorem shiftCode_uniform (source : BinaryOp) (op : ArithOp) (hx : Alike W x y)
    (ha : Alike W a a') (hb : Alike W b b') :
    Uniform W (sc.shiftCode source op x a b) (sc.shiftCode source op y a' b') := by
  unfold shiftCode
  rw [hb.toConst?_eq]
  split
  · exact .pure (sc.forget_alike hx)
  · split
    · exact .pure (.singleton (.arith op hx ha (.const _)))
    · exact .tell_bind (.pure (sc.forget_alike hx))

theorem ruleCode_uniform (source : BinaryOp) (hx : Alike W x y) (ha : Alike W a a')
    (hb : Alike W b b') : Uniform W (sc.ruleCode source x a b) (sc.ruleCode source y a' b') := by
  unfold ruleCode
  split
  · exact sc.arithCode_uniform source _ hx ha hb
  · exact sc.shiftCode_uniform source _ hx ha hb
  · refine .pure (.singleton fun π hπ => ?_)
    rw [hx π hπ, ha π hπ, hb π hπ]
    rfl
  · exact .pure (sc.forget_alike hx)

theorem binaryCode_uniform (W : World s₀ t₀) (id : InstId) (op : BinaryOp) (a b : Value) :
    Uniform W (sc.binaryCode id op a b) (sc.binaryCode id op a b) := by
  refine .onlyIf ((sc.variableOf_uniform W _).bind fun W₁ x y _ hx => ?_)
  split
  · exact .pure (sc.forget_alike hx)
  · refine (sc.express_uniform W₁ a).bind fun W₂ p p' h₂ hp => ?_
    refine (sc.express_uniform W₂ b).bind fun W₃ q q' h₃ hq => ?_
    have hx := (hx.later h₂).later h₃
    rcases (hp.later h₃).option_cases with ⟨rfl, rfl⟩ | ⟨e, e', rfl, rfl, he⟩
    · exact .pure (sc.forget_alike hx)
    · rcases hq.option_cases with ⟨rfl, rfl⟩ | ⟨f, f', rfl, rfl, hf⟩
      · exact .pure (sc.forget_alike hx)
      · exact sc.ruleCode_uniform op hx he hf

end Binary

section Conditions

variable {x y : Var} {a a' b b' : AffineForm} {c c' : Constraint}

theorem orderConstraint_alike (pred : Predicate) (negated : Bool) (ha : Alike W a a')
    (hb : Alike W b b') :
    Alike W (orderConstraint pred negated a b) (orderConstraint pred negated a' b') := by
  refine ha.map₂ (fun π _ a b => ?_) hb
  unfold orderConstraint
  split <;> simp

theorem signConstraints_alike (pred : Predicate) (ha : Alike W a a') (hb : Alike W b b') :
    Alike W (signConstraints pred a b) (signConstraints pred a' b') := by
  refine ha.map₂ (fun π hπ a b => ?_) hb
  unfold signConstraints
  split
  · rw [List.filter_cons, List.filter_cons, List.filter_cons, List.filter_cons,
      AffineForm.isVar_rename hπ, AffineForm.isVar_rename hπ]
    cases a.isVar <;> cases b.isVar <;> simp
  · rfl

/-- Whether a constraint is trivial does not depend on the names of its variables. -/
theorem assumption_alike (hc : Alike W c c') : Alike W c.assumption c'.assumption := by
  refine hc.map fun π hπ c => ?_
  unfold Constraint.assumption
  rw [Constraint.truth?_rename hπ]
  split <;> rfl

theorem pin_alike (negated : Bool) (hx : Alike W x y) :
    Alike W (pin x negated) (pin y negated) :=
  (hx.ofVar.eq (.const _)).assume

theorem comparisonConstraints_uniform (W : World s₀ t₀) (pred : Predicate) (a b : Value)
    (negated : Bool) : Uniform W (sc.comparisonConstraints pred a b negated)
      (sc.comparisonConstraints pred a b negated) := by
  unfold comparisonConstraints
  refine (sc.express_uniform W _).bind fun W₁ p p' _ hp => ?_
  refine (sc.express_uniform W₁ _).bind fun W₂ q q' h₂ hq => ?_
  rcases (hp.later h₂).option_cases with ⟨rfl, rfl⟩ | ⟨e, e', rfl, rfl, he⟩
  · exact .pure .nil
  · rcases hq.option_cases with ⟨rfl, rfl⟩ | ⟨f, f', rfl, rfl, hf⟩
    · exact .pure .nil
    · exact .pure (.append (signConstraints_alike _ he hf)
        (.singleton (orderConstraint_alike _ negated he hf)))

theorem pinTracked_uniform (W : World s₀ t₀) (cond : Value) (negated : Bool) :
    Uniform W (sc.pinTracked cond negated) (sc.pinTracked cond negated) :=
  .onlyIf ((sc.variableOf_uniform W _).bind fun _ _ _ _ hx =>
    .pure (.singleton (pin_alike negated hx)))

theorem comparisonAssumptions_uniform (W : World s₀ t₀) (cond : Value) (pred : Predicate)
    (a b : Value) (negated : Bool) : Uniform W (sc.comparisonAssumptions cond pred a b negated)
      (sc.comparisonAssumptions cond pred a b negated) := by
  refine .onlyIf ((sc.comparisonConstraints_uniform W _ _ _ _).bind fun W₁ l m _ hl => ?_)
  exact .ite_bind (sc.pinTracked_uniform W₁ _ _) (.pure .nil) fun W₂ p q h₂ hp =>
    .pure (.append (hl.later h₂).assumes hp)

theorem bothAssumptions_uniform (W : World s₀ t₀) (a b : Value) (negated : Bool) :
    Uniform W (sc.bothAssumptions a b negated) (sc.bothAssumptions a b negated) := by
  refine .ofExcept_bind fun first => .ofExcept_bind fun second => ?_
  split
  · refine (sc.comparisonConstraints_uniform W _ _ _ _).bind fun W₁ l l' _ hl => ?_
    refine (sc.comparisonConstraints_uniform W₁ _ _ _ _).bind fun W₂ m m' h₂ hm => ?_
    exact .pure (Alike.assumes (.append (hl.later h₂) hm))
  · exact .pure .nil

theorem connectiveAssumptions_uniform (W : World s₀ t₀) (cond : Value) (op : BinaryOp)
    (a b : Value) (negated : Bool) : Uniform W (sc.connectiveAssumptions cond op a b negated)
      (sc.connectiveAssumptions cond op a b negated) := by
  unfold connectiveAssumptions
  split
  · exact sc.bothAssumptions_uniform W _ _ _
  · exact sc.bothAssumptions_uniform W _ _ _
  · exact .pure .nil
  · exact .pure .nil
  · split
    · exact .onlyIf ((sc.variableOf_uniform W _).bind fun _ _ _ _ hx =>
        .pure (.singleton hx.havoc))
    · exact .pure .nil

theorem assumptions_uniform (W : World s₀ t₀) (cond : Value) (negated : Bool) :
    Uniform W (sc.assumptions cond negated) (sc.assumptions cond negated) := by
  unfold assumptions
  split
  · split
    · exact .pure fun _ _ => rfl
    · exact .pure .nil
  · split
    · exact sc.comparisonAssumptions_uniform W _ _ _ _ _
    · exact sc.connectiveAssumptions_uniform W _ _ _ _ _
    · exact sc.pinTracked_uniform W _ _

end Conditions

section Selections

variable {x y : Var} {a a' b b' : AffineForm}

theorem truthRange_alike (hx : Alike W x y) : Alike W (truthRange x) (truthRange y) :=
  .cons (hx.ofVar.ge (.const 0)).assume (.singleton (hx.ofVar.le (.const 1)).assume)

theorem convertCode_uniform (hx : Alike W x y) (value : Value) :
    Uniform W (sc.convertCode x value) (sc.convertCode y value) := by
  refine (sc.express_uniform W value).bind fun W₁ p p' h₁ hp => ?_
  have hx := hx.later h₁
  rcases hp.option_cases with ⟨rfl, rfl⟩ | ⟨e, e', rfl, rfl, he⟩
  · refine .ofExcept_bind fun ty => ?_
    split
    · exact .pure (truthRange_alike hx)
    · exact .pure (sc.forget_alike hx)
  · exact .pure (.singleton (hx.assign he))

theorem castCode_uniform (W : World s₀ t₀) (id : InstId) (ty : Ty) (op : CastOp)
    (value : Value) : Uniform W (sc.castCode id ty op value) (sc.castCode id ty op value) := by
  unfold castCode
  split
  · exact .pure .nil
  · exact .onlyIf ((sc.variableOf_uniform W _).bind fun W₁ x y _ hx =>
      sc.convertCode_uniform hx value)

theorem guardConstraint?_uniform (W : World s₀ t₀) (cond : Value) :
    Uniform W (sc.guardConstraint? cond) (sc.guardConstraint? cond) := by
  unfold guardConstraint?
  split
  · refine (sc.comparisonConstraints_uniform W _ _ _ _).bind fun W₁ l m _ hl => ?_
    rcases hl.list_cases with ⟨rfl, rfl⟩ | ⟨c, l, c', m, rfl, rfl, hc, hl⟩
    · exact .pure .none
    · rcases hl.list_cases with ⟨rfl, rfl⟩ | ⟨d, l, d', m, rfl, rfl, -, -⟩
      · exact .pure (.some hc)
      · exact .pure .none
  · exact .pure .none

theorem chooseCode_uniform (hx : Alike W x y) (cond : Value) (ha : Alike W a a')
    (hb : Alike W b b') : Uniform W (sc.chooseCode x cond a b) (sc.chooseCode y cond a' b') := by
  unfold chooseCode
  split
  · split
    · exact .pure (.singleton (hx.assign hb))
    · exact .pure (.singleton (hx.assign ha))
  · refine (sc.guardConstraint?_uniform W cond).bind fun W₁ g g' h₁ hg => ?_
    rcases hg.option_cases with ⟨rfl, rfl⟩ | ⟨c, c', rfl, rfl, hc⟩
    · refine .ofExcept_bind fun tracked => ?_
      split
      · refine (sc.variableOf_uniform W₁ cond).bind fun W₂ v w h₂ hv => ?_
        refine .pure (.singleton fun π hπ => ?_)
        rw [(hx.later h₁).later h₂ π hπ, hv π hπ, (ha.later h₁).later h₂ π hπ,
          (hb.later h₁).later h₂ π hπ]
        rfl
      · exact .pure (sc.forget_alike (hx.later h₁))
    · refine .pure (.singleton fun π hπ => ?_)
      rw [hx.later h₁ π hπ, hc π hπ, ha.later h₁ π hπ, hb.later h₁ π hπ]
      rfl

theorem selectCode_uniform (W : World s₀ t₀) (id : InstId) (cond onTrue onFalse : Value) :
    Uniform W (sc.selectCode id cond onTrue onFalse) (sc.selectCode id cond onTrue onFalse) := by
  refine .onlyIf ((sc.variableOf_uniform W _).bind fun W₁ x y _ hx => ?_)
  refine (sc.express_uniform W₁ _).bind fun W₂ p p' h₂ hp => ?_
  refine (sc.express_uniform W₂ _).bind fun W₃ q q' h₃ hq => ?_
  have hx := (hx.later h₂).later h₃
  rcases (hp.later h₃).option_cases with ⟨rfl, rfl⟩ | ⟨e, e', rfl, rfl, he⟩
  · exact .pure (sc.forget_alike hx)
  · rcases hq.option_cases with ⟨rfl, rfl⟩ | ⟨f, f', rfl, rfl, hf⟩
    · exact .pure (sc.forget_alike hx)
    · exact sc.chooseCode_uniform hx cond he hf

end Selections

section Accesses

variable {x y : Var} {a a' b b' : AffineForm}

theorem readCode_uniform (hx : Alike W x y) (cell : Cell) (ha : Alike W a a') (elemSize : Nat) :
    Uniform W (sc.readCode x cell a elemSize) (sc.readCode y cell a' elemSize) := by
  refine (sc.objectVariable?_uniform W cell).bind fun W₁ p p' h₁ hp => ?_
  rcases hp.option_cases with ⟨rfl, rfl⟩ | ⟨o, o', rfl, rfl, ho⟩
  · refine (Uniform.cellVariable W₁ cell).bind fun W₂ m m' h₂ hm => ?_
    refine .pure (.singleton fun π hπ => ?_)
    rw [(hx.later h₁).later h₂ π hπ, hm π hπ, (ha.later h₁).later h₂ π hπ]
    rfl
  · exact .pure (.singleton ((hx.later h₁).assign ho.ofVar))

theorem writeCode_uniform (cell : Cell) (ha : Alike W a a') (hb : Alike W b b')
    (elemSize : Nat) :
    Uniform W (sc.writeCode cell a b elemSize) (sc.writeCode cell a' b' elemSize) := by
  refine (sc.objectVariable?_uniform W cell).bind fun W₁ p p' h₁ hp => ?_
  rcases hp.option_cases with ⟨rfl, rfl⟩ | ⟨o, o', rfl, rfl, ho⟩
  · refine (Uniform.cellVariable W₁ cell).bind fun W₂ m m' h₂ hm => ?_
    refine .pure (.singleton fun π hπ => ?_)
    rw [hm π hπ, (ha.later h₁).later h₂ π hπ, (hb.later h₁).later h₂ π hπ]
    rfl
  · exact .pure (.singleton (ho.assign (hb.later h₁)))

theorem loadCode_uniform (W : World s₀ t₀) (id : InstId) (ty : Ty) (ptr : Value) :
    Uniform W (sc.loadCode id ty ptr) (sc.loadCode id ty ptr) := by
  unfold loadCode
  split
  · refine (sc.express_uniform W ptr).bind fun W₁ p p' _ hp => ?_
    rcases hp.option_cases with ⟨rfl, rfl⟩ | ⟨e, e', rfl, rfl, he⟩
    · cases sc.cellAt? ptr <;> exact sc.forgetResult_uniform W₁ id
    · cases sc.cellAt? ptr with
      | none => exact sc.forgetResult_uniform W₁ id
      | some cell =>
          exact (sc.variableOf_uniform W₁ _).bind fun W₂ x y h₂ hx =>
            sc.readCode_uniform hx cell (he.later h₂) _
  · exact sc.forgetResult_uniform W id

theorem storeCode_uniform (W : World s₀ t₀) (value ptr : Value) :
    Uniform W (sc.storeCode value ptr) (sc.storeCode value ptr) := by
  refine .ofExcept_bind fun ty => ?_
  split
  · split
    · exact .pure .nil
    · refine (sc.express_uniform W ptr).bind fun W₁ p p' _ hp => ?_
      refine (sc.express_uniform W₁ value).bind fun W₂ q q' h₂ hq => ?_
      rcases (hp.later h₂).option_cases with ⟨rfl, rfl⟩ | ⟨e, e', rfl, rfl, he⟩
      · exact .pure .nil
      · rcases hq.option_cases with ⟨rfl, rfl⟩ | ⟨f, f', rfl, rfl, hf⟩
        · exact .pure .nil
        · exact sc.writeCode_uniform _ he hf _
  · exact .pure .nil

theorem zeroedCode_uniform (W : World s₀ t₀) (cell? : Option Cell) :
    Uniform W (zeroedCode cell?) (zeroedCode cell?) := by
  cases cell? with
  | none => exact .pure .nil
  | some cell =>
      exact (Uniform.cellVariable W cell).bind fun _ _ _ _ hx =>
        .pure (.singleton (hx.assumeArray 0))

theorem allocaCode_uniform (W : World s₀ t₀) (id : InstId) :
    Uniform W (sc.allocaCode id) (sc.allocaCode id) := by
  unfold allocaCode
  split
  · exact zeroedCode_uniform W _
  · exact .pure .nil

end Accesses

section Addresses

variable {x y : Var} {a a' : AffineForm}

/-- The steps of an address mention no variables. -/
theorem indexSteps_uniform (W : World s₀ t₀) (id : InstId) (sourceTy : Ty)
    (indices : List Value) :
    Uniform W (sc.indexSteps id sourceTy indices) (sc.indexSteps id sourceTy indices) := by
  unfold indexSteps
  split
  · exact .pure .nil
  · split
    · split
      · exact .reject _
      · exact .pure (.refl _)
    · exact .fault _

theorem scaledCode_uniform (hx : Alike W x y) (steps : List IndexStep) :
    Uniform W (sc.scaledCode x steps) (sc.scaledCode y steps) := by
  induction steps generalizing W with
  | nil => exact .pure (.pair .nil (.refl _))
  | cons step rest ih =>
      cases step with
      | offset bytes => exact ih hx
      | scaled index size =>
          refine (sc.express_uniform W index).bind fun W₁ p p' h₁ hp => ?_
          have hx := hx.later h₁
          rcases hp.option_cases with ⟨rfl, rfl⟩ | ⟨e, e', rfl, rfl, he⟩
          · exact .pure (.pair (sc.forget_alike hx) (.refl _))
          · refine (Uniform.temporary W₁).bind fun W₂ v w h₂ hv => ?_
            refine (ih (hx.later h₂)).bind fun W₃ r r' h₃ hr => ?_
            have hx := (hx.later h₂).later h₃
            have hv := hv.later h₃
            exact .pure (.pair (.cons (.arith .mul hv ((he.later h₂).later h₃) (.const _))
              (.cons (.arith .add hx hx.ofVar hv.ofVar) hr.fst)) hr.snd)

theorem stepsCode_uniform (hx : Alike W x y) (ha : Alike W a a') (steps : List IndexStep) :
    Uniform W (sc.stepsCode x a steps) (sc.stepsCode y a' steps) := by
  unfold stepsCode
  split
  · exact .pure (sc.forget_alike hx)
  · next offset _ =>
    split
    · exact .pure (.singleton (.arith .add hx ha (.const _)))
    · refine (sc.scaledCode_uniform hx steps).bind fun W₁ r r' h₁ hr => ?_
      obtain ⟨stmts, complete⟩ := r
      obtain ⟨stmts', complete'⟩ := r'
      obtain rfl : complete' = complete := hr.snd.eq_of_fixed
      have hx := hx.later h₁
      refine .pure (.cons (hx.assign (ha.later h₁)) (hr.fst.append ?_))
      split
      · exact .singleton (.arith .add hx hx.ofVar (.const _))
      · exact .nil

theorem addressCode_uniform (W : World s₀ t₀) (id : InstId) (base : Value) (sourceTy : Ty)
    (indices : List Value) : Uniform W (sc.addressCode id base sourceTy indices)
      (sc.addressCode id base sourceTy indices) := by
  refine .onlyIf ((sc.variableOf_uniform W _).bind fun W₁ x y _ hx => ?_)
  refine .ofExcept_bind fun wanted => ?_
  split
  · refine (sc.express_uniform W₁ base).bind fun W₂ p p' h₂ hp => ?_
    have hx := hx.later h₂
    rcases hp.option_cases with ⟨rfl, rfl⟩ | ⟨e, e', rfl, rfl, he⟩
    · exact .pure (sc.forget_alike hx)
    · refine (sc.indexSteps_uniform W₂ id sourceTy indices).bind fun W₃ steps steps' h₃ hs => ?_
      obtain rfl := hs.eq_of_fixed
      exact sc.stepsCode_uniform (hx.later h₃) (he.later h₃) _
  · exact .pure (sc.forget_alike hx)

end Addresses

end Scope

end AffineFlow
