import AffineFlow.Proofs.Renaming.Instructions

/-!
# Calls lower alike

What is passed to a call and what a function receives are variables and
temporaries, minted at the same places of both runs, so call sites, the copies of
cells and every other treatment of a call are the same up to renaming.
-/
namespace AffineFlow

open Ssa Lowering

variable {s₀ t₀ : VarSupply} {W : World s₀ t₀}

namespace Scope

variable (sc : Scope)

theorem literalTemporary_uniform (W : World s₀ t₀) (v : Value) :
    Uniform W (sc.literalTemporary v) (sc.literalTemporary v) := by
  refine (Uniform.temporary W).bind fun W₁ x y _ hx => ?_
  split
  · refine (sc.express_uniform W₁ v).bind fun W₂ p p' h₂ hp => ?_
    have hx := hx.later h₂
    rcases hp.option_cases with ⟨rfl, rfl⟩ | ⟨e, e', rfl, rfl, he⟩
    · exact .pure (.pair (hx.typed _) (.singleton hx.havoc))
    · exact .pure (.pair (hx.typed _) (.singleton (hx.assign he)))
  · exact .pure (.pair (hx.typed _) (.singleton hx.havoc))

theorem passed_uniform (W : World s₀ t₀) (v : Value) :
    Uniform W (sc.passed v) (sc.passed v) := by
  unfold passed
  split
  · exact sc.literalTemporary_uniform W v
  · exact .ofExcept_bind fun ty => (sc.variableOf_uniform W v).bind fun _ _ _ _ hx =>
      .pure (.pair (hx.typed _) .nil)

theorem passScalars_uniform (W : World s₀ t₀) (args : List Value) :
    Uniform W (sc.passScalars args) (sc.passScalars args) := by
  induction args generalizing W with
  | nil => exact .pure (.pair .nil .nil)
  | cons arg rest ih =>
      refine .ofExcept_bind fun isPassed => ?_
      split
      · refine (sc.passed_uniform W arg).bind fun W₁ p p' _ hp => ?_
        refine (ih W₁).bind fun W₂ r r' h₂ hr => ?_
        have hp := hp.later h₂
        exact .pure (.pair (.cons hp.fst hr.fst) (.append hp.snd hr.snd))
      · exact ih W

theorem passCopies_uniform (W : World s₀ t₀) (cells : List Cell) :
    Uniform W (passCopies cells) (passCopies cells) := by
  induction cells generalizing W with
  | nil => exact .pure (.pair .nil .nil)
  | cons c rest ih =>
      refine (Uniform.cellVariable W c).bind fun W₁ array array' _ ha => ?_
      refine (Uniform.temporary W₁).bind fun W₂ copy copy' h₂ hc => ?_
      refine (ih W₂).bind fun W₃ r r' h₃ hr => ?_
      have ha := (ha.later h₂).later h₃
      have hc := hc.later h₃
      exact .pure (.pair (.cons (hc.typed _) hr.fst)
        (.cons (hc.assign ha.ofVar) (.cons ha.havoc hr.snd)))

theorem passCells_uniform (W : World s₀ t₀) (effects : Effects) :
    Uniform W (passCells effects) (passCells effects) := by
  refine (passCopies_uniform W _).bind fun W₁ p p' _ hp => ?_
  refine (cellVariables_uniform W₁ _).bind fun W₂ l l' h₂ hl => ?_
  have hp := hp.later h₂
  exact .pure (.pair (.append hp.fst hl) hp.snd)

theorem receiver?_uniform (W : World s₀ t₀) (id : InstId) (ty : Ty) :
    Uniform W (sc.receiver? id ty) (sc.receiver? id ty) := by
  refine .ofExcept_bind fun received => ?_
  split
  · exact (sc.variableOf_uniform W _).bind fun _ _ _ _ hx => .pure (.some (hx.typed _))
  · exact .pure .none

theorem callSiteCode_uniform (W : World s₀ t₀) (id : InstId) (ty : Ty) (callee : FuncId)
    (args : List Value) :
    Uniform W (sc.callSiteCode id ty callee args) (sc.callSiteCode id ty callee args) := by
  refine (sc.passScalars_uniform W args).bind fun W₁ p p' _ hp => ?_
  refine .ite_bind (passCells_uniform W₁ _) (.pure (.pair .nil .nil)) fun W₂ q q' h₂ hq => ?_
  refine (sc.receiver?_uniform W₂ id ty).bind fun W₃ ret ret' h₃ hret => ?_
  refine (sc.functionVariable_uniform W₃ callee).bind fun W₄ f f' h₄ hf => ?_
  have hp := ((hp.later h₂).later h₃).later h₄
  have hq := (hq.later h₃).later h₄
  refine .pure ((hp.snd.append hq.snd).append (.singleton fun π hπ => ?_))
  rw [hret.later h₄ π hπ, hf π hπ, hp.fst.append hq.fst π hπ]
  rfl

theorem forgetCells_uniform (W : World s₀ t₀) (cells : List Cell) :
    Uniform W (forgetCells cells) (forgetCells cells) := by
  induction cells generalizing W with
  | nil => exact .pure .nil
  | cons c rest ih =>
      refine (Uniform.cellVariable W c).bind fun W₁ x y _ hx => ?_
      exact (ih W₁).bind fun W₂ l l' h₂ hl => .pure (.cons (hx.later h₂).havoc hl)

theorem unmodelledCallCode_uniform (W : World s₀ t₀) (id : InstId) :
    Uniform W (sc.unmodelledCallCode id) (sc.unmodelledCallCode id) := by
  refine (sc.forgetResult_uniform W id).bind fun W₁ l l' _ hl => ?_
  exact .ite_bind (forgetCells_uniform W₁ _) (.pure .nil) fun W₂ m m' h₂ hm =>
    .pure ((hl.later h₂).append hm)

theorem memorySetCode_uniform (W : World s₀ t₀) (args : List Value) :
    Uniform W (sc.memorySetCode args) (sc.memorySetCode args) := by
  unfold memorySetCode
  split
  · split
    · exact .pure .nil
    · refine (sc.express_uniform W _).bind fun W₁ p p' _ hp => ?_
      have hconst : p'.bind (·.toConst?) = p.bind (·.toConst?) := by
        rcases hp.option_cases with ⟨rfl, rfl⟩ | ⟨e, e', rfl, rfl, he⟩
        · rfl
        · exact he.toConst?_eq
      rw [hconst]
      split
      · exact .pure .nil
      · exact (Uniform.cellVariable W₁ _).bind fun _ x y _ hx =>
          .pure (.cons hx.havoc (.singleton (hx.assumeArray _)))
  · exact .pure .nil

theorem memoryCopyCode_uniform (W : World s₀ t₀) (args : List Value) :
    Uniform W (sc.memoryCopyCode args) (sc.memoryCopyCode args) := by
  unfold memoryCopyCode
  split
  · split
    · refine (Uniform.cellVariable W _).bind fun W₁ dst dst' _ hdst => ?_
      refine (Uniform.cellVariable W₁ _).bind fun W₂ src src' h₂ hsrc => ?_
      have hdst := hdst.later h₂
      exact .pure (.cons hdst.havoc (.singleton (hdst.assign hsrc.ofVar)))
    · exact .pure .nil
  · exact .pure .nil

theorem assumptionCode_uniform (W : World s₀ t₀) (negated : Bool) (args : List Value) :
    Uniform W (sc.assumptionCode negated args) (sc.assumptionCode negated args) := by
  unfold assumptionCode
  split
  · exact sc.assumptions_uniform W _ _
  · exact .pure .nil

theorem directCallCode_uniform (W : World s₀ t₀) (id : InstId) (ty : Ty) (calleeId : FuncId)
    (callee : Function) (args : List Value) :
    Uniform W (sc.directCallCode id ty calleeId callee args)
      (sc.directCallCode id ty calleeId callee args) := by
  unfold directCallCode
  cases sc.meaning callee with
  | bookkeeping => exact .pure .nil
  | allocation => exact zeroedCode_uniform W _
  | memorySet => exact sc.memorySetCode_uniform W args
  | memoryCopy => exact sc.memoryCopyCode_uniform W args
  | unmodelledIntrinsic => exact .pure .nil
  | assumption negated => exact sc.assumptionCode_uniform W negated args
  | «variadic» =>
      dsimp only
      split
      · exact .tell_bind (sc.unmodelledCallCode_uniform W id)
      · exact sc.unmodelledCallCode_uniform W id
  | ordinary =>
      dsimp only
      split
      · exact sc.callSiteCode_uniform W id ty calleeId args
      · exact sc.unmodelledCallCode_uniform W id

theorem callCode_uniform (W : World s₀ t₀) (id : InstId) (ty : Ty) (callee : Callee)
    (args : List Value) :
    Uniform W (sc.callCode id ty callee args) (sc.callCode id ty callee args) := by
  unfold callCode
  split
  · exact sc.forgetResult_uniform W id
  · split
    · exact sc.forgetResult_uniform W id
    · exact sc.directCallCode_uniform W _ _ _ _ _

end Scope

end AffineFlow
