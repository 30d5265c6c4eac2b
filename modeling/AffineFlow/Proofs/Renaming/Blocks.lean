import AffineFlow.Lowering.Prologue
import AffineFlow.Proofs.Renaming.Calls

/-!
# Blocks, edges and the prologue lower alike

The phis along an edge save values in temporaries, and both runs save the same
ones. From there on the code of a block, of its edges and of the prologue is put
together from parts that are lowered alike.
-/
namespace AffineFlow

open Ssa Lowering

variable {s₀ t₀ : VarSupply} {W : World s₀ t₀}

namespace Scope

variable (sc : Scope)

section Phis

variable {saved saved' : SavedPhis}

theorem lookup_alike (h : Alike W saved saved') (v : Value) :
    Alike W (saved.lookup v) (saved'.lookup v) := by
  refine h.map (f := fun l => List.lookup v l) fun π _ l => ?_
  induction l with
  | nil => rfl
  | cons p rest ih =>
      rw [rename_cons, List.lookup_cons, List.lookup_cons]
      show _ = match v == p.1 with
        | true => some (rename π p.2)
        | false => List.lookup v (rename π rest)
      cases v == p.1 with
      | true => rfl
      | false => exact ih

theorem needsSaving_eq (h : Alike W saved saved') (block : BlockId) (p : IncomingPhi) :
    sc.needsSaving block saved' p = sc.needsSaving block saved p := by
  have hnone : (saved'.lookup p.value).isNone = (saved.lookup p.value).isNone := by
    rcases (lookup_alike h p.value).option_cases with ⟨hl, hl'⟩ | ⟨e, e', hl, hl', -⟩
    · rw [hl, hl']
    · rw [hl, hl']
      rfl
  rw [needsSaving, needsSaving, hnone]

theorem savePhis_uniform (block : BlockId) (h : Alike W saved saved')
    (phis : List IncomingPhi) :
    Uniform W (sc.savePhis block saved phis) (sc.savePhis block saved' phis) := by
  induction phis generalizing W saved saved' with
  | nil => exact .pure (.pair h .nil)
  | cons p rest ih =>
      unfold savePhis
      rw [sc.needsSaving_eq h]
      refine .ofExcept_bind fun needed => ?_
      split
      · refine (sc.express_uniform W _).bind fun W₁ q q' h₁ hq => ?_
        have h := h.later h₁
        rcases hq.option_cases with ⟨rfl, rfl⟩ | ⟨e, e', rfl, rfl, he⟩
        · exact ih h
        · refine (Uniform.temporary W₁).bind fun W₂ old old' h₂ hold => ?_
          have hentry : Alike W₂ (p.value, AffineForm.ofVar old) (p.value, .ofVar old') :=
            .pair (fun _ _ => rfl) hold.ofVar
          refine (ih (.cons hentry (h.later h₂))).bind fun W₃ r r' h₃ hr => ?_
          exact .pure (.pair hr.fst
            (.cons ((hold.later h₃).assign ((he.later h₂).later h₃)) hr.snd))
      · exact ih h

theorem expressBefore_uniform (h : Alike W saved saved') (v : Value) :
    Uniform W (sc.expressBefore saved v) (sc.expressBefore saved' v) := by
  unfold expressBefore
  rcases (lookup_alike h v).option_cases with ⟨hl, hl'⟩ | ⟨e, e', hl, hl', he⟩
  · rw [hl, hl']
    exact sc.express_uniform W v
  · rw [hl, hl']
    exact .pure (.some he)

theorem assignPhis_uniform (h : Alike W saved saved') (phis : List IncomingPhi) :
    Uniform W (sc.assignPhis saved phis) (sc.assignPhis saved' phis) := by
  induction phis generalizing W saved saved' with
  | nil => exact .pure .nil
  | cons p rest ih =>
      refine .ofExcept_bind fun tracked => ?_
      split
      · refine (sc.variableOf_uniform W _).bind fun W₁ x y h₁ hx => ?_
        refine (sc.expressBefore_uniform (h.later h₁) _).bind fun W₂ q q' h₂ hq => ?_
        have hx := hx.later h₂
        have ih := ih ((h.later h₁).later h₂)
        rcases hq.option_cases with ⟨rfl, rfl⟩ | ⟨e, e', rfl, rfl, he⟩
        · exact ih.bind fun W₃ l l' h₃ hl => .pure (.cons (hx.later h₃).havoc hl)
        · exact ih.bind fun W₃ l l' h₃ hl =>
            .pure (.cons ((hx.later h₃).assign (he.later h₃)) hl)
      · exact ih h

theorem phiCode_uniform (W : World s₀ t₀) (target : BlockId) (targetBlock : Block)
    (pred : BlockId) (predName : String) :
    Uniform W (sc.phiCode target targetBlock pred predName)
      (sc.phiCode target targetBlock pred predName) := by
  unfold phiCode
  split
  · exact .reject _
  · exact .pure .nil
  · refine .tell_bind ((sc.savePhis_uniform target .nil _).bind fun W₁ r r' _ hr => ?_)
    refine (sc.assignPhis_uniform hr.fst _).bind fun W₂ l l' h₂ hl => ?_
    exact .pure ((hr.snd.later h₂).append hl)

end Phis

section Code

theorem instCode_uniform (W : World s₀ t₀) (id : InstId) :
    Uniform W (sc.instCode id) (sc.instCode id) := by
  unfold instCode
  split
  · exact .fault _
  · split
    · exact .pure .nil
    · exact .pure .nil
    · exact sc.binaryCode_uniform W _ _ _ _
    · exact sc.castCode_uniform W _ _ _ _
    · exact sc.addressCode_uniform W _ _ _ _
    · exact sc.loadCode_uniform W _ _ _
    · exact sc.storeCode_uniform W _ _
    · exact sc.allocaCode_uniform W _
    · exact sc.selectCode_uniform W _ _ _ _
    · exact sc.callCode_uniform W _ _ _ _
    · exact sc.forgetResult_uniform W _

theorem instsCode_uniform (W : World s₀ t₀) (ids : List InstId) :
    Uniform W (sc.instsCode ids) (sc.instsCode ids) := by
  induction ids generalizing W with
  | nil => exact .pure .nil
  | cons id rest ih =>
      exact (sc.instCode_uniform W id).bind fun W₁ l l' _ hl =>
        (ih W₁).bind fun W₂ m m' h₂ hm => .pure ((hl.later h₂).append hm)

theorem returnCode_uniform (W : World s₀ t₀) (value : Value) :
    Uniform W (sc.returnCode value) (sc.returnCode value) := by
  refine .onlyIf ((sc.passed_uniform W value).bind fun W₁ p p' _ hp => .pure ?_)
  obtain ⟨⟨v, type⟩, setup⟩ := p
  obtain ⟨⟨v', type'⟩, setup'⟩ := p'
  obtain rfl : type' = type := hp.fst.snd.eq_of_fixed
  exact hp.snd.append (.singleton (hp.fst.fst.map (f := fun v => Stmt.ret v _) fun _ _ _ => rfl))

variable {e e' : AffineForm}

theorem defaultCase_alike (he : Alike W e e') (cases : List Int) :
    Alike W (defaultCase e cases) (defaultCase e' cases) := by
  unfold defaultCase
  induction cases.filterMap fit64 with
  | nil => exact .nil
  | cons n rest ih => exact (assumption_alike (he.ne (.const n))).append ih

theorem matchedCase_alike (he : Alike W e e') (case? : Option Int) :
    Alike W (matchedCase e case?) (matchedCase e' case?) := by
  unfold matchedCase
  split
  · exact assumption_alike (he.eq (.const _))
  · exact .nil

theorem edgeCondition_uniform (W : World s₀ t₀) (term : Terminator) (index : Nat) :
    Uniform W (sc.edgeCondition term index) (sc.edgeCondition term index) := by
  unfold edgeCondition
  split
  · exact sc.assumptions_uniform W _ _
  · refine (sc.express_uniform W _).bind fun W₁ p p' _ hp => ?_
    rcases hp.option_cases with ⟨rfl, rfl⟩ | ⟨e, e', rfl, rfl, he⟩
    · exact .pure .nil
    · cases index with
      | zero => exact .pure (defaultCase_alike he _)
      | succ i => exact .pure (matchedCase_alike he _)
  · exact .pure .nil

theorem target_uniform (W : World s₀ t₀) (id : BlockId) :
    Uniform W (sc.target id) (sc.target id) := by
  unfold target
  split
  · split
    · exact .pure (.refl _)
    · exact .fault _
  · exact .reject _

theorem edgeCode_uniform (W : World s₀ t₀) (source : BlockId) (block : Block) (index : Nat)
    (succ : BlockId) :
    Uniform W (sc.edgeCode source block index succ) (sc.edgeCode source block index succ) := by
  refine (sc.target_uniform W succ).bind fun W₁ b b' _ hb => ?_
  obtain rfl := hb.eq_of_fixed
  refine .tell_bind ((sc.edgeCondition_uniform W₁ _ _).bind fun W₂ l l' _ hl => ?_)
  refine (sc.phiCode_uniform W₂ _ _ _ _).bind fun W₃ m m' h₃ hm => ?_
  exact .pure (((hl.later h₃).append hm).map (f := fun stmts => EdgeCode.mk _ _ stmts)
    fun _ _ _ => rfl)

theorem edgesCode_uniform (W : World s₀ t₀) (source : BlockId) (block : Block) (index : Nat)
    (succs : List BlockId) :
    Uniform W (sc.edgesCode source block index succs) (sc.edgesCode source block index succs) := by
  induction succs generalizing W index with
  | nil => exact .pure .nil
  | cons succ rest ih =>
      exact (sc.edgeCode_uniform W _ _ _ _).bind fun W₁ edge edge' _ he =>
        (ih W₁ _).bind fun W₂ l l' h₂ hl => .pure (.cons (he.later h₂) hl)

theorem leavingCode_uniform (W : World s₀ t₀) (id : BlockId) (block : Block) :
    Uniform W (sc.leavingCode id block) (sc.leavingCode id block) := by
  unfold leavingCode
  split
  · exact .pure fun _ _ => rfl
  · exact (sc.returnCode_uniform W _).bind fun _ _ _ _ hl => .pure (.pair hl fun _ _ => rfl)
  · exact .pure fun _ _ => rfl
  · refine (sc.target_uniform W _).bind fun W₁ b b' _ hb => ?_
    obtain rfl := hb.eq_of_fixed
    exact (sc.phiCode_uniform W₁ _ _ _ _).bind fun _ _ _ _ hl =>
      .pure (.pair hl fun _ _ => rfl)
  · exact (sc.edgesCode_uniform W _ _ _ _).bind fun _ _ _ _ he =>
      .pure (.pair .nil (he.map (f := Leaving.branches) fun _ _ _ => rfl))
  · exact (sc.edgesCode_uniform W _ _ _ _).bind fun _ _ _ _ he =>
      .pure (.pair .nil (he.map (f := Leaving.branches) fun _ _ _ => rfl))

theorem blockCode_uniform (W : World s₀ t₀) (id : BlockId) :
    Uniform W (sc.blockCode id) (sc.blockCode id) := by
  refine (sc.target_uniform W id).bind fun W₁ b b' _ hb => ?_
  obtain rfl := hb.eq_of_fixed
  refine .tell_bind ((sc.instsCode_uniform W₁ _).bind fun W₂ l l' _ hl => ?_)
  refine (sc.leavingCode_uniform W₂ _ _).bind fun W₃ r r' h₃ hr => ?_
  exact .pure (((hl.later h₃).append hr.fst).map₂ (f := BlockCode.mk id)
    (fun _ _ _ _ => rfl) hr.snd)

theorem blocksCode_uniform (W : World s₀ t₀) (ids : List BlockId) :
    Uniform W (sc.blocksCode ids) (sc.blocksCode ids) := by
  induction ids generalizing W with
  | nil => exact .pure .nil
  | cons id rest ih =>
      exact (sc.blockCode_uniform W id).bind fun W₁ code code' _ hc =>
        (ih W₁).bind fun W₂ l l' h₂ hl => .pure (.cons (hc.later h₂) hl)

end Code

section Prologue

theorem contentsCode_uniform (W : World s₀ t₀) (program : Module) (cell : Cell)
    (init : Initializer) :
    Uniform W (contentsCode program cell init) (contentsCode program cell init) := by
  unfold contentsCode
  split
  · exact (Uniform.cellVariable W cell).bind fun _ _ _ _ hx =>
      .pure (.singleton (hx.assumeArray 0))
  · split
    · exact (Uniform.cellVariable W cell).bind fun _ _ _ _ hx =>
        .pure (.singleton (hx.map (f := fun v => Stmt.arrayInit v _) fun _ _ _ => rfl))
    · exact .pure .nil
  · exact .pure .nil

theorem receiveCopies_uniform (W : World s₀ t₀) (cells : List Cell) :
    Uniform W (receiveCopies cells) (receiveCopies cells) := by
  induction cells generalizing W with
  | nil => exact .pure (.pair .nil .nil)
  | cons c rest ih =>
      refine (Uniform.cellVariable W c).bind fun W₁ array array' _ ha => ?_
      refine (Uniform.temporary W₁).bind fun W₂ copy copy' h₂ hc => ?_
      refine (ih W₂).bind fun W₃ r r' h₃ hr => ?_
      have ha := (ha.later h₂).later h₃
      have hc := hc.later h₃
      exact .pure (.pair (.cons (hc.typed _) hr.fst) (.cons (ha.assign hc.ofVar) hr.snd))

theorem receiveCells_uniform (W : World s₀ t₀) (effects : Effects) :
    Uniform W (receiveCells effects) (receiveCells effects) := by
  refine (receiveCopies_uniform W _).bind fun W₁ p p' _ hp => ?_
  refine (cellVariables_uniform W₁ _).bind fun W₂ l l' h₂ hl => ?_
  have hp := hp.later h₂
  exact .pure (.pair (.append hp.fst hl) hp.snd)

theorem newCellsCode_uniform (W : World s₀ t₀) (cells : List Cell) :
    Uniform W (newCellsCode cells) (newCellsCode cells) := by
  induction cells generalizing W with
  | nil => exact .pure .nil
  | cons c rest ih =>
      refine (Uniform.cellVariable W c).bind fun W₁ x y _ hx => ?_
      exact (ih W₁).bind fun W₂ l l' h₂ hl => .pure (.cons ((hx.later h₂).assumeArray 0) hl)

theorem scalarParams_uniform (W : World s₀ t₀) (index : Nat) (params : List Param) :
    Uniform W (sc.scalarParams index params) (sc.scalarParams index params) := by
  induction params generalizing W index with
  | nil => exact .pure .nil
  | cons param rest ih =>
      refine .ofExcept_bind fun received => ?_
      split
      · exact (sc.variableOf_uniform W _).bind fun W₁ x y _ hx =>
          (ih W₁ _).bind fun W₂ l l' h₂ hl => .pure (.cons ((hx.later h₂).typed _) hl)
      · exact ih W _

theorem signature_uniform (W : World s₀ t₀) : Uniform W sc.signature sc.signature := by
  refine (sc.scalarParams_uniform W 0 _).bind fun W₁ l l' _ hl => ?_
  refine .ite_bind (receiveCells_uniform W₁ _) (.pure (.pair .nil .nil)) fun W₂ q q' h₂ hq => ?_
  refine (sc.functionVariable_uniform W₂ _).bind fun W₃ f f' h₃ hf => ?_
  have hq := hq.later h₃
  have hparams := ((hl.later h₂).later h₃).append hq.fst
  exact .pure (.pair (hf.map₂ (f := fun name params => Declaration.mk name _ params)
    (fun _ _ _ _ => rfl) hparams) hq.snd)

theorem globalsCode_uniform (W : World s₀ t₀) (ids : List GlobalId) :
    Uniform W (sc.globalsCode ids) (sc.globalsCode ids) := by
  induction ids generalizing W with
  | nil => exact .pure .nil
  | cons id rest ih =>
      unfold globalsCode
      split
      · exact (contentsCode_uniform W _ _ _).bind fun W₁ l l' _ hl =>
          (ih W₁).bind fun W₂ m m' h₂ hm => .pure ((hl.later h₂).append hm)
      · exact ih W

theorem memoryCode_uniform (W : World s₀ t₀) : Uniform W sc.memoryCode sc.memoryCode := by
  refine (newCellsCode_uniform W _).bind fun W₁ l l' _ hl => ?_
  exact .ite_bind (sc.globalsCode_uniform W₁ _) (.pure .nil) fun W₂ m m' h₂ hm =>
    .pure ((hl.later h₂).append hm)

theorem prologue_uniform (W : World s₀ t₀) : Uniform W sc.prologue sc.prologue := by
  unfold prologue
  dsimp only
  split
  · refine (sc.signature_uniform W).bind fun W₁ q q' _ hq => ?_
    refine (Uniform.pure (.pair (.some hq.fst) hq.snd)).bind fun W₂ p p' _ hp => ?_
    exact .ite_bind (sc.memoryCode_uniform W₂) (.pure .nil) fun W₃ m m' h₃ hm =>
      .pure (.pair (hp.fst.later h₃) ((hp.snd.later h₃).append hm))
  · refine (Uniform.pure (.pair .none .nil)).bind fun W₂ p p' _ hp => ?_
    exact .ite_bind (sc.memoryCode_uniform W₂) (.pure .nil) fun W₃ m m' h₃ hm =>
      .pure (.pair (hp.fst.later h₃) ((hp.snd.later h₃).append hm))

end Prologue

end Scope

end AffineFlow
