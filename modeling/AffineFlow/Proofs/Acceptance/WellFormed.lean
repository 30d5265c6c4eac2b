import AffineFlow.Lowering.Function
import AffineFlow.Proofs.Acceptance.Settles
import AffineFlow.Proofs.Execution.Values
import AffineFlow.Proofs.Layout.Alignment

/-!
# Well-formed input

A function that hangs together: what it refers to is there, and its conditions
are integers. Then every question about types has an answer, and sizes are
those of types that can be placed.
-/
namespace AffineFlow

open Ssa Lowering

/-- The value that a conditional branch depends on. -/
def Ssa.Terminator.condition? : Terminator → Option Value
  | .condBr cond _ _ => some cond
  | _ => none

namespace Scope

/-- The value is not the result of an instruction that does not exist. -/
def isLive (sc : Scope) (v : Value) : Bool :=
  match v with
  | .inst id => (sc.body.inst? id).isSome
  | _ => true

/-- The value is an integer. -/
def isInteger (sc : Scope) (v : Value) : Bool := isYes (sc.hasIntType v)

/-- The conditions that an instruction chooses by or assumes; an assumption is about what its zero
extension extends. -/
def conditions (sc : Scope) : InstKind → List Value
  | .select cond _ _ => [cond]
  | .call (.direct calleeId) (cond :: _) =>
      match (sc.program.func? calleeId).map sc.meaning with
      | some (.assumption _) => [sc.beneathZeroExtension cond]
      | _ => []
  | _ => []

/-- What the block refers to is there, and its conditions are integers. -/
structure BlockWellFormed (sc : Scope) (block : Block) : Prop where
  insts : ∀ i ∈ block.insts, ∃ inst ∈ sc.body.inst? i, ∀ cond ∈ sc.conditions inst.kind,
    sc.isInteger cond = true
  operand_live : ∀ v ∈ block.term.operand?, sc.isLive v = true
  branch_integer : ∀ v ∈ block.term.condition?, sc.isInteger v = true

instance (sc : Scope) (block : Block) : Decidable (sc.BlockWellFormed block) :=
  decidable_of_iff
    ((∀ i ∈ block.insts, ∃ inst ∈ sc.body.inst? i, ∀ cond ∈ sc.conditions inst.kind,
        sc.isInteger cond = true) ∧
      (∀ v ∈ block.term.operand?, sc.isLive v = true) ∧
      ∀ v ∈ block.term.condition?, sc.isInteger v = true)
    ⟨fun ⟨h₁, h₂, h₃⟩ => ⟨h₁, h₂, h₃⟩, fun h => ⟨h.insts, h.operand_live, h.branch_integer⟩⟩

/-- The function hangs together: its layout is a list of different blocks, whatever it refers to is
there, and its conditions are integers. -/
structure WellFormed (sc : Scope) : Prop where
  body_eq : sc.func.body = some sc.body
  order_ne_nil : sc.body.order ≠ []
  order_nodup : sc.body.order.Nodup
  blocks : ∀ b ∈ sc.body.order, ∃ block ∈ sc.body.block? b, sc.BlockWellFormed block
  operands_live : ∀ inst ∈ sc.body.insts.toList, ∀ v ∈ inst.kind.operands, sc.isLive v = true
  objects_live : ∀ c, ∀ o ∈ sc.oracle.singleton? c, sc.isLive o = true
  pointers_wide : 0 < sc.program.layout.pointerBits

/-- The instruction is in a laid-out block. -/
def LaidOut (sc : Scope) (i : InstId) : Prop :=
  ∃ b ∈ sc.body.order, ∃ block, sc.body.block? b = some block ∧ i ∈ block.insts

variable {sc : Scope} {v : Value} {b : BlockId} {block : Block} {i : InstId}

/-- The value is an integer, and its type is known to be one. -/
theorem hasIntType_of_isInteger (h : sc.isInteger v = true) : sc.hasIntType v = .ok true :=
  isYes_iff.1 h

theorem typeOf_answered (hbody : sc.func.body = some sc.body) (hv : sc.isLive v = true) :
    Answered (sc.typeOf v) := by
  cases v with
  | inst id =>
      obtain ⟨inst, hinst⟩ := Option.isSome_iff_exists.1 hv
      exact ⟨inst.ty, typeOf_inst hbody hinst⟩
  | arg index => exact .ok _
  | global id => exact .ok _
  | func id => exact .ok _
  | int bits n => exact .ok _
  | null => exact .ok _
  | undef bits => cases bits <;> exact .ok _

theorem tracks_answered (hbody : sc.func.body = some sc.body) (hv : sc.isLive v = true) :
    Answered (sc.tracks v) :=
  .ite (.ok _) ((typeOf_answered hbody hv).map _)

namespace WellFormed

variable (hw : sc.WellFormed)
include hw

theorem block_live (hb : b ∈ sc.body.order) : ∃ block, sc.body.block? b = some block := by
  obtain ⟨block, hblock, -⟩ := hw.blocks b hb
  exact ⟨block, hblock⟩

theorem block_wellFormed (hb : b ∈ sc.body.order) (hblock : sc.body.block? b = some block) :
    sc.BlockWellFormed block := by
  obtain ⟨block', hblock', h⟩ := hw.blocks b hb
  obtain rfl : block' = block := Option.some.inj (hblock'.symm.trans hblock)
  exact h

theorem inst_live (hi : sc.LaidOut i) : ∃ inst, sc.body.inst? i = some inst ∧
    ∀ cond ∈ sc.conditions inst.kind, sc.isInteger cond = true := by
  obtain ⟨b, hb, block, hblock, hi⟩ := hi
  exact (hw.block_wellFormed hb hblock).insts i hi

theorem live_of_operand {inst : Inst} (hinst : sc.body.inst? i = some inst)
    (hv : v ∈ inst.kind.operands) : sc.isLive v = true :=
  hw.operands_live inst (Array.mem_toList_iff.2 (Array.mem_of_getElem? hinst)) v hv

theorem typeOf_answered (hv : sc.isLive v = true) : Answered (sc.typeOf v) :=
  Scope.typeOf_answered hw.body_eq hv

theorem hasIntType_answered (hv : sc.isLive v = true) : Answered (sc.hasIntType v) :=
  (hw.typeOf_answered hv).map _

theorem tracks_answered (hv : sc.isLive v = true) : Answered (sc.tracks v) :=
  Scope.tracks_answered hw.body_eq hv

/-- The operands of the instruction that a value is the result of. -/
theorem live_of_kind? {kind : InstKind} (hkind : sc.body.kind? v = some kind) :
    ∀ o ∈ kind.operands, sc.isLive o = true := by
  obtain ⟨inst, hinst, rfl⟩ := Option.map_eq_some_iff.1 hkind
  obtain ⟨id, -, hid⟩ := Option.bind_eq_some_iff.1 hinst
  exact fun o ho => hw.live_of_operand hid ho

theorem beneathZeroExtension_live (hv : sc.isLive v = true) :
    sc.isLive (sc.beneathZeroExtension v) = true := by
  unfold beneathZeroExtension
  split
  next operand hkind => exact hw.live_of_kind? hkind operand List.mem_cons_self
  next => exact hv

theorem beneathExtension_live (hv : sc.isLive v = true) :
    sc.isLive (sc.beneathExtension v) = true := by
  unfold beneathExtension
  split
  next op operand hkind =>
    split
    · exact hw.live_of_kind? hkind operand List.mem_cons_self
    · exact hv
  next => exact hv

theorem isUnmodelledUse_answered (u : User) : Answered (sc.isUnmodelledUse u) := by
  unfold isUnmodelledUse
  split
  next => exact .ok _
  next id =>
    split
    next => exact .ok _
    next user hinst =>
      split
      next value ptr hkind =>
        have hlive : sc.isLive value = true :=
          hw.live_of_operand hinst (by simp [hkind, InstKind.operands])
        exact (hw.hasIntType_answered hlive).map _
      next => exact .ok _
      next => exact .ok _
      next => exact .ok _

theorem onlyUnmodelledUses_answered (id : InstId) : Answered (sc.onlyUnmodelledUses id) :=
  .allM fun u _ => hw.isUnmodelledUse_answered u

theorem isAddressWanted_answered (id : InstId) : Answered (sc.isAddressWanted id) :=
  .ite (.ok _) ((hw.onlyUnmodelledUses_answered id).map _)

theorem isCastWanted_answered {id : InstId} (ty : Ty) (hid : sc.isLive (.inst id) = true) :
    Answered (sc.isCastWanted id ty) :=
  (hw.tracks_answered hid).bind fun _ =>
    .ite (.ite (.ok _) ((hw.onlyUnmodelledUses_answered id).map _)) (.ok _)

theorem operandsFlow_answered {a b : Value} (ha : sc.isLive a = true) (hb : sc.isLive b = true) :
    Answered (sc.operandsFlow a b) :=
  .ite ((hw.hasIntType_answered ha).bind fun _ => .ite (hw.hasIntType_answered hb) (.ok _)) (.ok _)

theorem isPassed_answered (hv : sc.isLive v = true) : Answered (sc.isPassed v) :=
  (hw.tracks_answered hv).bind fun _ => .ite (.ite (hw.hasIntType_answered hv) (.ok _)) (.ok _)

theorem isReceived_answered {id : InstId} (ty : Ty) (hid : sc.isLive (.inst id) = true) :
    Answered (sc.isReceived id ty) :=
  .ite (.ok _) ((hw.tracks_answered hid).bind fun _ => .ite (.ok _) (.ok _))

theorem isReturned_answered (hv : sc.isLive v = true) : Answered (sc.isReturned v) :=
  .ite (hw.isPassed_answered hv) (.ok _)

theorem isSelectWanted_answered {id : InstId} {a b : Value} (hid : sc.isLive (.inst id) = true)
    (ha : sc.isLive a = true) (hb : sc.isLive b = true) : Answered (sc.isSelectWanted id a b) :=
  (hw.tracks_answered hid).bind fun _ => .ite (hw.operandsFlow_answered ha hb) (.ok _)

theorem comparison?_answered (hv : sc.isLive v = true) : Answered (sc.comparison? v) := by
  unfold comparison?
  split
  · exact (hw.hasIntType_answered hv).map _
  · exact .ok _

end WellFormed

end Scope

end AffineFlow
