import AffineFlow.Lowering.Code
import AffineFlow.Lowering.Prologue
import AffineFlow.Proofs.Outcome
import AffineFlow.Proofs.Shape.Forms

/-!
# What the lowering writes

A property of statements is admitted if it holds of every kind of statement that
the lowering writes, made of operands as the lowering has them: whatever a value
is expressed as is a variable or a constant of 64 bits, and every constraint is
a difference of two of these. An admitted property holds of all the code of a
function, except perhaps of call sites, which only an ordinary call is written
as.
-/
namespace AffineFlow

open Ssa Lowering

/-- All statements of the list have the property. -/
def Only (P : Stmt → Prop) (stmts : List Stmt) : Prop := ∀ stmt ∈ stmts, P stmt

/-- The property holds of everything that the lowering writes apart from assumptions and call
sites. -/
structure AdmitsActions (P : Stmt → Prop) : Prop where
  assign : ∀ {v e}, e.Simple → P (.assign v e)
  havoc : ∀ {v}, P (.havoc v)
  arith : ∀ {op v a b}, a.Simple → b.Simple → P (.arith op v a b)
  bitwise : ∀ {op v a b}, a.Simple → b.Simple → P (.bitwise op v a b)
  selectOn : ∀ {v c a b}, c.Difference → a.Simple → b.Simple → P (.select v (.constraint c) a b)
  selectBy : ∀ {v w a b}, a.Simple → b.Simple → P (.select v (.var w) a b)
  arrayLoad : ∀ {v array index size}, index.Simple → P (.arrayLoad v array index size)
  arrayStore : ∀ {array index value size}, index.Simple → value.Simple →
    P (.arrayStore array index value size)
  arrayInit : ∀ {array values}, P (.arrayInit array values)
  assumeArray : ∀ {array n}, P (.assumeArray array n)
  ret : ∀ {v type}, P (.ret v type)
  unreachable : P .unreachable

/-- The property holds of everything that the lowering writes apart from call sites. -/
structure Admits (P : Stmt → Prop) : Prop extends AdmitsActions P where
  assume : ∀ {c}, c.Difference → P (.assume c)

namespace Only

variable {P : Stmt → Prop} {stmt : Stmt} {stmts stmts' : List Stmt}

@[simp] theorem nil : Only P [] := nofun

@[simp] theorem cons_iff : Only P (stmt :: stmts) ↔ P stmt ∧ Only P stmts := List.forall_mem_cons

@[simp] theorem append_iff : Only P (stmts ++ stmts') ↔ Only P stmts ∧ Only P stmts' :=
  List.forall_mem_append

theorem single (h : P stmt) : Only P [stmt] := cons_iff.2 ⟨h, .nil⟩

theorem pair {other : Stmt} (h : P stmt) (h' : P other) : Only P [stmt, other] :=
  cons_iff.2 ⟨h, .single h'⟩

variable (hP : Admits P)
include hP

theorem assumptions {constraints : List Constraint} (h : ∀ c ∈ constraints, c.Difference) :
    Only P (constraints.map .assume) := by
  intro stmt hs
  obtain ⟨c, hc, rfl⟩ := List.mem_map.1 hs
  exact hP.assume (h c hc)

theorem assumption {c : Constraint} (h : c.Difference) : Only P c.assumption := by
  unfold Constraint.assumption
  split
  · exact .nil
  · exact .single hP.unreachable
  · exact .single (hP.assume h)

end Only

theorem narrow_of_fit64 {n m : Int} (h : fit64 n = some m) : (AffineForm.const m).Narrow := by
  unfold fit64 at h
  split at h
  next hn =>
    obtain rfl := Option.some.inj h
    exact .const n hn.1 (Int.lt_of_le_sub_one hn.2)
  next => cases h

/-- If there is a form, it is narrow. -/
def NarrowIfAny (e? : Option AffineForm) : Prop := ∀ e, e? = some e → e.Narrow

namespace NarrowIfAny

theorem none : NarrowIfAny none := nofun

theorem some {e : AffineForm} (h : e.Narrow) : NarrowIfAny (some e) := by
  rintro _ ⟨⟩
  exact h

end NarrowIfAny

namespace Scope

variable (sc : Scope)

theorem express_narrow (v : Value) : Ensures NarrowIfAny (sc.express v) := by
  have tracked : Ensures NarrowIfAny (do
      if ← Lowering.ofExcept (sc.tracks v) then return some (.ofVar (← sc.variableOf v))
      else return none) := by
    refine .after fun tracked => ?_
    split
    · exact .after fun w => .pure (.some (.var w))
    · exact .pure .none
  unfold express
  split
  next bits n =>
    split
    · split
      · exact .pure (.some .zero)
      · exact .pure (.some (.const 1 (by decide) (by decide)))
    · refine .pure fun e he => ?_
      obtain ⟨m, hm, rfl⟩ := Option.map_eq_some_iff.1 he
      exact narrow_of_fit64 hm
  next =>
    refine .pure ?_
    split
    · exact .some .zero
    · exact .none
  next => exact .pure .none
  next => exact tracked

theorem comparisonConstraints_difference (pred : Predicate) (a b : Value) (negated : Bool) :
    Ensures (fun constraints => ∀ c ∈ constraints, c.Difference)
      (sc.comparisonConstraints pred a b negated) := by
  refine (sc.express_narrow _).bind fun x hx => (sc.express_narrow _).bind fun y hy => ?_
  split
  next x y =>
    refine .pure (List.forall_mem_append.2 ⟨(hx x rfl).signConstraints (hy y rfl) _, ?_⟩)
    exact List.forall_mem_singleton.2 ((hx x rfl).orderConstraint (hy y rfl) _ negated)
  next => exact .pure (List.forall_mem_nil _)

section Actions

variable {P : Stmt → Prop} (hP : AdmitsActions P)
include hP

theorem forget_only (v : Var) : Only P (sc.forget v) := by
  unfold forget
  split
  · exact .single hP.havoc
  · exact .nil

theorem forgetResult_only (id : InstId) : Ensures (Only P) (sc.forgetResult id) :=
  .onlyIf .nil (.after fun v => .pure (sc.forget_only hP v))

theorem arithCode_only (source : BinaryOp) (op : ArithOp) (dst : Var) {a b : AffineForm}
    (ha : a.Simple) (hb : b.Simple) : Ensures (Only P) (sc.arithCode source op dst a b) := by
  unfold arithCode
  split
  · exact .after fun _ => .pure (sc.forget_only hP dst)
  · split
    · exact .pure (.pair (hP.assign ha) (hP.arith (.var dst) hb))
    · exact .pure (.single (hP.arith ha hb))

theorem shiftCode_only (source : BinaryOp) (op : ArithOp) (dst : Var) {a : AffineForm}
    (b : AffineForm) (ha : a.Simple) : Ensures (Only P) (sc.shiftCode source op dst a b) := by
  unfold shiftCode
  split
  · exact .pure (sc.forget_only hP dst)
  · split
    next factor _ => exact .pure (.single (hP.arith ha (.const factor)))
    next => exact .after fun _ => .pure (sc.forget_only hP dst)

theorem binaryCode_only (id : InstId) (op : BinaryOp) (a b : Value) :
    Ensures (Only P) (sc.binaryCode id op a b) := by
  refine .onlyIf .nil (.after fun dst => ?_)
  split
  · exact .pure (sc.forget_only hP dst)
  · refine (sc.express_narrow a).bind fun x hx => (sc.express_narrow b).bind fun y hy => ?_
    split
    next x y =>
      have hx := (hx x rfl).simple
      have hy := (hy y rfl).simple
      unfold ruleCode
      split
      · exact sc.arithCode_only hP op _ dst hx hy
      · exact sc.shiftCode_only hP op _ dst y hx
      · exact .pure (.single (hP.bitwise hx hy))
      · exact .pure (sc.forget_only hP dst)
    next => exact .pure (sc.forget_only hP dst)

omit hP in
theorem guardConstraint?_difference (cond : Value) :
    Ensures (fun c? => ∀ c, c? = some c → c.Difference) (sc.guardConstraint? cond) := by
  unfold guardConstraint?
  split
  · refine (sc.comparisonConstraints_difference _ _ _ false).bind fun cs hcs => ?_
    split
    · refine .pure ?_
      rintro _ ⟨⟩
      exact hcs _ List.mem_cons_self
    · exact .pure nofun
  · exact .pure nofun

theorem selectCode_only (id : InstId) (cond onTrue onFalse : Value) :
    Ensures (Only P) (sc.selectCode id cond onTrue onFalse) := by
  refine .onlyIf .nil (.after fun dst => (sc.express_narrow onTrue).bind fun x hx =>
    (sc.express_narrow onFalse).bind fun y hy => ?_)
  split
  next x y =>
    have hx := (hx x rfl).simple
    have hy := (hy y rfl).simple
    unfold chooseCode
    split
    · refine .pure (.single (hP.assign ?_))
      split
      · exact hy
      · exact hx
    · refine (sc.guardConstraint?_difference cond).bind fun guard hguard => ?_
      split
      next c => exact .pure (.single (hP.selectOn (hguard c rfl) hx hy))
      next =>
        refine .after fun tracked => ?_
        split
        · exact .after fun v => .pure (.single (hP.selectBy hx hy))
        · exact .pure (sc.forget_only hP dst)
  next => exact .pure (sc.forget_only hP dst)

theorem savePhis_only (target : BlockId) (phis : List IncomingPhi) (saved : SavedPhis)
    (hsaved : ∀ p ∈ saved, p.2.Narrow) :
    Ensures (fun r : SavedPhis × List Stmt => (∀ p ∈ r.1, p.2.Narrow) ∧ Only P r.2)
      (sc.savePhis target saved phis) := by
  induction phis generalizing saved with
  | nil => exact .pure ⟨hsaved, .nil⟩
  | cons p rest ih =>
      refine .after fun needed => ?_
      split
      · refine (sc.express_narrow p.value).bind fun e he => ?_
        split
        next => exact ih saved hsaved
        next e =>
          refine .after fun old => ?_
          refine (ih _ (List.forall_mem_cons.2 ⟨.var old, hsaved⟩)).bind fun r hr => .pure ?_
          exact ⟨hr.1, Only.cons_iff.2 ⟨hP.assign (he e rfl).simple, hr.2⟩⟩
      · exact ih saved hsaved

omit hP in
theorem expressBefore_narrow {saved : SavedPhis} (hsaved : ∀ p ∈ saved, p.2.Narrow) (v : Value) :
    Ensures NarrowIfAny (sc.expressBefore saved v) := by
  unfold expressBefore
  split
  next e he =>
    obtain ⟨l₁, l₂, hl, -⟩ := List.lookup_eq_some_iff.1 he
    exact .pure (.some (hsaved (v, e) (by simp [hl])))
  next => exact sc.express_narrow v

theorem assignPhis_only {saved : SavedPhis} (hsaved : ∀ p ∈ saved, p.2.Narrow)
    (phis : List IncomingPhi) : Ensures (Only P) (sc.assignPhis saved phis) := by
  induction phis with
  | nil => exact .pure .nil
  | cons p rest ih =>
      refine .after fun tracked => ?_
      split
      · refine .after fun lhs => (sc.expressBefore_narrow hsaved p.value).bind fun e he => ?_
        split
        next e =>
          exact ih.bind fun l hl => .pure (Only.cons_iff.2 ⟨hP.assign (he e rfl).simple, hl⟩)
        next => exact ih.bind fun l hl => .pure (Only.cons_iff.2 ⟨hP.havoc, hl⟩)
      · exact ih

theorem phiCode_only (target : BlockId) (targetBlock : Block) (pred : BlockId)
    (predName : String) : Ensures (Only P) (sc.phiCode target targetBlock pred predName) := by
  unfold phiCode
  split
  · exact .reject _
  · exact .pure .nil
  · exact .after fun _ => (sc.savePhis_only hP target _ [] (List.forall_mem_nil _)).bind fun r hr =>
      (sc.assignPhis_only hP hr.1 _).bind fun l hl => .pure (Only.append_iff.2 ⟨hr.2, hl⟩)

theorem loadCode_only (id : InstId) (ty : Ty) (ptr : Value) :
    Ensures (Only P) (sc.loadCode id ty ptr) := by
  unfold loadCode
  split
  · refine (sc.express_narrow ptr).bind fun index hindex => ?_
    split
    next index _ =>
      refine .after fun dst => .after fun object => ?_
      split
      next v => exact .pure (.single (hP.assign (.var v)))
      next => exact .after fun _ => .pure (.single (hP.arrayLoad (hindex index rfl).simple))
    next => exact sc.forgetResult_only hP id
  · exact sc.forgetResult_only hP id

theorem storeCode_only (value ptr : Value) : Ensures (Only P) (sc.storeCode value ptr) := by
  refine .after fun ty => ?_
  split
  · split
    · exact .pure .nil
    · refine (sc.express_narrow ptr).bind fun index hindex =>
        (sc.express_narrow value).bind fun stored hstored => ?_
      split
      next index stored =>
        have hstored := (hstored stored rfl).simple
        refine .after fun object => ?_
        split
        · exact .pure (.single (hP.assign hstored))
        · exact .after fun _ =>
            .pure (.single (hP.arrayStore (hindex index rfl).simple hstored))
      next => exact .pure .nil
  · exact .pure .nil

omit sc in
theorem zeroedCode_only (cell? : Option Cell) : Ensures (Only P) (zeroedCode cell?) := by
  unfold zeroedCode
  split
  · exact .after fun _ => .pure (.single hP.assumeArray)
  · exact .pure .nil

theorem allocaCode_only (id : InstId) : Ensures (Only P) (sc.allocaCode id) := by
  unfold allocaCode
  split
  · exact zeroedCode_only hP _
  · exact .pure .nil

theorem scaledCode_only (dst : Var) (steps : List IndexStep) :
    Ensures (fun r : List Stmt × Bool => Only P r.1) (sc.scaledCode dst steps) := by
  induction steps with
  | nil => exact .pure .nil
  | cons step rest ih =>
      cases step with
      | offset _ => exact ih
      | scaled index size =>
          refine (sc.express_narrow index).bind fun e he => ?_
          split
          next => exact .pure (sc.forget_only hP dst)
          next e =>
            refine .after fun v => ih.bind fun r hr => .pure ?_
            exact Only.cons_iff.2 ⟨hP.arith (he e rfl).simple (.const size),
              Only.cons_iff.2 ⟨hP.arith (.var dst) (.var v), hr⟩⟩

theorem stepsCode_only (dst : Var) {base : AffineForm} (hbase : base.Simple)
    (steps : List IndexStep) : Ensures (Only P) (sc.stepsCode dst base steps) := by
  unfold stepsCode
  split
  · exact .pure (sc.forget_only hP dst)
  next offset _ =>
    split
    · exact .pure (.single (hP.arith hbase (.const offset)))
    · refine (sc.scaledCode_only hP dst steps).bind fun r hr => .pure ?_
      refine Only.cons_iff.2 ⟨hP.assign hbase, Only.append_iff.2 ⟨hr, ?_⟩⟩
      split
      · exact .single (hP.arith (.var dst) (.const offset))
      · exact .nil

theorem addressCode_only (id : InstId) (base : Value) (sourceTy : Ty) (indices : List Value) :
    Ensures (Only P) (sc.addressCode id base sourceTy indices) := by
  refine .onlyIf .nil (.after fun dst => .after fun wanted => ?_)
  split
  · refine (sc.express_narrow base).bind fun ptr hptr => ?_
    split
    next => exact .pure (sc.forget_only hP dst)
    next ptr => exact .after fun steps => sc.stepsCode_only hP dst (hptr ptr rfl).simple steps
  · exact .pure (sc.forget_only hP dst)

theorem passed_only (v : Value) :
    Ensures (fun r : TypedVar × List Stmt => Only P r.2) (sc.passed v) := by
  unfold passed
  split
  · refine .after fun tmp => ?_
    split
    · refine (sc.express_narrow v).bind fun e he => ?_
      split
      next e => exact .pure (.single (hP.assign (he e rfl).simple))
      next => exact .pure (.single hP.havoc)
    · exact .pure (.single hP.havoc)
  · exact .after fun _ => .after fun _ => .pure .nil

theorem passScalars_only (args : List Value) :
    Ensures (fun r : List TypedVar × List Stmt => Only P r.2) (sc.passScalars args) := by
  induction args with
  | nil => exact .pure .nil
  | cons arg rest ih =>
      refine .after fun isPassed => ?_
      split
      · exact (sc.passed_only hP arg).bind fun p hp =>
          ih.bind fun r hr => .pure (Only.append_iff.2 ⟨hp, hr⟩)
      · exact ih

omit sc in
theorem passCells_only (effects : Effects) :
    Ensures (fun r : List TypedVar × List Stmt => Only P r.2) (passCells effects) := by
  have copies : ∀ cells,
      Ensures (fun r : List TypedVar × List Stmt => Only P r.2) (passCopies cells) := by
    intro cells
    induction cells with
    | nil => exact .pure .nil
    | cons c rest ih =>
        refine .after fun array => .after fun copy => ih.bind fun r hr => .pure ?_
        exact Only.cons_iff.2 ⟨hP.assign (.var array), Only.cons_iff.2 ⟨hP.havoc, hr⟩⟩
  exact (copies _).bind fun r hr => .after fun cells => .pure hr

theorem unmodelledCallCode_only (id : InstId) :
    Ensures (Only P) (sc.unmodelledCallCode id) := by
  have cells : ∀ cells, Ensures (Only P) (forgetCells cells) := by
    intro cells
    induction cells with
    | nil => exact .pure .nil
    | cons c rest ih =>
        exact .after fun _ => ih.bind fun l hl => .pure (Only.cons_iff.2 ⟨hP.havoc, hl⟩)
  refine (sc.forgetResult_only hP id).bind fun result hr => ?_
  split
  · exact (cells _).bind fun l hl => .pure (Only.append_iff.2 ⟨hr, hl⟩)
  · exact (Ensures.pure (Q := Only P) .nil).bind fun l hl => .pure (Only.append_iff.2 ⟨hr, hl⟩)

theorem memorySetCode_only (args : List Value) : Ensures (Only P) (sc.memorySetCode args) := by
  unfold memorySetCode
  split
  · split
    · exact .pure .nil
    · refine .after fun e => ?_
      split
      · exact .pure .nil
      · exact .after fun _ => .pure (.pair hP.havoc hP.assumeArray)
  · exact .pure .nil

theorem memoryCopyCode_only (args : List Value) : Ensures (Only P) (sc.memoryCopyCode args) := by
  unfold memoryCopyCode
  split
  · split
    · exact .after fun _ => .after fun src => .pure (.pair hP.havoc (hP.assign (.var src)))
    · exact .pure .nil
  · exact .pure .nil

theorem returnCode_only (value : Value) : Ensures (Only P) (sc.returnCode value) :=
  .onlyIf .nil ((sc.passed_only hP value).bind fun _ hr =>
    .pure (Only.append_iff.2 ⟨hr, .single hP.ret⟩))

omit sc in
theorem receiveCells_only (effects : Effects) :
    Ensures (fun r : List TypedVar × List Stmt => Only P r.2) (receiveCells effects) := by
  have copies : ∀ cells,
      Ensures (fun r : List TypedVar × List Stmt => Only P r.2) (receiveCopies cells) := by
    intro cells
    induction cells with
    | nil => exact .pure .nil
    | cons c rest ih =>
        exact .after fun _ => .after fun copy => ih.bind fun r hr =>
          .pure (Only.cons_iff.2 ⟨hP.assign (.var copy), hr⟩)
  exact (copies _).bind fun r hr => .after fun cells => .pure hr

theorem signature_only :
    Ensures (fun r : Declaration × List Stmt => Only P r.2) sc.signature := by
  refine .after fun scalars => ?_
  dsimp only
  split
  · exact (receiveCells_only hP _).bind fun r hr => .after fun name => .pure hr
  · exact .bind (R := fun r : List TypedVar × List Stmt => Only P r.2) (.pure .nil)
      fun r hr => .after fun name => .pure hr

omit sc in
theorem contentsCode_only (program : Module) (cell : Cell) (init : Initializer) :
    Ensures (Only P) (contentsCode program cell init) := by
  unfold contentsCode
  split
  · exact .after fun _ => .pure (.single hP.assumeArray)
  · split
    · exact .after fun _ => .pure (.single hP.arrayInit)
    · exact .pure .nil
  · exact .pure .nil

theorem memoryCode_only : Ensures (Only P) sc.memoryCode := by
  have zeroed : ∀ cells, Ensures (Only P) (newCellsCode cells) := by
    intro cells
    induction cells with
    | nil => exact .pure .nil
    | cons c rest ih =>
        exact .after fun _ => ih.bind fun l hl => .pure (Only.cons_iff.2 ⟨hP.assumeArray, hl⟩)
  have globals : ∀ ids, Ensures (Only P) (sc.globalsCode ids) := by
    intro ids
    induction ids with
    | nil => exact .pure .nil
    | cons id rest ih =>
        unfold globalsCode
        split
        · exact (contentsCode_only hP _ _ _).bind fun stmts hs =>
            ih.bind fun l hl => .pure (Only.append_iff.2 ⟨hs, hl⟩)
        · exact ih
  refine (zeroed _).bind fun z hz => ?_
  dsimp only
  split
  · exact (globals _).bind fun l hl => .pure (Only.append_iff.2 ⟨hz, hl⟩)
  · exact (Ensures.pure (Q := Only P) .nil).bind fun l hl => .pure (Only.append_iff.2 ⟨hz, hl⟩)

theorem prologue_only :
    Ensures (fun r : Option Declaration × List Stmt => Only P r.2) sc.prologue := by
  have finish : ∀ r : Option Declaration × List Stmt, Only P r.2 →
      Ensures (fun r : Option Declaration × List Stmt => Only P r.2)
        (do return (r.1, r.2 ++ (← if sc.modelsMemory then sc.memoryCode else pure []))) := by
    intro r hr
    dsimp only
    split
    · refine (sc.memoryCode_only hP).bind fun l hl => ?_
      exact .pure (Only.append_iff.2 ⟨hr, hl⟩)
    · refine (Ensures.pure (Q := Only P) .nil).bind fun l hl => ?_
      exact .pure (Only.append_iff.2 ⟨hr, hl⟩)
  unfold prologue
  dsimp only
  split
  · refine (sc.signature_only hP).bind fun r hr => ?_
    exact .bind (R := fun r : Option Declaration × List Stmt => Only P r.2) (.pure hr) finish
  · exact .bind (R := fun r : Option Declaration × List Stmt => Only P r.2) (.pure .nil) finish

end Actions

section Assumptions

variable {P : Stmt → Prop} (hP : Admits P)
include hP

theorem pinTracked_only (cond : Value) (negated : Bool) :
    Ensures (Only P) (sc.pinTracked cond negated) := by
  refine .onlyIf .nil (.after fun v => .pure (.single (hP.assume ?_)))
  refine (AffineForm.Narrow.var v).difference_of_kind ?_ .eq
  split
  · exact .zero
  · exact .const 1 (by decide) (by decide)

theorem comparisonAssumptions_only (cond : Value) (pred : Predicate) (a b : Value)
    (negated : Bool) : Ensures (Only P) (sc.comparisonAssumptions cond pred a b negated) := by
  refine .onlyIf .nil ((sc.comparisonConstraints_difference pred a b negated).bind fun cs hcs => ?_)
  have hassumed := Only.assumptions hP hcs
  split
  · exact (sc.pinTracked_only hP cond negated).bind fun pinned hp =>
      .pure (Only.append_iff.2 ⟨hassumed, hp⟩)
  · exact (Ensures.pure (Q := Only P) .nil).bind fun pinned hp =>
      .pure (Only.append_iff.2 ⟨hassumed, hp⟩)

theorem bothAssumptions_only (a b : Value) (negated : Bool) :
    Ensures (Only P) (sc.bothAssumptions a b negated) := by
  refine .after fun first => .after fun second => ?_
  split
  · refine (sc.comparisonConstraints_difference _ _ _ negated).bind fun left hl =>
      (sc.comparisonConstraints_difference _ _ _ negated).bind fun right hr => .pure ?_
    exact Only.assumptions hP (List.forall_mem_append.2 ⟨hl, hr⟩)
  · exact .pure .nil

theorem connectiveAssumptions_only (cond : Value) (op : BinaryOp) (a b : Value)
    (negated : Bool) : Ensures (Only P) (sc.connectiveAssumptions cond op a b negated) := by
  unfold connectiveAssumptions
  split
  · exact sc.bothAssumptions_only hP a b _
  · exact sc.bothAssumptions_only hP a b _
  · exact .pure .nil
  · exact .pure .nil
  · split
    · exact .onlyIf .nil (.after fun v => .pure (.single hP.havoc))
    · exact .pure .nil

theorem assumptions_only (cond : Value) (negated : Bool) :
    Ensures (Only P) (sc.assumptions cond negated) := by
  unfold assumptions
  split
  · refine .pure ?_
    split
    · exact .single hP.unreachable
    · exact .nil
  · split
    · exact sc.comparisonAssumptions_only hP _ _ _ _ _
    · exact sc.connectiveAssumptions_only hP _ _ _ _ _
    · exact sc.pinTracked_only hP _ _

theorem assumptionCode_only (negated : Bool) (args : List Value) :
    Ensures (Only P) (sc.assumptionCode negated args) := by
  cases args with
  | nil => exact .pure .nil
  | cons cond rest => exact sc.assumptions_only hP _ _

omit sc in
theorem truthRange_only (v : Var) : Only P (truthRange v) := by
  have hv := AffineForm.Narrow.var v
  refine .pair (hP.assume ?_) (hP.assume ?_)
  · exact AffineForm.Narrow.zero.difference_of_kind hv .le
  · exact hv.difference_of_kind (.const 1 (by decide) (by decide)) .le

theorem castCode_only (id : InstId) (ty : Ty) (op : CastOp) (value : Value) :
    Ensures (Only P) (sc.castCode id ty op value) := by
  unfold castCode
  split
  · exact .pure .nil
  · refine .onlyIf .nil (.after fun dst => (sc.express_narrow value).bind fun src hsrc => ?_)
    split
    next src => exact .pure (.single (hP.assign (hsrc src rfl).simple))
    next =>
      refine .after fun ty => ?_
      split
      · exact .pure (truthRange_only hP dst)
      · exact .pure (sc.forget_only hP.toAdmitsActions dst)

omit sc in
theorem defaultCase_only {e : AffineForm} (he : e.Narrow) (cases : List Int) :
    Only P (defaultCase e cases) := by
  intro stmt hs
  obtain ⟨n, hn, hs⟩ := List.mem_flatMap.1 hs
  obtain ⟨m, -, hm⟩ := List.mem_filterMap.1 hn
  exact Only.assumption hP (he.difference_of_kind (narrow_of_fit64 hm) .ne) stmt hs

omit sc in
theorem matchedCase_only {e : AffineForm} (he : e.Narrow) (case? : Option Int) :
    Only P (matchedCase e case?) := by
  unfold matchedCase
  split
  next hn =>
    obtain ⟨m, -, hm⟩ := Option.bind_eq_some_iff.1 hn
    exact Only.assumption hP (he.difference_of_kind (narrow_of_fit64 hm) .eq)
  next => exact .nil

theorem edgeCondition_only (term : Terminator) (index : Nat) :
    Ensures (Only P) (sc.edgeCondition term index) := by
  unfold edgeCondition
  split
  · exact sc.assumptions_only hP _ _
  next value _ _ =>
    refine (sc.express_narrow value).bind fun e he => ?_
    split
    · exact .pure .nil
    next e =>
      split
      · exact .pure (defaultCase_only hP (he e rfl) _)
      · exact .pure (matchedCase_only hP (he e rfl) _)
  · exact .pure .nil

end Assumptions

end Scope

end AffineFlow
