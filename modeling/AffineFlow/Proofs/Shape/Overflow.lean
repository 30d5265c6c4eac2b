import AffineFlow.Proofs.Shape.Graph

/-!
# Arithmetic within 128 bits

Forms are computed over exact integers here. The checked operations do the same
computations step by step within 128 bits, and have no result as soon as one
step leaves them. The lowering subtracts forms where it builds constraints, and
adds constants where a comparison is strict; everywhere else it takes forms as
they are. In all of these places the checked computation has a result, and the
same one, because the operands are narrow.
-/
namespace AffineFlow

open Ssa Lowering

namespace AffineForm

def addTerm? (e : AffineForm) (t : Term) : Option AffineForm :=
  if t.2 = 0 then some e
  else (fit128 (e.coefficient t.1 + t.2)).map fun _ => e.addTerm t

def addConst? (e : AffineForm) (c : Int) : Option AffineForm :=
  (fit128 (e.constant + c)).map fun _ => e.addConst c

def add? (a b : AffineForm) : Option AffineForm :=
  (b.terms.foldlM addTerm? a).bind (addConst? · b.constant)

def scale? (k : Int) (e : AffineForm) : Option AffineForm :=
  if k = 0 then some (const 0)
  else if e.terms.all fun t => (fit128 (t.2 * k)).isSome then
    (fit128 (e.constant * k)).map fun _ => e.scale k
  else none

def neg? (e : AffineForm) : Option AffineForm := e.scale? (-1)

def sub? (a b : AffineForm) : Option AffineForm := b.neg?.bind a.add?

theorem fit128_eq {n : Int} (ge : -2 ^ 66 ≤ n) (le : n ≤ 2 ^ 66) : fit128 n = some n := by
  refine if_pos ⟨?_, ?_⟩
  · exact Int.le_trans (by decide) ge
  · exact Int.le_trans le (by decide)

variable {a b e : AffineForm}

theorem addConst?_eq {c : Int} (ge : -2 ^ 66 ≤ e.constant + c) (le : e.constant + c ≤ 2 ^ 66) :
    e.addConst? c = some (e.addConst c) := by
  rw [addConst?, fit128_eq ge le, Option.map_some]

/-- The form is simple up to a constant of 64 bits and a sign. -/
structure Tame (e : AffineForm) : Prop where
  terms : e.terms = [] ∨ ∃ v, e.terms = [(v, 1)]
  ge : -2 ^ 64 ≤ e.constant
  le : e.constant ≤ 2 ^ 64

theorem Narrow.tame (h : e.Narrow) {k : Int} (hge : -1 ≤ k) (hle : k ≤ 1) :
    (e.addConst k).Tame := by
  obtain ⟨ge, lt⟩ := h.constant_bounds
  have hconst : (e.addConst k).constant = e.constant + k := rfl
  refine ⟨?_, by omega, by omega⟩
  cases h with
  | var v => exact .inr ⟨v, rfl⟩
  | const c _ _ => exact .inl rfl

theorem Tame.neg?_eq (h : e.Tame) : e.neg? = some (-e) := by
  have hterms : (e.terms.all fun t => (fit128 (t.2 * -1)).isSome) = true := by
    rcases h.terms with ht | ⟨v, ht⟩
    · rw [ht]
      rfl
    · rw [ht]
      rfl
  obtain ⟨-, ge, le⟩ := h
  have hconst : fit128 (e.constant * -1) = some (e.constant * -1) :=
    fit128_eq (by omega) (by omega)
  rw [neg?, scale?, if_neg (by decide), if_pos hterms, hconst, Option.map_some]
  rfl

theorem Tame.addTerm?_eq (h : e.Tame) (w : Var) :
    e.addTerm? (w, -1) = some (e.addTerm (w, -1)) := by
  have hcoefficient : e.coefficient w = 0 ∨ e.coefficient w = 1 := by
    unfold coefficient
    rcases h.terms with ht | ⟨v, ht⟩
    · rw [ht]
      exact .inl rfl
    · rw [ht, List.lookup_cons]
      split
      · exact .inr rfl
      · exact .inl rfl
  have hsum : fit128 (e.coefficient w + -1) = some (e.coefficient w + -1) :=
    fit128_eq (by omega) (by omega)
  simp only [addTerm?, hsum, Option.map_some]
  rfl

theorem Tame.sub?_eq (ha : a.Tame) (hb : b.Tame) : a.sub? b = some (a - b) := by
  have hneg : (-b).constant = -b.constant := by rw [← eval_zero, eval_neg, eval_zero]
  have hconst : ∀ e : AffineForm, e.constant = a.constant →
      e.addConst? (-b).constant = some (e.addConst (-b).constant) := by
    intro e he
    have hge := ha.ge
    have hle := ha.le
    have hge' := hb.ge
    have hle' := hb.le
    exact addConst?_eq (by omega) (by omega)
  have hterms : (-b).terms = b.terms.map fun t => (t.1, t.2 * -1) := rfl
  rw [sub?, hb.neg?_eq, Option.bind_some]
  show a.add? (-b) = some (a.add (-b))
  rcases hb.terms with ht | ⟨w, ht⟩
  · rw [ht] at hterms
    rw [add?, add, hterms]
    exact hconst a rfl
  · rw [ht] at hterms
    have hterms : (-b).terms = [(w, -1)] := hterms
    rw [add?, add, hterms, List.foldlM_cons, ha.addTerm?_eq]
    exact hconst _ rfl

end AffineForm

/-- Checked comparison of two forms. -/
def Constraint.compare? (kind : Constraint.Kind) (a b : AffineForm) : Option Constraint :=
  (a.sub? b).map (⟨·, kind⟩)

/-- `orderConstraint` by checked operations. -/
def orderConstraint? (pred : Predicate) (negated : Bool) (a b : AffineForm) : Option Constraint :=
  match pred, negated with
  | .eq, false | .ne, true => Constraint.compare? .eq a b
  | .eq, true | .ne, false => Constraint.compare? .ne a b
  | .slt, false | .ult, false => (b.addConst? (-1)).bind (Constraint.compare? .le a)
  | .slt, true | .ult, true => Constraint.compare? .le b a
  | .sle, false | .ule, false => Constraint.compare? .le a b
  | .sle, true | .ule, true => (b.addConst? 1).bind (Constraint.compare? .le · a)
  | .sgt, false | .ugt, false => (a.addConst? (-1)).bind (Constraint.compare? .le b)
  | .sgt, true | .ugt, true => Constraint.compare? .le a b
  | .sge, false | .uge, false => Constraint.compare? .le b a
  | .sge, true | .uge, true => (a.addConst? 1).bind (Constraint.compare? .le · b)

/-- `signConstraints` by checked operations. -/
def signConstraints? (pred : Predicate) (a b : AffineForm) : Option (List Constraint) :=
  if pred.isUnsigned then
    ([a, b].filter (·.isVar)).mapM fun e => Constraint.compare? .le (.const 0) e
  else some []

/-- `pin` by checked operations. -/
def pin? (v : Var) (negated : Bool) : Option Stmt :=
  (Constraint.compare? .eq (.ofVar v) (.const (if negated then 0 else 1))).map .assume

/-- `truthRange` by checked operations. -/
def truthRange? (v : Var) : Option (List Stmt) := do
  let lower ← Constraint.compare? .le (.const 0) (.ofVar v)
  let upper ← Constraint.compare? .le (.ofVar v) (.const 1)
  return [.assume lower, .assume upper]

/-- `defaultCase` by checked operations. -/
def defaultCase? (e : AffineForm) (cases : List Int) : Option (List Stmt) :=
  ((cases.filterMap fit64).mapM fun n => Constraint.compare? .ne e (.const n)).map
    (·.flatMap (·.assumption))

/-- `matchedCase` by checked operations. -/
def matchedCase? (e : AffineForm) (case? : Option Int) : Option (List Stmt) :=
  match case?.bind fit64 with
  | some n => (Constraint.compare? .eq e (.const n)).map (·.assumption)
  | none => some []

theorem mapM_eq_some {α β : Type} {f : α → Option β} {g : α → β} {l : List α}
    (h : ∀ x ∈ l, f x = some (g x)) : l.mapM f = some (l.map g) := by
  induction l with
  | nil => rfl
  | cons x rest ih =>
      obtain ⟨hx, hrest⟩ := List.forall_mem_cons.1 h
      rw [List.mapM_cons, hx, ih hrest]
      rfl

namespace AffineForm.Narrow

variable {a b e : AffineForm}

theorem compare?_addConst (ha : a.Narrow) (hb : b.Narrow) (kind : Constraint.Kind) (j k : Int)
    (hj : -1 ≤ j ∧ j ≤ 1) (hk : -1 ≤ k ∧ k ≤ 1) :
    Constraint.compare? kind (a.addConst j) (b.addConst k) =
      some ⟨a.addConst j - b.addConst k, kind⟩ := by
  rw [Constraint.compare?, (ha.tame hj.1 hj.2).sub?_eq (hb.tame hk.1 hk.2), Option.map_some]

theorem compare?_eq (ha : a.Narrow) (hb : b.Narrow) (kind : Constraint.Kind) :
    Constraint.compare? kind a b = some ⟨a - b, kind⟩ := by
  have h := ha.compare?_addConst hb kind 0 0 (by decide) (by decide)
  rwa [addConst_zero, addConst_zero] at h

theorem addConst?_eq (h : e.Narrow) {k : Int} (hk : -1 ≤ k ∧ k ≤ 1) :
    e.addConst? k = some (e.addConst k) := by
  obtain ⟨ge, lt⟩ := h.constant_bounds
  exact AffineForm.addConst?_eq (by omega) (by omega)

theorem orderConstraint?_eq (ha : a.Narrow) (hb : b.Narrow) (pred : Predicate) (negated : Bool) :
    orderConstraint? pred negated a b = some (AffineFlow.orderConstraint pred negated a b) := by
  have below {x y : AffineForm} (hx : x.Narrow) (hy : y.Narrow) :
      (y.addConst? (-1)).bind (Constraint.compare? .le x) =
        some (Constraint.le x (y.addConst (-1))) := by
    have h := hx.compare?_addConst hy .le 0 (-1) (by decide) (by decide)
    rw [addConst_zero] at h
    rw [hy.addConst?_eq (by decide), Option.bind_some, h]
    rfl
  have above {x y : AffineForm} (hx : x.Narrow) (hy : y.Narrow) :
      (y.addConst? 1).bind (Constraint.compare? .le · x) =
        some (Constraint.ge x (y.addConst 1)) := by
    have h := hy.compare?_addConst hx .le 1 0 (by decide) (by decide)
    rw [addConst_zero] at h
    rw [hy.addConst?_eq (by decide), Option.bind_some, h]
    rfl
  cases pred <;> cases negated
  all_goals first
    | exact ha.compare?_eq hb _
    | exact hb.compare?_eq ha _
    | exact below ha hb
    | exact below hb ha
    | exact above ha hb
    | exact above hb ha

theorem signConstraints?_eq (ha : a.Narrow) (hb : b.Narrow) (pred : Predicate) :
    signConstraints? pred a b = some (AffineFlow.signConstraints pred a b) := by
  unfold signConstraints? AffineFlow.signConstraints
  split
  · refine mapM_eq_some fun e he => zero.compare?_eq ?_ .le
    rcases List.mem_pair.1 (List.mem_filter.1 he).1 with rfl | rfl
    · exact ha
    · exact hb
  · rfl

theorem defaultCase?_eq (h : e.Narrow) (cases : List Int) :
    defaultCase? e cases = some (defaultCase e cases) := by
  have hall : (cases.filterMap fit64).mapM (fun n => Constraint.compare? .ne e (.const n)) =
      some ((cases.filterMap fit64).map fun n => Constraint.ne e (.const n)) := by
    refine mapM_eq_some fun n hn => ?_
    obtain ⟨m, -, hm⟩ := List.mem_filterMap.1 hn
    exact h.compare?_eq (narrow_of_fit64 hm) .ne
  rw [defaultCase?, hall, Option.map_some, List.flatMap_map]
  rfl

theorem matchedCase?_eq (h : e.Narrow) (case? : Option Int) :
    matchedCase? e case? = some (matchedCase e case?) := by
  unfold matchedCase? matchedCase
  cases hcase : case?.bind fit64 with
  | none => rfl
  | some n =>
      obtain ⟨m, -, hm⟩ := Option.bind_eq_some_iff.1 hcase
      simp only [h.compare?_eq (narrow_of_fit64 hm) .eq, Option.map_some]
      rfl

end AffineForm.Narrow

theorem pin?_eq (v : Var) (negated : Bool) : pin? v negated = some (pin v negated) := by
  have htruth : (AffineForm.const (if negated then 0 else 1)).Narrow := by
    split
    · exact .zero
    · exact .const 1 (by decide) (by decide)
  rw [pin?, (AffineForm.Narrow.var v).compare?_eq htruth .eq]
  rfl

theorem truthRange?_eq (v : Var) : truthRange? v = some (truthRange v) := by
  have hv := AffineForm.Narrow.var v
  have hone : (AffineForm.const 1).Narrow := .const 1 (by decide) (by decide)
  rw [truthRange?, AffineForm.Narrow.zero.compare?_eq hv .le, hv.compare?_eq hone .le]
  rfl

namespace Scope

variable (sc : Scope)

/-- `comparisonConstraints` by checked operations. -/
def comparisonConstraints? (pred : Predicate) (a b : Value) (negated : Bool) :
    Lowering (Option (List Constraint)) := do
  let (pred, a, b) := orient pred a b
  let x ← sc.express a
  let y ← sc.express b
  match x, y with
  | some x, some y =>
      return do return (← signConstraints? pred x y) ++ [← orderConstraint? pred negated x y]
  | _, _ => return some []

/-- What holds on an edge of a switch, by checked operations. -/
def switchCondition? (value : Value) (cases : List Int) (index : Nat) :
    Lowering (Option (List Stmt)) := do
  match ← sc.express value with
  | none => return some []
  | some e =>
      match index with
      | 0 => return defaultCase? e cases
      | i + 1 => return matchedCase? e cases[i]?

theorem comparisonConstraints?_eq (pred : Predicate) (a b : Value) (negated : Bool) :
    sc.comparisonConstraints? pred a b negated =
      some <$> sc.comparisonConstraints pred a b negated := by
  unfold comparisonConstraints? comparisonConstraints
  simp only [map_bind]
  refine (sc.express_narrow _).bind_congr fun x hx => ?_
  refine (sc.express_narrow _).bind_congr fun y hy => ?_
  cases x with
  | none => rfl
  | some x =>
  cases y with
  | none => rfl
  | some y =>
      simp only [(hx x rfl).signConstraints?_eq (hy y rfl),
        (hx x rfl).orderConstraint?_eq (hy y rfl)]
      rfl

theorem switchCondition?_eq (value : Value) (cases : List Int) (targets : List BlockId)
    (index : Nat) : sc.switchCondition? value cases index =
      some <$> sc.edgeCondition (.switch value cases targets) index := by
  unfold switchCondition? edgeCondition
  simp only [map_bind]
  refine (sc.express_narrow _).bind_congr fun x hx => ?_
  cases x with
  | none => rfl
  | some x =>
  cases index with
  | zero =>
      simp only [(hx x rfl).defaultCase?_eq]
      rfl
  | succ i =>
      simp only [(hx x rfl).matchedCase?_eq]
      rfl

/-- No arithmetic on forms overflows: wherever the lowering does any, the checked computation ends
with the same result. -/
structure Fits : Prop where
  comparison : ∀ pred a b negated, sc.comparisonConstraints? pred a b negated =
    some <$> sc.comparisonConstraints pred a b negated
  switch : ∀ value cases targets index, sc.switchCondition? value cases index =
    some <$> sc.edgeCondition (.switch value cases targets) index
  pinned : ∀ v negated, pin? v negated = some (pin v negated)
  range : ∀ v, truthRange? v = some (truthRange v)

theorem fits : sc.Fits :=
  ⟨sc.comparisonConstraints?_eq, sc.switchCondition?_eq, pin?_eq, truthRange?_eq⟩

end Scope

/-- Whatever the module, the oracle, the settings and the constants in the source, a graph is made
of variables, constants and narrow differences, and the forms in it are computed without
overflow. -/
theorem functionGraph_regular (program : Module) (id : FuncId) (oracle : Oracle)
    (settings : Settings) :
    (∀ s g s', Yields (functionGraph program id oracle settings) s g s' →
      ∀ k n, g.nodes.get? k = some n → ∀ stmt ∈ n.stmts, stmt.Regular) ∧
    ∀ sc, Scope.ofFunction program id oracle settings = .ok sc → sc.Fits := by
  constructor
  · intro s g s' h k n hn
    obtain ⟨sc, -, hgraph⟩ := functionGraph_scope h
    have hcall : ∀ site, (Stmt.call site).Regular := fun _ =>
      ⟨List.forall_mem_nil _, List.forall_mem_nil _⟩
    exact Scope.graph_only Stmt.admits_regular hcall hgraph hn
  · intro sc _
    exact sc.fits

/-- Constants at the ends of 64 bits, and at the end of 128. -/
def extreme : Function where
  name := "extreme"
  params := [⟨"x", .int 64⟩]
  ret := .void
  body := some (Body.ofListing [
    ⟨"entry", [(some "c", .int 1, .compare .slt (.arg 0) (.int 64 (-2 ^ 63)))],
      .condBr (.inst ⟨0⟩) ⟨1⟩ ⟨2⟩⟩,
    ⟨"split", [], .switch (.arg 0) [2 ^ 63 - 1, -2 ^ 63, 2 ^ 127 - 1] [⟨2⟩, ⟨2⟩, ⟨2⟩, ⟨2⟩]⟩,
    ⟨"done", [], .ret none⟩])

theorem functionGraph_regular_extreme :
    (∃ g s', Yields (functionGraph { funcs := #[extreme] } ⟨0⟩ .silent {}) {} g s' ∧
      ∀ k n, g.nodes.get? k = some n → ∀ stmt ∈ n.stmts, stmt.Regular) ∧
    ∃ sc, Scope.ofFunction { funcs := #[extreme] } ⟨0⟩ .silent {} = .ok sc ∧ sc.Fits := by
  obtain ⟨hregular, hfits⟩ := functionGraph_regular { funcs := #[extreme] } ⟨0⟩ .silent {}
  constructor
  · obtain ⟨g, s', h⟩ : ∃ g s',
        Yields (functionGraph { funcs := #[extreme] } ⟨0⟩ .silent {}) {} g s' :=
      exists_of_endsWell (by decide +kernel)
    exact ⟨g, s', h, hregular _ g s' h⟩
  · exact ⟨_, rfl, hfits _ rfl⟩

end AffineFlow
