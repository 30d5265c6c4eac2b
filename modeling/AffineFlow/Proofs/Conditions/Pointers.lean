import AffineFlow.Proofs.Conditions.Comparisons
import AffineFlow.Proofs.Memory.Home

/-!
# Pointers in assumptions

Where only integers flow into the graph, a comparison of pointers that is itself
the condition is left out. A conjunction that is true and a disjunction that is
false are split into their operands, and there the types of what is compared are
not looked at. So a pointer comes into an assumption just if it is compared
beneath such a connective, and does not stand on both sides.
-/
namespace AffineFlow

open Ssa Lowering

/-- A comparison of two values. -/
abbrev Comparison := Predicate × Value × Value

namespace Scope

variable {sc : Scope} {F : VarSupply} {s s' : Session} {pred q : Predicate} {negated : Bool}
  {a b u v w cond : Value} {x y : AffineForm} {z : Var} {c : Constraint} {cs : List Constraint}
  {code : List Stmt}

/-- The constraint has the variable of a pointer. -/
def MentionsPointer (sc : Scope) (F : VarSupply) (c : Constraint) : Prop :=
  ∃ v z, sc.typeOf v = .ok .ptr ∧ sc.Denotes F v z ∧ ∃ t ∈ c.form.terms, t.1 = z

/-- One of the statements assumes something of a pointer. -/
def AssumesPointer (sc : Scope) (F : VarSupply) (code : List Stmt) : Prop :=
  ∃ c, .assume c ∈ code ∧ sc.MentionsPointer F c

/-- Both sides can be expressed, one of them is a pointer with a variable, and it is not
subtracted from itself. -/
def ComparesPointer (sc : Scope) (pred : Predicate) (a b : Value) : Prop :=
  sc.isExpressible a = true ∧ sc.isExpressible b = true ∧
    (∃ v, (v = a ∨ v = b) ∧ v.isLiteral = false ∧ sc.typeOf v = .ok .ptr) ∧
    (pred.isUnsigned = true ∨ a ≠ b)

/-- For this outcome, the condition says the same of each of two comparisons. -/
def SplitsInto (sc : Scope) (cond : Value) (negated : Bool) (left right : Comparison) : Prop :=
  ∃ op a b, sc.body.kind? cond = some (.binary op a b) ∧
    (op = .and ∧ negated = false ∨ op = .or ∧ negated = true) ∧
    sc.comparison? a = .ok (some left) ∧ sc.comparison? b = .ok (some right)

/-- For this outcome, the condition is split, and one of the parts compares a pointer. -/
def LeaksPointer (sc : Scope) (cond : Value) (negated : Bool) : Prop :=
  ∃ left right, sc.SplitsInto cond negated left right ∧
    (sc.ComparesPointer left.1 left.2.1 left.2.2 ∨ sc.ComparesPointer right.1 right.2.1 right.2.2)

theorem ComparesPointer.symm (h : sc.ComparesPointer pred a b) : sc.ComparesPointer pred b a := by
  obtain ⟨ha, hb, ⟨v, hv, hpointer⟩, hkept⟩ := h
  exact ⟨hb, ha, ⟨v, hv.symm, hpointer⟩, hkept.imp_right Ne.symm⟩

theorem coefficient_orderConstraint_ne_zero_iff :
    (orderConstraint pred negated x y).form.coefficient z ≠ 0 ↔
      x.coefficient z ≠ y.coefficient z := by
  cases pred <;> cases negated <;>
    simp only [orderConstraint, Constraint.eq, Constraint.ne, Constraint.ge, Constraint.le,
      AffineForm.coefficient_sub, AffineForm.coefficient_addConst] <;>
    omega

/-- An operand of a comparison has the variable if a constraint has it. -/
theorem coefficient_of_comparison {e₁ e₂ : AffineForm}
    (hc : c ∈ signConstraints q e₁ e₂ ++ [orderConstraint q negated e₁ e₂])
    (hz : c.form.coefficient z ≠ 0) :
    (e₁.coefficient z ≠ 0 ∨ e₂.coefficient z ≠ 0) ∧ (q.isUnsigned = true ∨ e₁ ≠ e₂) := by
  rcases List.mem_append.1 hc with hc | hc
  · unfold signConstraints at hc
    split at hc
    next hunsigned =>
      obtain ⟨e, he, rfl⟩ := List.mem_map.1 hc
      have hcoefficient : e.coefficient z ≠ 0 := by
        simp only [Constraint.ge, Constraint.le, AffineForm.coefficient_sub,
          AffineForm.coefficient_const] at hz
        omega
      refine ⟨?_, .inl hunsigned⟩
      rcases List.mem_pair.1 (List.mem_filter.1 he).1 with rfl | rfl
      · exact .inl hcoefficient
      · exact .inr hcoefficient
    next => cases hc
  · obtain rfl := List.mem_singleton.1 hc
    have hdiffer := coefficient_orderConstraint_ne_zero_iff.1 hz
    refine ⟨?_, .inr fun he => hdiffer (he ▸ rfl)⟩
    by_contra hnone
    push Not at hnone
    exact hdiffer (hnone.1.trans hnone.2.symm)

/-- A form has the variable of its value and no other one. -/
theorem denotes_of_coefficient (hx : sc.form? F v = some x) (hz : x.coefficient z ≠ 0) :
    sc.Denotes F v z := by
  obtain ⟨t, ht, rfl⟩ := AffineForm.coefficient_ne_zero_iff.1 hz
  exact (form?_denotes hx ht).2

/-- The variable of one operand stays in a constraint, unless the other operand takes it away. -/
theorem exists_mention_of_operand (hx : sc.form? F u = some x) (hy : sc.form? F w = some y)
    (hv : (v = u ∨ v = w) ∧ v.isLiteral = false) (hty : sc.typeOf v = .ok .ptr)
    (hkept : q.isUnsigned = true ∨ u ≠ w) :
    ∃ c ∈ signConstraints q x y ++ [orderConstraint q negated x y], sc.MentionsPointer F c := by
  obtain ⟨hside, hliteral⟩ := hv
  obtain ⟨z, hz, hform⟩ : ∃ z, sc.Denotes F v z ∧
      (v = u ∧ x = .ofVar z ∨ v = w ∧ y = .ofVar z) := by
    rcases hside with rfl | rfl
    · obtain ⟨-, z, hz, rfl⟩ := (form?_eq_some_iff hliteral).1 hx
      exact ⟨z, hz, .inl ⟨rfl, rfl⟩⟩
    · obtain ⟨-, z, hz, rfl⟩ := (form?_eq_some_iff hliteral).1 hy
      exact ⟨z, hz, .inr ⟨rfl, rfl⟩⟩
  have mention : ∀ c : Constraint, c.form.coefficient z ≠ 0 → sc.MentionsPointer F c :=
    fun c hc => ⟨v, z, hty, hz, AffineForm.coefficient_ne_zero_iff.1 hc⟩
  have hother : ∀ {o : Value} {e : AffineForm}, sc.form? F o = some e → v ≠ o →
      e.coefficient z = 0 := by
    intro o e he hne
    by_contra hcoefficient
    exact hne (hz.value_unique (denotes_of_coefficient he hcoefficient))
  rcases hkept with hunsigned | hne
  · refine ⟨.ge (.ofVar z) (.const 0), List.mem_append_left _ ?_, mention _ ?_⟩
    · rw [signConstraints, if_pos hunsigned]
      refine List.mem_map.2 ⟨.ofVar z, List.mem_filter.2 ⟨?_, rfl⟩, rfl⟩
      rcases hform with ⟨-, rfl⟩ | ⟨-, rfl⟩
      · exact .head _
      · exact .tail _ (.head _)
    · simp [Constraint.ge, Constraint.le, AffineForm.coefficient_sub, AffineForm.coefficient_const,
        AffineForm.coefficient_ofVar]
  · refine ⟨_, List.mem_append_right _ (.head _), mention _ ?_⟩
    rw [coefficient_orderConstraint_ne_zero_iff]
    rcases hform with ⟨rfl, rfl⟩ | ⟨rfl, rfl⟩
    · rw [AffineForm.coefficient_ofVar, hother hy hne]
      decide
    · rw [AffineForm.coefficient_ofVar, hother hx hne.symm]
      decide

/-- The constraints of a comparison have a pointer just if it compares one. -/
theorem comparisonConstraints_mention_iff
    (h : Yields (sc.comparisonConstraints pred a b negated) s cs s') (hF : s'.supply.Extends F) :
    (∃ c ∈ cs, sc.MentionsPointer F c) ↔ sc.ComparesPointer pred a b := by
  obtain ⟨⟨q, u, w⟩, horient⟩ : ∃ o, orient pred a b = o := ⟨_, rfl⟩
  obtain ⟨hunsigned, hplaces⟩ := orient_spec horient
  have hordered : (∃ c ∈ cs, sc.MentionsPointer F c) ↔ sc.ComparesPointer q u w := by
    rcases comparisonConstraints_forms h hF horient with ⟨x, y, hx, hy, rfl⟩ | ⟨hnot, rfl⟩
    · constructor
      · intro hmention
        obtain ⟨c, hc, v, z, hty, hz, hterm⟩ := hmention
        obtain ⟨hside, hkept⟩ :=
          coefficient_of_comparison hc (AffineForm.coefficient_ne_zero_iff.2 hterm)
        refine ⟨isExpressible_of_form? hx, isExpressible_of_form? hy, ⟨v, ?_, hz.not_literal, hty⟩,
          hkept.imp_right fun hne he => ?_⟩
        · exact hside.imp (fun hz' => hz.value_unique (denotes_of_coefficient hx hz'))
            fun hz' => hz.value_unique (denotes_of_coefficient hy hz')
        · subst he
          exact hne (Option.some.inj (hx.symm.trans hy))
      · intro hcompares
        obtain ⟨-, -, ⟨v, hv, hliteral, hty⟩, hkept⟩ := hcompares
        exact exists_mention_of_operand hx hy ⟨hv, hliteral⟩ hty hkept
    · constructor
      · intro hmention
        obtain ⟨c, hc, -⟩ := hmention
        cases hc
      · intro hcompares
        obtain ⟨hu, hw, -⟩ := hcompares
        simp [hu, hw] at hnot
  have hpred : sc.ComparesPointer q u w ↔ sc.ComparesPointer pred u w := by
    rw [ComparesPointer, ComparesPointer, hunsigned]
  rw [hordered, hpred]
  rcases hplaces with ⟨rfl, rfl, -⟩ | ⟨rfl, rfl, -⟩
  · rfl
  · exact ⟨.symm, .symm⟩

theorem assumesPointer_map_iff :
    sc.AssumesPointer F (cs.map .assume) ↔ ∃ c ∈ cs, sc.MentionsPointer F c := by
  simp [AssumesPointer]

/-- A constraint on a form without the variable of a pointer. -/
theorem not_mentionsPointer_of_form (hx : sc.form? F v = some x) (hv : sc.isInteger v = true)
    (hc : ∀ z, c.form.coefficient z ≠ 0 → x.coefficient z ≠ 0) : ¬sc.MentionsPointer F c := by
  intro hmention
  obtain ⟨u, z, hty, hz, hterm⟩ := hmention
  have hcoefficient := hc z (AffineForm.coefficient_ne_zero_iff.2 hterm)
  obtain rfl := hz.value_unique (denotes_of_coefficient hx hcoefficient)
  have hint := hasIntType_of_isInteger hv
  rw [hasIntType, hty] at hint
  cases hint

theorem pinTracked_assumes (hcond : sc.isInteger cond = true)
    (h : Yields (sc.pinTracked cond negated) s code s') (hF : s'.supply.Extends F) :
    ¬sc.AssumesPointer F code := by
  intro hassumes
  obtain ⟨c, hc, hmention⟩ := hassumes
  rcases yields_onlyIf.1 h with ⟨htracks, h⟩ | ⟨-, rfl, -⟩
  swap
  · cases hc
  simp only [yields_bind, yields_pure] at h
  obtain ⟨z, _, hz, rfl, rfl⟩ := h
  obtain rfl : c = .eq (.ofVar z) (.const (if negated then 0 else 1)) := by simpa [pin] using hc
  have hform := form?_of_denotes htracks (variableOf_spec hz hF).2
  refine not_mentionsPointer_of_form hform hcond (fun w hw => ?_) hmention
  rwa [Constraint.eq, AffineForm.coefficient_sub, AffineForm.coefficient_const, Int.sub_zero] at hw

/-- A comparison that is the condition itself is one of integers. -/
theorem comparisonAssumptions_assumes (hints : sc.settings.integersOnly = true)
    (hcond : sc.isInteger cond = true)
    (h : Yields (sc.comparisonAssumptions cond pred a b negated) s code s')
    (hF : s'.supply.Extends F) : ¬sc.AssumesPointer F code := by
  rcases yields_onlyIf.1 h with ⟨hflow, h⟩ | ⟨-, rfl, -⟩
  swap
  · simp [AssumesPointer]
  obtain ⟨cs, s₁, hcs, h⟩ := yields_bind.1 h
  have hcompares : ¬sc.ComparesPointer pred a b := by
    intro hcompares
    obtain ⟨-, -, ⟨v, hv, -, hty⟩, -⟩ := hcompares
    rw [operandsFlow, if_pos hints] at hflow
    obtain ⟨ha, hb⟩ := yes_of_both hflow
    have hint : sc.hasIntType v = .ok true := by
      rcases hv with rfl | rfl
      · exact ha
      · exact hb
    rw [hasIntType, hty] at hint
    cases hint
  rw [yields_ite_bind] at h
  obtain ⟨pinned, s₂, hpinned, h⟩ := h
  obtain ⟨rfl, rfl⟩ := yields_pure.1 h
  have hrest : s₁.supply.Extends F ∧ ¬sc.AssumesPointer F pinned := by
    split at hpinned
    next =>
      exact ⟨(sc.pinTracked_grows _ _ _ _ _ hpinned).trans hF,
        pinTracked_assumes hcond hpinned hF⟩
    next =>
      obtain ⟨rfl, rfl⟩ := yields_pure.1 hpinned
      exact ⟨hF, by simp [AssumesPointer]⟩
  intro hassumes
  obtain ⟨c, hc, hmention⟩ := hassumes
  rcases List.mem_append.1 hc with hc | hc
  · have hassumes := assumesPointer_map_iff.1 ⟨c, hc, hmention⟩
    exact hcompares ((comparisonConstraints_mention_iff hcs hrest.1).1 hassumes)
  · exact hrest.2 ⟨c, hc, hmention⟩

/-- What is said of both comparisons has a pointer just if one of them compares one. -/
theorem bothAssumptions_assumes_iff (h : Yields (sc.bothAssumptions a b negated) s code s')
    (hF : s'.supply.Extends F) : sc.AssumesPointer F code ↔
      ∃ left right, sc.comparison? a = .ok (some left) ∧ sc.comparison? b = .ok (some right) ∧
        (sc.ComparesPointer left.1 left.2.1 left.2.2 ∨
          sc.ComparesPointer right.1 right.2.1 right.2.2) := by
  simp only [bothAssumptions, yields_bind, yields_ofExcept] at h
  obtain ⟨first, _, ⟨hfirst, rfl⟩, second, _, ⟨hsecond, rfl⟩, h⟩ := h
  rw [hfirst, hsecond]
  split at h
  next p a₁ b₁ r a₂ b₂ =>
    simp only [yields_bind, yields_pure] at h
    obtain ⟨left, s₁, hleft, right, s₂, hright, rfl, rfl⟩ := h
    have hgrown := (sc.comparisonConstraints_grows _ _ _ _ _ _ _ hright).trans hF
    simp only [assumesPointer_map_iff, List.mem_append, or_and_right, exists_or,
      comparisonConstraints_mention_iff hleft hgrown, comparisonConstraints_mention_iff hright hF,
      Except.ok.injEq, Option.some.injEq, exists_and_left, exists_eq_left']
  next hnot =>
    obtain ⟨rfl, -⟩ := yields_pure.1 h
    constructor
    · simp [AssumesPointer]
    · intro hboth
      obtain ⟨left, right, hleft, hright, -⟩ := hboth
      cases hleft
      cases hright
      exact absurd rfl (hnot _ _ _ _ _ _ rfl)

theorem leaksPointer_iff_of_binary {op : BinaryOp}
    (hkind : sc.body.kind? cond = some (.binary op a b)) : sc.LeaksPointer cond negated ↔
      (op = .and ∧ negated = false ∨ op = .or ∧ negated = true) ∧
        ∃ left right, sc.comparison? a = .ok (some left) ∧ sc.comparison? b = .ok (some right) ∧
          (sc.ComparesPointer left.1 left.2.1 left.2.2 ∨
            sc.ComparesPointer right.1 right.2.1 right.2.2) := by
  constructor
  · intro hleaks
    obtain ⟨left, right, ⟨op', a', b', hkind', hop, hleft, hright⟩, hcompares⟩ := hleaks
    cases hkind.symm.trans hkind'
    exact ⟨hop, left, right, hleft, hright, hcompares⟩
  · intro hsplits
    obtain ⟨hop, left, right, hleft, hright, hcompares⟩ := hsplits
    exact ⟨left, right, ⟨op, a, b, hkind, hop, hleft, hright⟩, hcompares⟩

theorem not_leaksPointer_of_kind (hkind : ∀ op a b, sc.body.kind? cond ≠ some (.binary op a b)) :
    ¬sc.LeaksPointer cond negated := by
  intro hleaks
  obtain ⟨left, right, ⟨op, a, b, hbinary, -⟩, -⟩ := hleaks
  exact hkind op a b hbinary

theorem connectiveAssumptions_assumes_iff {op : BinaryOp}
    (hkind : sc.body.kind? cond = some (.binary op a b))
    (h : Yields (sc.connectiveAssumptions cond op a b negated) s code s')
    (hF : s'.supply.Extends F) : sc.AssumesPointer F code ↔ sc.LeaksPointer cond negated := by
  rw [leaksPointer_iff_of_binary hkind]
  unfold connectiveAssumptions at h
  split at h
  next => rw [and_iff_right (.inl ⟨rfl, rfl⟩), bothAssumptions_assumes_iff h hF]
  next => rw [and_iff_right (.inr ⟨rfl, rfl⟩), bothAssumptions_assumes_iff h hF]
  next =>
    obtain ⟨rfl, -⟩ := yields_pure.1 h
    simp [AssumesPointer]
  next =>
    obtain ⟨rfl, -⟩ := yields_pure.1 h
    simp [AssumesPointer]
  next hand hor _ _ =>
    refine iff_of_false ?_ fun hsplits => hsplits.1.elim (fun hop => hand hop.1 hop.2)
      fun hop => hor hop.1 hop.2
    split at h
    next =>
      rcases yields_onlyIf.1 h with ⟨-, h⟩ | ⟨-, rfl, -⟩
      · simp only [yields_bind, yields_pure] at h
        obtain ⟨z, _, -, rfl, -⟩ := h
        simp [AssumesPointer]
      · simp [AssumesPointer]
    next =>
      obtain ⟨rfl, -⟩ := yields_pure.1 h
      simp [AssumesPointer]

/-- What is assumed of an outcome has a pointer just if the condition leaks one. -/
theorem assumptions_assumes_iff (hints : sc.settings.integersOnly = true)
    (hcond : sc.isInteger cond = true) (h : Yields (sc.assumptions cond negated) s code s')
    (hF : s'.supply.Extends F) : sc.AssumesPointer F code ↔ sc.LeaksPointer cond negated := by
  unfold assumptions at h
  split at h
  next n hn =>
    obtain ⟨rfl, -⟩ := yields_pure.1 h
    refine iff_of_false ?_ (not_leaksPointer_of_kind fun op a b hkind => ?_)
    · split <;> simp [AssumesPointer]
    · cases cond with
      | int bits k => cases hkind
      | _ => cases hn
  next =>
    split at h
    next pred a b hkind =>
      refine iff_of_false (comparisonAssumptions_assumes hints hcond h hF)
        (not_leaksPointer_of_kind fun op a' b' hbinary => ?_)
      cases hkind.symm.trans hbinary
    next op a b hkind => exact connectiveAssumptions_assumes_iff hkind h hF
    next hkind =>
      exact iff_of_false (pinTracked_assumes hcond h hF) (not_leaksPointer_of_kind hkind)

end Scope

end AffineFlow
