import AffineFlow.Proofs.Addresses.Exactness

/-!
# Address computations that give up

An address that cannot be computed is unknown. That is found out before anything
has been written to the result, except for an index over elements that cannot be
expressed: the base has been assigned by then, and only a havoc takes it back.
Where the settings do not want havocs, the result keeps what it has got so far.
-/
namespace AffineFlow

open Ssa Lowering IndexStep

/-- The last statement of the code that writes the variable lets it take any value, if there is
one. -/
def LeavesUnknown (x : Var) (code : List Stmt) : Prop :=
  ∀ stmt, (code.filter fun stmt => stmt.target? = some x).getLast? = some stmt → stmt = .havoc x

section LeavesUnknown

variable {x : Var} {code : List Stmt}

theorem leavesUnknown_append_havoc : LeavesUnknown x (code ++ [.havoc x]) := by
  intro stmt h
  rw [List.filter_append, show [Stmt.havoc x].filter _ = [Stmt.havoc x] from
    List.filter_eq_self.2 (by simp [Stmt.target?]), List.getLast?_concat] at h
  exact (Option.some.inj h).symm

/-- Without a havoc, the variable is only unknown if it is not written at all. -/
theorem leavesUnknown_iff_untouched (h : .havoc x ∉ code) :
    LeavesUnknown x code ↔ Untouched x code := by
  constructor
  · intro hunknown stmt hm hx
    have hne : (code.filter fun stmt => stmt.target? = some x) ≠ [] :=
      List.ne_nil_of_mem (List.mem_filter.2 ⟨hm, decide_eq_true hx⟩)
    have hlast := hunknown _ (List.getLast?_eq_some_getLast hne)
    exact h (hlast ▸ (List.mem_filter.1 (List.getLast_mem hne)).1)
  · intro huntouched stmt hlast
    obtain ⟨hm, hx⟩ := List.mem_filter.1 (List.mem_of_getLast? hlast)
    exact absurd (of_decide_eq_true hx) (huntouched stmt hm)

theorem not_leavesUnknown_assign {e : AffineForm} (h : .havoc x ∉ code) :
    ¬LeavesUnknown x (.assign x e :: code) := by
  rw [leavesUnknown_iff_untouched (by simpa using h)]
  simp [Stmt.target?]

end LeavesUnknown

/-- More temporaries may have been minted since. -/
theorem Computes.extend {F : VarSupply} {lo mid hi : Nat} {code : List Stmt} {x : Var}
    {value : Valuation → Int} (h : Computes F lo mid code x value) (hhi : mid ≤ hi) :
    Computes F lo hi code x value where
  total := h.total
  value := h.value
  other σ τ hrun y hy := by
    obtain hyx | ⟨hspare, hge, hlt⟩ := h.other σ τ hrun y hy
    · exact .inl hyx
    · exact .inr ⟨hspare, hge, Nat.lt_of_lt_of_le hlt hhi⟩

/-- A part of the way from the base to an address. -/
inductive Leg where
  | field (bytes : Int)
  | elements (index : Value) (size : Nat)

namespace Leg

/-- The distance, if it is known: that of a field, or that of a constant number of elements. -/
def known? : Leg → Option Int
  | field bytes => some bytes
  | elements index size => index.number?.bind fun n => fit128 (n * size)

def step : Leg → IndexStep
  | field bytes => .offset bytes
  | elements index size => .ofIndex index size

theorem known?_step (leg : Leg) : leg.step.known? = leg.known? := by
  cases leg with
  | field bytes => rfl
  | elements index size =>
      simp only [step, ofIndex, known?, Value.number?]
      split
      next hn => rw [hn, IndexStep.known?]
      next hn => rw [hn, IndexStep.known?]

/-- The step over elements is scaled if the distance is not known. -/
theorem step_eq_scaled_iff {leg : Leg} {index : Value} {size : Nat} :
    leg.step = .scaled index size ↔ leg = elements index size ∧ leg.known? = none := by
  cases leg with
  | field bytes => simp [step]
  | elements index' size' =>
      simp only [step, ofIndex, known?, Value.number?, elements.injEq]
      split
      next hn => simp [hn]
      next hn => simp [hn]

/-- Some sum of the known distances up to a point does not fit in 128 bits. -/
def Overflows (legs : List Leg) : Prop :=
  ∃ part ∈ (legs.filterMap known?).inits, fit128 part.sum = none

instance (legs : List Leg) : Decidable (Overflows legs) :=
  inferInstanceAs (Decidable (∃ part ∈ (legs.filterMap known?).inits, fit128 part.sum = none))

end Leg

namespace Ssa.DataLayout

variable (dl : DataLayout)

/-- The way down into an object. -/
def partLegs : Ty → List Value → List Leg
  | _, [] => []
  | .struct fields, index :: rest =>
      match fieldIndex? index fields.length with
      | some field =>
          .field (dl.fieldOffset fields field) :: partLegs (fields.getD field .blackbox) rest
      | none => []
  | .array elem _, index :: rest => .elements index (dl.allocSize elem) :: partLegs elem rest
  | _, _ :: _ => []

/-- The way from the base to an address. -/
def legs (sourceTy : Ty) : List Value → List Leg
  | [] => []
  | first :: rest => .elements first (dl.allocSize sourceTy) :: dl.partLegs sourceTy rest

end Ssa.DataLayout

/-- The known offsets are not summed up just if some sum on the way is too large. -/
theorem knownOffset_eq_none_iff {steps : List IndexStep} {acc : Int} (hacc : (fit128 acc).isSome) :
    knownOffset acc steps = none ↔
      ∃ part ∈ (steps.filterMap known?).inits, fit128 (acc + part.sum) = none := by
  induction steps generalizing acc with
  | nil => simpa [knownOffset] using Option.isSome_iff_ne_none.1 hacc
  | cons step rest ih =>
      cases step with
      | scaled index size =>
          rw [filterMap_known?_scaled]
          exact ih hacc
      | offset n =>
          -- the empty sum fits, so a sum that does not starts with this number
          have hhead : fit128 (acc + ([] : List Int).sum) ≠ none := by
            rw [List.sum_nil, Int.add_zero]
            exact Option.isSome_iff_ne_none.1 hacc
          simp only [knownOffset, filterMap_known?_offset, List.inits_cons, List.mem_cons,
            exists_eq_or_imp, hhead, false_or, List.mem_map, exists_exists_and_eq_and,
            List.sum_cons, ← Int.add_assoc]
          cases hn : fit128 (acc + n) with
          | some m =>
              obtain rfl := Option.some.inj ((fit128_eq_of_isSome (by rw [hn]; rfl)).symm.trans hn)
              exact ih (by rw [hn]; rfl)
          | none =>
              simp only [true_iff]
              refine ⟨[], (List.mem_inits _ _).2 List.nil_prefix, ?_⟩
              rwa [List.sum_nil, Int.add_zero]

namespace Scope

variable {sc : Scope} {F : VarSupply} {s s' : Session} {id : InstId} {dst x : Var}
  {base v : Value} {sourceTy : Ty} {indices : List Value} {p : AffineForm} {steps : List IndexStep}
  {code stmts : List Stmt}

/-- An index that cannot be expressed is not a number. -/
theorem number?_of_inexpressible (hv : sc.isExpressible v = false) : v.number? = none := by
  cases v with
  | int bits n =>
      simp only [isExpressible, Bool.or_eq_false_iff, Option.isSome_eq_false_iff,
        Option.isNone_iff_eq_none] at hv
      exact hv.2
  | _ => rfl

theorem descend_eq (h : sc.descend id sourceTy indices = .ok steps) :
    steps = (sc.program.layout.partLegs sourceTy (indices.map sc.beneathExtension)).map
      Leg.step := by
  induction indices generalizing sourceTy steps with
  | nil =>
      unfold descend at h
      cases h
      rfl
  | cons index rest ih =>
      have mapped : ∀ {ty step}, (sc.descend id ty rest).map (step :: ·) = .ok steps →
          steps = step :: (sc.program.layout.partLegs ty (rest.map sc.beneathExtension)).map
            Leg.step := by
        intro ty step hmap
        cases hothers : sc.descend id ty rest with
        | error reason =>
            rw [hothers] at hmap
            cases hmap
        | ok others =>
            rw [hothers] at hmap
            cases hmap
            rw [ih hothers]
      rw [List.map_cons]
      cases sourceTy with
      | struct fields =>
          simp only [descend] at h
          simp only [DataLayout.partLegs]
          cases hfield : fieldIndex? (sc.beneathExtension index) fields.length with
          | none =>
              rw [hfield] at h
              cases h
          | some field =>
              rw [hfield] at h
              exact mapped h
      | array elem len =>
          simp only [descend] at h
          simp only [DataLayout.partLegs]
          exact mapped h
      | _ => cases h

/-- The steps are those of the way to the address. -/
theorem indexSteps_eq (h : Yields (sc.indexSteps id sourceTy indices) s steps s') :
    steps = (sc.program.layout.legs sourceTy (indices.map sc.beneathExtension)).map Leg.step ∧
      s' = s := by
  cases indices with
  | nil => exact yields_pure.1 h
  | cons first rest =>
      simp only [indexSteps] at h
      split at h
      · cases hsteps : sc.descend id sourceTy rest with
        | error reason =>
            rw [hsteps] at h
            exact absurd h not_yields_reject
        | ok others =>
            rw [hsteps] at h
            obtain ⟨rfl, rfl⟩ := yields_pure.1 h
            rw [descend_eq hsteps]
            exact ⟨rfl, rfl⟩
      · exact absurd h not_yields_fault

/-- A scaled step whose index cannot be expressed ends the code; another one is a product that is
added, and the code goes on. -/
theorem scaledCode_scaled {index : Value} {size : Nat} {complete : Bool}
    (h : Yields (sc.scaledCode dst (.scaled index size :: steps)) s (stmts, complete) s') :
    sc.isExpressible index = false ∧ complete = false ∧ stmts = sc.forget dst ∧
        s.supply.Extends s'.supply ∨
      sc.isExpressible index = true ∧ ∃ e s₁ t s₂ others, Yields (sc.express index) s (some e) s₁ ∧
        Yields temporary s₁ t s₂ ∧ Yields (sc.scaledCode dst steps) s₂ (others, complete) s' ∧
        stmts = .arith .mul t e (.const size) ::
          .arith .add dst (.ofVar dst) (.ofVar t) :: others := by
  simp only [scaledCode, yields_bind] at h
  obtain ⟨e?, s₁, he, h⟩ := h
  have hexpressible := (express_form he (.refl _)).2.symm
  cases e? with
  | none =>
      obtain ⟨hpair, rfl⟩ := yields_pure.1 h
      obtain ⟨rfl, rfl⟩ := Prod.mk.inj hpair
      exact .inl ⟨hexpressible, rfl, rfl, sc.express_grows _ _ _ _ he⟩
  | some e =>
      simp only [yields_bind, yields_pure] at h
      obtain ⟨t, s₂, ht, ⟨others, complete'⟩, _, hothers, hpair, rfl⟩ := h
      obtain ⟨rfl, rfl⟩ := Prod.mk.inj hpair
      exact .inr ⟨hexpressible, e, s₁, t, s₂, others, he, ht, hothers, rfl⟩

/-- The scaled steps are carried out until one cannot be expressed; then the result is forgotten. -/
theorem scaledCode_eq {complete : Bool}
    (h : Yields (sc.scaledCode dst steps) s (stmts, complete) s') :
    (complete = true ↔ ∀ index size, .scaled index size ∈ steps → sc.isExpressible index = true) ∧
      ∃ products, stmts = products ++ (if complete then [] else sc.forget dst) ∧
        .havoc dst ∉ products := by
  induction steps generalizing s stmts with
  | nil =>
      obtain ⟨hpair, -⟩ := yields_pure.1 h
      obtain ⟨rfl, rfl⟩ := Prod.mk.inj hpair
      exact ⟨by simp, [], rfl, List.not_mem_nil⟩
  | cons step rest ih =>
      cases step with
      | offset n =>
          obtain ⟨hcomplete, hproducts⟩ := ih h
          exact ⟨by simpa using hcomplete, hproducts⟩
      | scaled index size =>
          obtain ⟨hindex, rfl, rfl, -⟩ | ⟨hindex, e, s₁, t, s₂, others, -, -, hothers, rfl⟩ :=
            scaledCode_scaled h
          · refine ⟨iff_of_false Bool.false_ne_true fun hall => ?_, [], rfl, List.not_mem_nil⟩
            cases (hall index size (.head _)).symm.trans hindex
          · obtain ⟨hcomplete, products, rfl, hproducts⟩ := ih hothers
            refine ⟨?_, .arith .mul t e (.const size) ::
              .arith .add dst (.ofVar dst) (.ofVar t) :: products, rfl, by simpa using hproducts⟩
            rw [hcomplete]
            constructor
            · intro hall index' size' hm
              rcases List.mem_cons.1 hm with heq | hm
              · cases heq
                exact hindex
              · exact hall index' size' hm
            · exact fun hall index' size' hm => hall index' size' (.tail _ hm)

theorem leavesUnknown_forget : LeavesUnknown dst (sc.forget dst) := by
  unfold forget
  split
  · have hend : LeavesUnknown dst ([] ++ [.havoc dst]) := leavesUnknown_append_havoc
    exact hend
  · exact nofun

/-- The result is left unknown just if nothing is written to it, or it is forgotten at the end. -/
theorem stepsCode_leavesUnknown_iff (h : Yields (sc.stepsCode dst p steps) s code s') :
    LeavesUnknown dst code ↔ knownOffset 0 steps = none ∨
      sc.settings.explicitHavoc = true ∧
        ∃ index size, .scaled index size ∈ steps ∧ sc.isExpressible index = false := by
  unfold stepsCode at h
  cases hoffset : knownOffset 0 steps with
  | none =>
      rw [hoffset] at h
      obtain ⟨rfl, -⟩ := yields_pure.1 h
      simp [leavesUnknown_forget]
  | some offset =>
      simp only [hoffset] at h
      simp only [reduceCtorEq, false_or]
      split at h
      next hknown =>
        obtain ⟨rfl, -⟩ := yields_pure.1 h
        rw [leavesUnknown_iff_untouched (by simp)]
        refine iff_of_false (by simp [Stmt.target?]) ?_
        rintro ⟨-, index, size, hm, -⟩
        cases List.all_eq_true.1 hknown _ hm
      next =>
        simp only [yields_bind, yields_pure] at h
        obtain ⟨⟨stmts, complete⟩, s₁, hscaled, rfl, -⟩ := h
        obtain ⟨hcomplete, products, rfl, hproducts⟩ := scaledCode_eq hscaled
        cases complete with
        | true =>
            refine iff_of_false (not_leavesUnknown_assign ?_) ?_
            · simp only [if_true, List.append_nil, List.mem_append, hproducts, false_or]
              split <;> simp
            · rintro ⟨-, index, size, hm, hindex⟩
              cases (hcomplete.1 rfl index size hm).symm.trans hindex
        | false =>
            have hinexpressible :
                ∃ index size, .scaled index size ∈ steps ∧ sc.isExpressible index = false := by
              simpa using mt hcomplete.2 Bool.false_ne_true
            simp only [hinexpressible, and_true, forget]
            -- the base has been written by now, so all depends on the havoc at the end
            cases sc.settings.explicitHavoc with
            | true =>
                have hend := @leavesUnknown_append_havoc dst (.assign dst p :: products)
                simpa using hend
            | false =>
                have hend := @not_leavesUnknown_assign dst products p hproducts
                simpa using hend

theorem instCode_of_address
    (hkind : sc.body.kind? (.inst id) = some (.address base sourceTy indices)) :
    sc.instCode id = sc.addressCode id base sourceTy indices := by
  obtain ⟨inst, hinst, hkind⟩ := Option.map_eq_some_iff.1 hkind
  rw [instCode, show sc.body.inst? id = some inst from hinst]
  simp only [hkind]

/-- The code of an address computation is that of its steps where it is translated, and else makes
the result unknown. -/
theorem addressCode_inv (h : Yields (sc.addressCode id base sourceTy indices) s code s')
    (htracks : sc.tracks (.inst id) = .ok true) (hF : s'.supply.Extends F)
    (hx : sc.Denotes F (.inst id) x) :
    (sc.isTranslatedAddress id base = true ∧ ∃ p s₁, Yields (sc.stepsCode x p
        ((sc.program.layout.legs sourceTy (indices.map sc.beneathExtension)).map Leg.step))
          s₁ code s') ∨
      sc.isTranslatedAddress id base = false ∧ code = sc.forget x := by
  rcases yields_onlyIf.1 h with ⟨-, h⟩ | ⟨hnot, -⟩
  swap
  · cases htracks.symm.trans hnot
  simp only [yields_bind, yields_ofExcept] at h
  obtain ⟨dst, _, hdst, wanted, s₁, ⟨hwanted, rfl⟩, h⟩ := h
  have hsame : s₁.supply.Extends F → dst = x := fun hF₁ =>
    (variableOf_spec hdst hF₁).2.unique hx
  rw [isTranslatedAddress, isYes_of_eq htracks, isYes_of_eq hwanted]
  cases wanted with
  | false =>
      obtain ⟨rfl, rfl⟩ := yields_pure.1 h
      obtain rfl := hsame hF
      exact .inr ⟨rfl, rfl⟩
  | true =>
      simp only [if_true, yields_bind] at h
      obtain ⟨p?, s₂, hp, h⟩ := h
      have hgrown := sc.express_grows _ _ _ _ hp
      rw [← (express_form hp (.refl _)).2]
      cases p? with
      | none =>
          obtain ⟨rfl, rfl⟩ := yields_pure.1 h
          obtain rfl := hsame (hgrown.trans hF)
          exact .inr ⟨rfl, rfl⟩
      | some p =>
          simp only [yields_bind] at h
          obtain ⟨steps, s₃, hsteps, h⟩ := h
          obtain ⟨rfl, rfl⟩ := indexSteps_eq hsteps
          obtain rfl := hsame (hgrown.trans ((sc.stepsCode_grows _ _ _ _ _ _ h).trans hF))
          exact .inl ⟨rfl, p, s₃, h⟩

/-- An index that cannot be expressed is one over elements whose distance is not known. -/
theorem scaled_mem_map_step_iff {index : Value} {size : Nat} {legs : List Leg}
    (hindex : sc.isExpressible index = false) :
    .scaled index size ∈ legs.map Leg.step ↔ .elements index size ∈ legs := by
  have hknown : (Leg.elements index size).known? = none := by
    rw [Leg.known?, number?_of_inexpressible hindex, Option.bind_none]
  simp only [List.mem_map, Leg.step_eq_scaled_iff]
  constructor
  · rintro ⟨leg, hm, rfl, -⟩
    exact hm
  · exact fun hm => ⟨_, hm, rfl, hknown⟩

theorem knownOffset_legs (legs : List Leg) :
    knownOffset 0 (legs.map Leg.step) = none ↔ Leg.Overflows legs := by
  rw [knownOffset_eq_none_iff rfl, List.filterMap_map, Leg.Overflows]
  simp only [Function.comp_def, Leg.known?_step, Int.zero_add]

/-- An address computation that is accepted leaves its result unknown just in three cases: it is
not translated, its known distances do not add up in 128 bits, or some index over elements cannot be
expressed and havocs are wanted. -/
theorem instCode_address_leavesUnknown_iff
    (hkind : sc.body.kind? (.inst id) = some (.address base sourceTy indices))
    (htracks : sc.tracks (.inst id) = .ok true) (h : Yields (sc.instCode id) s code s')
    (hF : s'.supply.Extends F) (hx : sc.Denotes F (.inst id) x) :
    LeavesUnknown x code ↔ sc.isTranslatedAddress id base = false ∨
      Leg.Overflows (sc.program.layout.legs sourceTy (indices.map sc.beneathExtension)) ∨
      sc.settings.explicitHavoc = true ∧ ∃ index size,
        .elements index size ∈ sc.program.layout.legs sourceTy (indices.map sc.beneathExtension) ∧
          sc.isExpressible index = false := by
  rw [instCode_of_address hkind] at h
  rcases addressCode_inv h htracks hF hx with ⟨htranslated, p, s₁, hsteps⟩ | ⟨hnot, rfl⟩
  · rw [stepsCode_leavesUnknown_iff hsteps, knownOffset_legs, htranslated]
    simp only [Bool.true_eq_false, false_or]
    refine or_congr_right (and_congr_right fun _ => exists_congr fun index =>
      exists_congr fun size => and_congr_left fun hindex => scaled_mem_map_step_iff hindex)
  · simp [hnot, leavesUnknown_forget]

section Part

variable {before after : List IndexStep} {index : Value} {size : Nat}

/-- The code up to an index that cannot be expressed is that of the steps before. -/
theorem scaledCode_append {complete : Bool}
    (hbefore : ∀ index size, .scaled index size ∈ before → sc.isExpressible index = true)
    (hindex : sc.isExpressible index = false)
    (h : Yields (sc.scaledCode dst (before ++ .scaled index size :: after)) s (stmts, complete)
      s') :
    complete = false ∧ ∃ products s₁, Yields (sc.scaledCode dst before) s (products, true) s₁ ∧
      s₁.supply.Extends s'.supply ∧ stmts = products ++ sc.forget dst := by
  induction before generalizing s stmts with
  | nil =>
      obtain ⟨-, rfl, rfl, hgrown⟩ | ⟨hexpressible, -⟩ := scaledCode_scaled h
      · exact ⟨rfl, [], s, yields_pure.2 ⟨rfl, rfl⟩, hgrown, rfl⟩
      · cases hexpressible.symm.trans hindex
  | cons step rest ih =>
      have hrest := fun index size hm => hbefore index size (.tail _ hm)
      cases step with
      | offset n => exact ih hrest h
      | scaled first size' =>
          obtain ⟨hfirst, -⟩ | ⟨-, e, s₁, t, s₂, others, he, ht, hothers, rfl⟩ :=
            scaledCode_scaled h
          · cases (hbefore first size' (.head _)).symm.trans hfirst
          · obtain ⟨rfl, products, s₃, hproducts, hgrown, rfl⟩ := ih hrest hothers
            refine ⟨rfl, .arith .mul t e (.const size') ::
              .arith .add dst (.ofVar dst) (.ofVar t) :: products, s₃, ?_, hgrown, rfl⟩
            refine yields_bind.2 ⟨some e, s₁, he, yields_bind.2 ⟨t, s₂, ht, ?_⟩⟩
            exact yields_bind.2 ⟨(products, true), s₃, hproducts, yields_pure.2 ⟨rfl, rfl⟩⟩

/-- Without a havoc, what is left in the result is the base and the products before the index that
cannot be expressed; the known offsets are not even added. -/
theorem stepsCode_computes_part {offset : Int} (hbefore : sc.ScalesOthers id before)
    (hindex : sc.isExpressible index = false) (hhavoc : sc.settings.explicitHavoc = false)
    (hdst : sc.Denotes F (.inst id) dst)
    (hoffset : knownOffset 0 (before ++ .scaled index size :: after) = some offset)
    (h : Yields (sc.stepsCode dst p (before ++ .scaled index size :: after)) s code s')
    (hF : s'.supply.Extends F) :
    Computes F s.supply.size s'.supply.size code dst
      fun σ => p.eval σ + scaledBytes (sc.count F σ) before := by
  have hscales : (before ++ .scaled index size :: after).all (·.isKnown) = false := by
    simp [isKnown]
  simp only [stepsCode, hoffset, hscales, Bool.false_eq_true, if_false, yields_bind,
    yields_pure] at h
  obtain ⟨⟨stmts, complete⟩, s₁, hscaled, rfl, rfl⟩ := h
  obtain ⟨rfl, products, s₂, hproducts, hgrown, rfl⟩ :=
    scaledCode_append (fun index size hm => (hbefore index size hm).2.2) hindex hscaled
  obtain ⟨-, hcomputes⟩ := scaledCode_computes hbefore hdst hproducts (hgrown.trans hF)
  have hbase : Computes F s.supply.size s.supply.size [.assign dst p] dst p.eval := .assign p
  have hall := hbase.append hcomputes (Nat.le_refl _)
    (sc.scaledCode_grows _ _ _ _ _ hproducts).size_le fun σ τ hτ hother => by
      rw [hτ, scaledBytes_count_congr hbefore hdst hother]
  simpa [forget, hhavoc] using hall.extend hgrown.size_le

end Part

/-- A function of a pointer and a number, where havocs are not wanted. -/
def sparingScope (insts : List (Option String × Ty × InstKind)) : Scope :=
  { pointerScope insts with settings := { explicitHavoc := false } }

/-- An element of the `i`-th row of a table, but nobody knows which. -/
def tableScope : Scope :=
  sparingScope [
    (some "q", .ptr, .address (.arg 0) (.array (.int 32) 4) [.arg 1, .undef none]),
    (some "v", .int 32, .load (.inst ⟨0⟩))]

/-- The result is left at the start of the row. -/
theorem instCode_address_leavesUnknown_table :
    ∃ code s' x, Yields (tableScope.instCode ⟨0⟩) {} code s' ∧
      tableScope.Denotes s'.supply (.inst ⟨0⟩) x ∧ code.length = 3 ∧ ¬LeavesUnknown x code := by
  obtain ⟨code, s', hcode⟩ : ∃ code s', Yields (tableScope.instCode ⟨0⟩) {} code s' :=
    ⟨_, _, rfl⟩
  obtain ⟨x, hx, hlength⟩ :
      ∃ x, tableScope.Denotes s'.supply (.inst ⟨0⟩) x ∧ code.length = 3 := by
    cases hcode
    exact ⟨_, ⟨_, rfl, rfl⟩, rfl⟩
  refine ⟨code, s', x, hcode, hx, hlength, fun hunknown => ?_⟩
  rcases (instCode_address_leavesUnknown_iff rfl rfl hcode (.refl _) hx).1 hunknown with
    hnot | hoverflows | ⟨hhavoc, -⟩
  · cases hnot
  · exact absurd hoverflows (by decide)
  · cases hhavoc

/-- A pointer to a number far away, which no index of 64 bits reaches. -/
def farScope : Scope :=
  sparingScope [
    (some "q", .ptr,
      .address (.arg 0) (.int 32) [.int 128 170141183460469231731687303715884105727]),
    (some "v", .int 32, .load (.inst ⟨0⟩))]

/-- The index cannot be expressed, and the result is left equal to the base. -/
theorem instCode_address_left_at_base :
    farScope.isExpressible (.int 128 170141183460469231731687303715884105727) = false ∧
    ∃ code s' x p, Yields (farScope.instCode ⟨0⟩) {} code s' ∧
      farScope.Denotes s'.supply (.inst ⟨0⟩) x ∧
      farScope.form? s'.supply (.arg 0) = some (.ofVar p) ∧ ¬LeavesUnknown x code ∧
      (∀ σ, ∃ τ, RunAll code σ τ) ∧ ∀ σ τ, RunAll code σ τ → τ x = σ p := by
  refine ⟨rfl, _, _, _, _, rfl, ⟨_, rfl, rfl⟩, rfl, ?_, fun σ => ?_, fun σ τ hrun => ?_⟩
  · exact not_leavesUnknown_assign List.not_mem_nil
  · exact ⟨_, runAll_singleton_iff.2 .assign⟩
  · obtain rfl := runs_assign_iff.1 (runAll_singleton_iff.1 hrun)
    exact (Function.update_self _ _ _).trans (AffineForm.eval_ofVar _ _)

end Scope

end AffineFlow
