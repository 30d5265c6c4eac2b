import AffineFlow.Proofs.Supply.Names

/-!
# Histories of a supply

Everything that a supply ever does is a sequence of calls on the empty supply:
a temporary is minted, or the variable of a referent is requested together with
a name for it. Over any such history the variables are numbered as they are
minted, each keeps the name that its search ended with, no two share a name, and
two calls return one variable exactly if both ask for the same referent.

The name in a request is a computation of its own in general, and `requestWith`
runs it only for a referent without a variable. A history records the names that
those computations give.
-/
namespace AffineFlow

namespace VarSupply

variable {s s' : VarSupply} {r : Referent} {v : Var}

/-- A request whose name has to be computed first. -/
def requestWith {m : Type → Type} [Monad m] (s : VarSupply) (r : Referent)
    (name : m (Option String)) : m (Var × VarSupply) :=
  match s.find? r with
  | some v => pure (v, s)
  | none => do return (s.next, s.mintFor r (← name))

theorem requestWith_pure {m : Type → Type} [Monad m] [LawfulMonad m] (s : VarSupply)
    (r : Referent) (name : Option String) :
    s.requestWith r (pure name : m (Option String)) = pure (s.request r name) := by
  unfold requestWith request
  cases s.find? r <;> simp

theorem requestWith_of_find? {m : Type → Type} [Monad m] (h : s.find? r = some v)
    (name : m (Option String)) : s.requestWith r name = pure (v, s) := by
  unfold requestWith
  rw [h]

theorem request_of_find? (h : s.find? r = some v) (name : Option String) :
    s.request r name = (v, s) := by
  unfold request
  rw [h]

theorem naming_eq_of_prefix (h : s.names <+: s'.names) (hv : v.id < s.size) :
    s'.naming v = s.naming v := by
  obtain ⟨names, h⟩ := h
  unfold naming
  rw [← h, List.getElem?_append_left hv]

theorem mem_names_iff {name : String} :
    name ∈ s.names ↔ ∃ w : Var, w.id < s.size ∧ s.naming w = name := by
  rw [List.mem_iff_getElem]
  constructor
  · rintro ⟨i, hi, rfl⟩
    exact ⟨⟨i⟩, hi, by simp [naming, hi]⟩
  · rintro ⟨w, hw, rfl⟩
    refine ⟨w.id, hw, ?_⟩
    simp [naming, List.getElem?_eq_getElem hw]

inductive Call where
  | temporary
  /-- The name is the one that the referent is to have if it has no variable yet. -/
  | request (r : Referent) (name : Option String)

namespace Call

/-- The variable that the call returns, and the supply after it. -/
def run (s : VarSupply) : Call → Var × VarSupply
  | temporary => (s.next, s.mintTemporary)
  | request r name => s.request r name

/-- The name that the call asks for, if it mints a variable. -/
def wanted? (s : VarSupply) : Call → Option String
  | temporary => some s.defaultName
  | request r name => if (s.find? r).isSome then none else some (name.getD s.defaultName)

variable {c : Call} {name : String}

theorem run_of_wanted (h : c.wanted? s = some name) :
    (c.run s).1 = s.next ∧ (c.run s).2.names = s.names ++ [s.grantedName name] := by
  cases c with
  | temporary =>
      obtain rfl := Option.some.inj h
      exact ⟨rfl, rfl⟩
  | request r wish =>
      simp only [wanted?] at h
      split at h
      next => cases h
      next hr =>
        obtain rfl := Option.some.inj h
        have hnone : s.find? r = none := Option.not_isSome_iff_eq_none.1 hr
        simp only [run, VarSupply.request, hnone, true_and]
        rfl

theorem run_of_not_wanted (h : c.wanted? s = none) :
    ∃ r wish, c = request r wish ∧ s.find? r = some (c.run s).1 ∧ (c.run s).2 = s := by
  cases c with
  | temporary => cases h
  | request r wish =>
      simp only [wanted?] at h
      split at h
      next hr =>
        obtain ⟨v, hv⟩ := Option.isSome_iff_exists.1 hr
        refine ⟨r, wish, rfl, ?_, ?_⟩ <;> simp only [run, request_of_find? hv]
        exact hv
      next => cases h

theorem extends_run (c : Call) (s : VarSupply) : s.Extends (c.run s).2 := by
  cases c with
  | temporary => exact extends_mintTemporary
  | request r name => exact extends_request r name

theorem names_prefix_run (c : Call) (s : VarSupply) : s.names <+: (c.run s).2.names := by
  cases hc : c.wanted? s with
  | none =>
      obtain ⟨_, _, _, _, hs⟩ := run_of_not_wanted hc
      simp only [hs, List.prefix_rfl]
  | some name =>
      rw [(run_of_wanted hc).2]
      exact List.prefix_append _ _

theorem run_lt (c : Call) (s : VarSupply) : (c.run s).1.id < (c.run s).2.size := by
  cases hc : c.wanted? s with
  | none =>
      obtain ⟨r, _, _, hr, hs⟩ := run_of_not_wanted hc
      rw [hs]
      exact find?_lt hr
  | some name =>
      obtain ⟨hv, hs⟩ := run_of_wanted hc
      simp [hv, size, hs, next]

theorem run_nodup (c : Call) (h : s.names.Nodup) : (c.run s).2.names.Nodup := by
  cases hc : c.wanted? s with
  | none =>
      obtain ⟨_, _, _, _, hs⟩ := run_of_not_wanted hc
      rwa [hs]
  | some name =>
      rw [(run_of_wanted hc).2]
      exact mint_names_nodup h

end Call

open Call (run wanted?)

/-- The supply after the calls. -/
def after (calls : List Call) : VarSupply := calls.foldl (fun s c => (c.run s).2) {}

section Histories

variable (calls : List Call)

/-- The supply that call number `i` finds. -/
def before (i : Nat) : VarSupply := after (calls.take i)

/-- The variable that call number `i` returns. -/
def answer (i : Fin calls.length) : Var := (calls[i].run (before calls i)).1

/-- The variables that the calls mint one after the other, from the supply on. -/
def mintedFrom : VarSupply → List Call → List Var
  | _, [] => []
  | s, c :: calls =>
      (if (c.wanted? s).isSome then [(c.run s).1] else []) ++ mintedFrom (c.run s).2 calls

theorem before_succ (i : Fin calls.length) :
    before calls (i + 1) = (calls[i].run (before calls i)).2 := by
  unfold before after
  rw [List.take_add_one, List.foldl_append, List.getElem?_eq_getElem i.isLt]
  rfl

theorem before_length : before calls calls.length = after calls := by
  rw [before, List.take_length]

/-- What every call keeps holds from one point of the history to any later one. -/
theorem before_rel {R : VarSupply → VarSupply → Prop} (hrefl : ∀ s, R s s)
    (htrans : ∀ {s s' s''}, R s s' → R s' s'' → R s s'') (hrun : ∀ (c : Call) s, R s (c.run s).2)
    {i j : Nat} (h : i ≤ j) (hj : j ≤ calls.length) : R (before calls i) (before calls j) := by
  induction h with
  | refl => exact hrefl _
  | @step j _ ih =>
      have hstep : before calls (j + 1) = _ := before_succ calls ⟨j, hj⟩
      rw [Nat.succ_eq_add_one, hstep]
      exact htrans (ih (Nat.le_of_lt hj)) (hrun _ _)

variable {calls} {i j : Nat}

theorem before_extends (h : i ≤ j) (hj : j ≤ calls.length) :
    (before calls i).Extends (before calls j) :=
  before_rel calls .refl .trans Call.extends_run h hj

theorem before_names_mono (h : i ≤ j) (hj : j ≤ calls.length) :
    (before calls i).names <+: (before calls j).names :=
  before_rel calls (R := fun s s' => s.names <+: s'.names) (fun _ => List.prefix_rfl)
    List.IsPrefix.trans Call.names_prefix_run h hj

theorem after_nodup (calls : List Call) : (after calls).names.Nodup := by
  have h := before_rel calls (R := fun s s' => s.names.Nodup → s'.names.Nodup) (fun _ h => h)
    (fun h h' hs => h' (h hs)) (fun c _ => c.run_nodup) (Nat.zero_le calls.length) (Nat.le_refl _)
  rw [before_length] at h
  exact h List.nodup_nil

/-- A call that returns a variable from before it asks for the referent of that variable. -/
theorem request_of_run_lt {c : Call} (h : (c.run s).1.id < s.size) :
    ∃ r name, c = .request r name ∧ s.find? r = some (c.run s).1 := by
  cases hc : c.wanted? s with
  | none =>
      obtain ⟨r, name, hr, hv, _⟩ := Call.run_of_not_wanted hc
      exact ⟨r, name, hr, hv⟩
  | some name =>
      have hv := (Call.run_of_wanted hc).1
      rw [hv] at h
      exact absurd h (Nat.lt_irrefl _)

theorem range_append_mintedFrom (s : VarSupply) (calls : List Call) :
    List.range s.size ++ (mintedFrom s calls).map (·.id) =
      List.range (calls.foldl (fun s c => (c.run s).2) s).size := by
  induction calls generalizing s with
  | nil => simp [mintedFrom]
  | cons c calls ih =>
      rw [List.foldl_cons, ← ih (c.run s).2, mintedFrom]
      cases hc : c.wanted? s with
      | none =>
          obtain ⟨_, _, _, _, hs⟩ := Call.run_of_not_wanted hc
          simp [hs]
      | some name =>
          obtain ⟨hv, hs⟩ := Call.run_of_wanted hc
          simp [hv, size, hs, next, List.range_succ]

/-- A variable keeps the name that it has at some point of the history. -/
theorem naming_after (hi : i ≤ calls.length) (hv : v.id < (before calls i).size) :
    (after calls).naming v = (before calls i).naming v := by
  rw [← before_length]
  exact naming_eq_of_prefix (before_names_mono hi (Nat.le_refl _)) hv

theorem naming_answer {i : Fin calls.length} {name : String}
    (h : calls[i].wanted? (before calls i) = some name) :
    (after calls).naming (answer calls i) = (before calls i).grantedName name := by
  obtain ⟨hv, hs⟩ := Call.run_of_wanted h
  have hlt : (answer calls i).id < (before calls (i + 1)).size := by
    rw [before_succ]
    exact Call.run_lt _ _
  rw [naming_after i.isLt hlt, before_succ, naming, hs, answer, hv]
  simp [next, size]

/-- The variable that a request returns stays the variable of its referent. -/
theorem find?_of_request {i : Fin calls.length} {name : Option String}
    (h : calls[i] = .request r name) (hij : (i : Nat) < j) (hj : j ≤ calls.length) :
    (before calls j).find? r = some (answer calls i) := by
  refine (before_extends (i := i + 1) hij hj).keeps _ _ ?_
  rw [before_succ, answer, h]
  exact find?_request r name

/-- Later calls that return the variable of an earlier call ask for the referent that the earlier
one asked for. A temporary has none. -/
theorem requests_of_answer_eq {i j : Fin calls.length} (hij : i < j)
    (h : answer calls i = answer calls j) :
    ∃ r n m, calls[i] = .request r n ∧ calls[j] = .request r m := by
  have hext := before_extends (i := i + 1) (j := j) hij (Nat.le_of_lt j.isLt)
  have hlt : (answer calls i).id < (before calls (i + 1)).size := by
    rw [before_succ]
    exact Call.run_lt _ _
  obtain ⟨r, m, hj, hfind⟩ := request_of_run_lt (c := calls[j]) (s := before calls j) <| by
    show (answer calls j).id < _
    exact h ▸ Nat.lt_of_lt_of_le hlt hext.size_le
  rw [show (calls[j].run (before calls j)).1 = answer calls i from h.symm] at hfind
  cases hi : calls[i] with
  | request r' n =>
      have hfind' := find?_of_request hi hij (Nat.le_of_lt j.isLt)
      obtain rfl := find?_injective hfind hfind'
      exact ⟨r, n, m, rfl, hj⟩
  | temporary =>
      rw [before_succ, hi] at hext
      have hanswer : answer calls i = (before calls i).next := by rw [answer, hi]; rfl
      rw [hanswer] at hfind
      exact absurd hfind (spare_next hext r)

theorem answer_eq_of_requests {i j : Fin calls.length} {n m : Option String} (hij : i < j)
    (hi : calls[i] = .request r n) (hj : calls[j] = .request r m) :
    answer calls i = answer calls j := by
  have hfind := find?_of_request hi hij (Nat.le_of_lt j.isLt)
  simp only [answer, hj, run, request_of_find? hfind]

theorem answer_eq_iff {i j : Fin calls.length} (hij : i ≠ j) :
    answer calls i = answer calls j ↔
      ∃ r n m, calls[i] = .request r n ∧ calls[j] = .request r m := by
  rcases Nat.lt_or_gt_of_ne (Fin.val_ne_of_ne hij) with hlt | hlt
  · refine ⟨requests_of_answer_eq hlt, ?_⟩
    rintro ⟨r, n, m, hi, hj⟩
    exact answer_eq_of_requests hlt hi hj
  · constructor
    · intro h
      obtain ⟨r, n, m, hj, hi⟩ := requests_of_answer_eq hlt h.symm
      exact ⟨r, m, n, hi, hj⟩
    · rintro ⟨r, n, m, hi, hj⟩
      exact (answer_eq_of_requests hlt hj hi).symm

theorem naming_injective (h : s.names.Nodup) {w : Var} (hv : v.id < s.size) (hw : w.id < s.size)
    (he : s.naming v = s.naming w) : v = w := by
  have hid : v.id = w.id := by
    refine (List.getElem?_inj hv h).1 ?_
    rw [List.getElem?_eq_getElem hv, List.getElem?_eq_getElem hw]
    simpa [naming, List.getElem?_eq_getElem hv, List.getElem?_eq_getElem hw] using he
  cases v
  cases w
  exact congrArg Var.mk hid

/-- What holds of a history of a supply. -/
structure Orderly (calls : List Call) : Prop where
  /-- The variables are numbered in the order in which they are minted. -/
  numbered : (mintedFrom {} calls).map (·.id) = List.range (after calls).size
  /-- The search that starts with the name wanted ends, with the name that the variable has. -/
  named : ∀ (i : Fin calls.length) name, calls[i].wanted? (before calls i) = some name →
    Distinguishes (before calls i).names ("." ++ Nat.repr (answer calls i).id) name
      ((after calls).naming (answer calls i))
  /-- A name that no earlier variable has is granted as it is. -/
  verbatim : ∀ (i : Fin calls.length) name, calls[i].wanted? (before calls i) = some name →
    (∀ w : Var, w.id < (before calls i).size → (after calls).naming w ≠ name) →
    (after calls).naming (answer calls i) = name
  apart : ∀ v w : Var, v.id < (after calls).size → w.id < (after calls).size → v ≠ w →
    (after calls).naming v ≠ (after calls).naming w
  same_iff : ∀ i j : Fin calls.length, i ≠ j →
    (answer calls i = answer calls j ↔
      ∃ r n m, calls[i] = .request r n ∧ calls[j] = .request r m)
  /-- A repeated request returns the first variable, leaves the supply as it is, and does not
  compute the name. -/
  repeated : ∀ i j : Fin calls.length, i < j → ∀ r n m,
    calls[i] = .request r n → calls[j] = .request r m →
    before calls (j + 1) = before calls j ∧
      ∀ {M : Type → Type} [Monad M] (name : M (Option String)),
        (before calls j).requestWith r name = pure (answer calls i, before calls j)

theorem orderly_of_calls (calls : List Call) : Orderly calls where
  numbered := range_append_mintedFrom {} calls
  named i name h := by
    rw [naming_answer h, show (answer calls i).id = (before calls i).size from
      congrArg Var.id (Call.run_of_wanted h).1]
    exact grantedName_distinguishes _ name
  verbatim i name h hnew := by
    rw [naming_answer h]
    refine grantedName_of_not_mem fun hmem => ?_
    obtain ⟨w, hw, he⟩ := mem_names_iff.1 hmem
    exact hnew w hw ((naming_after (Nat.le_of_lt i.isLt) hw).trans he)
  apart v w hv hw hne he := hne (naming_injective (after_nodup calls) hv hw he)
  same_iff i j hij := answer_eq_iff hij
  repeated i j hij r n m hi hj := by
    have hfind := find?_of_request hi hij (Nat.le_of_lt j.isLt)
    refine ⟨?_, fun name => requestWith_of_find? hfind name⟩
    rw [before_succ, hj, run, request_of_find? hfind]

example : (after [.request (.cell ⟨0⟩) (some "_1"), .temporary,
    .request (.cell ⟨1⟩) (some "_1")]).names = ["_1", "_1.1", "_1.2"] := by
  decide

end Histories

end VarSupply

end AffineFlow
