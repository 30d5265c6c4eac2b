import AffineFlow.Constraint
import AffineFlow.Proofs.Forms.Canonical
import AffineFlow.Proofs.Text.Numerals
import Mathlib.Data.Set.Operations

/-!
# Written forms can be read back

A form is written as words with single blanks between them: the first term with
its sign, then a sign and a magnitude for each further term and for the
constant. A magnitude begins with its coefficient, which ends where the digits
end, and the rest is a name; a constant is all digits, which no magnitude is. So
the words determine the form, and the text determines the words, as long as the
names of the variables have no blanks and begin neither with a digit nor with a
minus sign. They may well be signs or comparisons, since whether a word is a
sign or a name shows in its place.
-/
namespace AffineFlow

/-- Names that differ from each other and can stand next to signs and numerals. -/
structure Legible (names : Naming) (vars : Set Var) : Prop where
  apart : Set.InjOn names vars
  nonempty : ∀ v ∈ vars, names v ≠ ""
  unbroken : ∀ v ∈ vars, ' ' ∉ (names v).toList
  start : ∀ v ∈ vars, ∀ c ∈ (names v).toList.head?, ¬c.isDigit = true ∧ c ≠ '-'

theorem Legible.exists_start {names : Naming} {vars : Set Var} (h : Legible names vars) {v : Var}
    (hv : v ∈ vars) : ∃ c rest, (names v).toList = c :: rest ∧ ¬c.isDigit = true ∧ c ≠ '-' := by
  cases hname : (names v).toList with
  | nil => exact absurd (String.toList_eq_nil_iff.1 hname) (h.nonempty v hv)
  | cons c rest => exact ⟨c, rest, rfl, h.start v hv c (by simp [hname])⟩

/-! ## Words -/

theorem toList_intercalate_cons (w : String) (words : List String) :
    (" ".intercalate (w :: words)).toList = w.toList ++ words.flatMap fun v => ' ' :: v.toList := by
  rw [String.toList_intercalate]
  induction words generalizing w with
  | nil => simp [List.intercalate]
  | cons v rest ih =>
      have hnext := ih v
      simp only [List.map_cons, List.intercalate] at hnext ⊢
      rw [List.intersperse_cons_cons, List.flatten_cons, List.flatten_cons, hnext]
      rfl

/-- Words without blanks can be told apart between the blanks. -/
theorem words_eq_of_intercalate {words words' : List String} (hne : words ≠ []) (hne' : words' ≠ [])
    (h : ∀ w ∈ words, ' ' ∉ w.toList) (h' : ∀ w ∈ words', ' ' ∉ w.toList)
    (he : " ".intercalate words = " ".intercalate words') : words = words' := by
  have hsplit : ∀ ws : List String, ws ≠ [] → (∀ w ∈ ws, ' ' ∉ w.toList) →
      (" ".intercalate ws).toList.splitOn ' ' = ws.map String.toList := by
    intro ws hws hblank
    rw [String.toList_intercalate]
    exact List.splitOn_intercalate ' ' (List.forall_mem_map.2 hblank) (by simpa using hws)
  have hlists := congrArg (fun s => s.toList.splitOn ' ') he
  simp only [hsplit _ hne h, hsplit _ hne' h'] at hlists
  exact List.map_injective_iff.2 (fun _ _ => String.toList_injective) hlists

theorem blank_notMem_repr (n : Nat) : ' ' ∉ (Nat.repr n).toList := by
  intro h
  exact absurd (isDigit_of_mem_repr h) (by decide)

theorem blank_notMem_decimal (n : Int) : ' ' ∉ (decimal n).toList := by
  rw [decimal_eq, String.toList_append, List.mem_append, not_or]
  refine ⟨?_, blank_notMem_repr _⟩
  split <;> decide

/-- The sign between two terms. -/
def signWord (c : Int) : String := if c < 0 then "-" else "+"

theorem signWord_inj {c d : Int} (h : signWord c = signWord d) : c < 0 ↔ d < 0 := by
  unfold signWord at h
  by_cases hc : c < 0 <;> by_cases hd : d < 0
  · exact ⟨fun _ => hd, fun _ => hc⟩
  · rw [if_pos hc, if_neg hd] at h
    exact absurd h (by decide)
  · rw [if_neg hc, if_pos hd] at h
    exact absurd h (by decide)
  · exact ⟨fun hc' => absurd hc' hc, fun hd' => absurd hd' hd⟩

theorem blank_notMem_signWord (c : Int) : ' ' ∉ (signWord c).toList := by
  unfold signWord
  split <;> decide

/-- A number is its sign and its magnitude. -/
theorem int_eq_of_natAbs {c d : Int} (hsign : c < 0 ↔ d < 0) (habs : c.natAbs = d.natAbs) :
    c = d := by
  omega

namespace AffineForm

variable {names : Naming} {vars : Set Var} {t u : Term} {e f : AffineForm}

/-- The words after the first one that a term is written as. -/
def followingWords (names : Naming) (t : Term) : List String :=
  [signWord t.2, magnitudeText names t]

def termsWords (names : Naming) : List Term → List String
  | [] => []
  | t :: rest => leadingText names t :: rest.flatMap (followingWords names)

def constantWords (c : Int) : List String :=
  if c = 0 then [] else [signWord c, Nat.repr c.natAbs]

def words (names : Naming) (e : AffineForm) : List String :=
  if e.isConst then [decimal e.constant] else termsWords names e.terms ++ constantWords e.constant

theorem toList_followingText (names : Naming) (t : Term) :
    (followingText names t).toList = (followingWords names t).flatMap fun w => ' ' :: w.toList := by
  have hminus : " - ".toList = [' ', '-', ' '] := rfl
  have hplus : " + ".toList = [' ', '+', ' '] := rfl
  simp only [followingText, followingWords, signWord, String.toList_append, List.flatMap_cons,
    List.flatMap_nil, List.append_nil]
  split
  · rw [hminus]; rfl
  · rw [hplus]; rfl

theorem toList_termsText (names : Naming) (t : Term) (rest : List Term) :
    (termsText names (t :: rest)).toList = (leadingText names t).toList ++
      (rest.flatMap (followingWords names)).flatMap fun w => ' ' :: w.toList := by
  have hfold : ∀ s : String, (rest.foldl (fun s u => s ++ followingText names u) s).toList =
      s.toList ++ (rest.flatMap (followingWords names)).flatMap fun w => ' ' :: w.toList := by
    induction rest with
    | nil => simp
    | cons u rest ih =>
        intro s
        rw [List.foldl_cons, ih, String.toList_append, toList_followingText, List.flatMap_cons,
          List.flatMap_append, List.append_assoc]
  exact hfold _

theorem toList_constantText (c : Int) :
    (if c > 0 then " + " ++ Nat.repr c.natAbs
      else if c < 0 then " - " ++ Nat.repr c.natAbs else "").toList =
      (constantWords c).flatMap fun w => ' ' :: w.toList := by
  have hminus : " - ".toList = [' ', '-', ' '] := rfl
  have hplus : " + ".toList = [' ', '+', ' '] := rfl
  unfold constantWords signWord
  rcases Int.lt_trichotomy c 0 with hc | rfl | hc
  · rw [if_neg (Int.not_lt.2 (Int.le_of_lt hc)), if_pos hc, if_neg (Int.ne_of_lt hc), if_pos hc,
      String.toList_append, hminus]
    simp
  · rfl
  · rw [if_pos hc, if_neg (Int.ne_of_gt hc), if_neg (Int.not_lt.2 (Int.le_of_lt hc)),
      String.toList_append, hplus]
    simp

theorem exists_terms (he : ¬e.isConst = true) : ∃ t rest, e.terms = t :: rest := by
  cases hterms : e.terms with
  | nil => exact absurd (by rw [isConst, hterms]; rfl) he
  | cons t rest => exact ⟨t, rest, rfl⟩

theorem text_eq_words (names : Naming) (e : AffineForm) :
    e.text names = " ".intercalate (e.words names) := by
  apply String.toList_inj.1
  unfold text words
  split
  next => rw [toList_intercalate_cons, List.flatMap_nil, List.append_nil]
  next he =>
    obtain ⟨t, rest, hterms⟩ := exists_terms he
    rw [hterms, termsWords, List.cons_append, toList_intercalate_cons, String.toList_append,
      toList_termsText, toList_constantText, List.flatMap_append, List.append_assoc]

/-! ## What the words say -/

theorem toList_magnitudeText (names : Naming) (t : Term) : (magnitudeText names t).toList =
    (if t.2.natAbs = 1 then [] else (Nat.repr t.2.natAbs).toList ++ ['*']) ++
      (names t.1).toList := by
  have hstar : "*".toList = ['*'] := rfl
  unfold magnitudeText
  split
  · rfl
  · rw [String.toList_append, String.toList_append, hstar]

/-- The digits that a magnitude begins with are its coefficient. -/
theorem takeWhile_magnitudeText (h : Legible names vars) (ht : t.1 ∈ vars) :
    (magnitudeText names t).toList.takeWhile Char.isDigit =
      if t.2.natAbs = 1 then [] else (Nat.repr t.2.natAbs).toList := by
  rw [toList_magnitudeText]
  split
  · obtain ⟨c, rest, hname, hc, -⟩ := h.exists_start ht
    rw [List.nil_append, hname, List.takeWhile_cons_of_neg hc]
  · rw [List.append_assoc, List.takeWhile_append_of_pos fun c hc => isDigit_of_mem_repr hc,
      List.singleton_append, List.takeWhile_cons_of_neg (by decide), List.append_nil]

theorem magnitudeText_inj (h : Legible names vars) (ht : t.1 ∈ vars) (hu : u.1 ∈ vars)
    (he : magnitudeText names t = magnitudeText names u) :
    t.1 = u.1 ∧ t.2.natAbs = u.2.natAbs := by
  have hdigits := congrArg (fun s => s.toList.takeWhile Char.isDigit) he
  simp only [takeWhile_magnitudeText h ht, takeWhile_magnitudeText h hu] at hdigits
  have habs : t.2.natAbs = u.2.natAbs := by
    split at hdigits <;> split at hdigits
    next h₁ h₂ => rw [h₁, h₂]
    next => exact absurd hdigits.symm (repr_toList_ne_nil _)
    next => exact absurd hdigits (repr_toList_ne_nil _)
    next => exact repr_injective (String.toList_injective hdigits)
  have hlist := congrArg String.toList he
  rw [toList_magnitudeText, toList_magnitudeText, habs] at hlist
  have hname := String.toList_injective (List.append_cancel_left hlist)
  exact ⟨h.apart ht hu hname, habs⟩

/-- A magnitude is not all digits. -/
theorem magnitudeText_ne_repr (h : Legible names vars) (ht : t.1 ∈ vars) (n : Nat) :
    magnitudeText names t ≠ Nat.repr n := by
  intro he
  obtain ⟨c, rest, hname, hc, -⟩ := h.exists_start ht
  have hmem : c ∈ (magnitudeText names t).toList := by
    rw [toList_magnitudeText, hname]
    exact List.mem_append_right _ List.mem_cons_self
  exact hc (isDigit_of_mem_repr (he ▸ hmem))

theorem unsigned_magnitudeText (h : Legible names vars) (ht : t.1 ∈ vars) :
    Unsigned (magnitudeText names t) := by
  unfold Unsigned
  rw [toList_magnitudeText]
  split
  · obtain ⟨c, rest, hname, -, hc⟩ := h.exists_start ht
    simpa [hname] using hc
  · have hunsigned := unsigned_repr t.2.natAbs
    obtain ⟨c, digits, hrepr⟩ := List.exists_cons_of_ne_nil (repr_toList_ne_nil t.2.natAbs)
    unfold Unsigned at hunsigned
    rw [hrepr] at hunsigned ⊢
    exact hunsigned

theorem blank_notMem_magnitudeText (h : Legible names vars) (ht : t.1 ∈ vars) :
    ' ' ∉ (magnitudeText names t).toList := by
  rw [toList_magnitudeText, List.mem_append, not_or]
  refine ⟨?_, h.unbroken _ ht⟩
  split
  · exact List.not_mem_nil
  · rw [List.mem_append, not_or]
    exact ⟨blank_notMem_repr _, by decide⟩

theorem leadingText_inj (h : Legible names vars) (ht : t.1 ∈ vars) (hu : u.1 ∈ vars)
    (he : leadingText names t = leadingText names u) : t = u := by
  obtain ⟨hsign, hmagnitude⟩ :=
    sign_append_inj (unsigned_magnitudeText h ht) (unsigned_magnitudeText h hu) he
  obtain ⟨hvar, habs⟩ := magnitudeText_inj h ht hu hmagnitude
  exact Prod.ext hvar (int_eq_of_natAbs hsign habs)

theorem leadingText_ne_decimal (h : Legible names vars) (ht : t.1 ∈ vars) (n : Int) :
    leadingText names t ≠ decimal n := by
  intro he
  rw [decimal_eq] at he
  obtain ⟨-, hmagnitude⟩ := sign_append_inj (unsigned_magnitudeText h ht) (unsigned_repr _) he
  exact magnitudeText_ne_repr h ht _ hmagnitude

theorem followingWords_inj (h : Legible names vars) (ht : t.1 ∈ vars) (hu : u.1 ∈ vars)
    (he : followingWords names t = followingWords names u) : t = u := by
  obtain ⟨hsign, htail⟩ := List.cons.inj he
  obtain ⟨hvar, habs⟩ := magnitudeText_inj h ht hu (List.cons.inj htail).1
  exact Prod.ext hvar (int_eq_of_natAbs (signWord_inj hsign) habs)

/-! ## Reading the words back -/

/-- All variables of the form are among the given ones. -/
def Over (vars : Set Var) (e : AffineForm) : Prop := ∀ t ∈ e.terms, t.1 ∈ vars

/-- The words cannot be taken for further terms. -/
def EndsTerms (names : Naming) (vars : Set Var) (words : List String) : Prop :=
  ∀ t : Term, t.1 ∈ vars → ¬followingWords names t <+: words

theorem flatMap_followingWords_inj (h : Legible names vars) {terms terms' : List Term}
    {z z' : List String} (hterms : ∀ t ∈ terms, t.1 ∈ vars) (hterms' : ∀ t ∈ terms', t.1 ∈ vars)
    (hz : EndsTerms names vars z) (hz' : EndsTerms names vars z')
    (he : terms.flatMap (followingWords names) ++ z =
      terms'.flatMap (followingWords names) ++ z') : terms = terms' ∧ z = z' := by
  induction terms generalizing terms' with
  | nil =>
      cases terms' with
      | nil => exact ⟨rfl, he⟩
      | cons u rest' =>
          rw [List.flatMap_cons, List.append_assoc] at he
          exact absurd ⟨_, he.symm⟩ (hz u (hterms' u List.mem_cons_self))
  | cons t rest ih =>
      obtain ⟨ht, hrest⟩ := List.forall_mem_cons.1 hterms
      cases terms' with
      | nil =>
          rw [List.flatMap_cons, List.append_assoc] at he
          exact absurd ⟨_, he⟩ (hz' t ht)
      | cons u rest' =>
          obtain ⟨hu, hrest'⟩ := List.forall_mem_cons.1 hterms'
          rw [List.flatMap_cons, List.flatMap_cons, List.append_assoc, List.append_assoc] at he
          obtain ⟨hfirst, hothers⟩ := List.append_inj he rfl
          obtain rfl := followingWords_inj h ht hu hfirst
          obtain ⟨rfl, hz⟩ := ih hrest hrest' hothers
          exact ⟨rfl, hz⟩

/-- Terms can be told from what is written after them. -/
theorem termsWords_inj (h : Legible names vars) (he : ¬e.isConst = true) (hf : ¬f.isConst = true)
    (hev : e.Over vars) (hfv : f.Over vars) {z z' : List String} (hz : EndsTerms names vars z)
    (hz' : EndsTerms names vars z')
    (hw : termsWords names e.terms ++ z = termsWords names f.terms ++ z') :
    e.terms = f.terms ∧ z = z' := by
  obtain ⟨t, rest, hterms⟩ := exists_terms he
  obtain ⟨u, rest', hterms'⟩ := exists_terms hf
  rw [Over, hterms, List.forall_mem_cons] at hev
  rw [Over, hterms', List.forall_mem_cons] at hfv
  rw [hterms, hterms'] at hw ⊢
  obtain ⟨hfirst, hothers⟩ := List.cons.inj hw
  obtain rfl := leadingText_inj h hev.1 hfv.1 hfirst
  obtain ⟨rfl, hz⟩ := flatMap_followingWords_inj h hev.2 hfv.2 hz hz' hothers
  exact ⟨rfl, hz⟩

/-- A form with terms does not begin as a constant does. -/
theorem termsWords_ne_decimal (h : Legible names vars) (he : ¬e.isConst = true)
    (hev : e.Over vars) (n : Int) {z z' : List String} :
    termsWords names e.terms ++ z ≠ decimal n :: z' := by
  intro hw
  obtain ⟨t, rest, hterms⟩ := exists_terms he
  rw [Over, hterms, List.forall_mem_cons] at hev
  rw [hterms] at hw
  exact leadingText_ne_decimal h hev.1 n (List.cons.inj hw).1

theorem constantWords_inj {c d : Int} (h : constantWords c = constantWords d) : c = d := by
  unfold constantWords at h
  split at h <;> split at h
  next hc hd => rw [hc, hd]
  next => cases h
  next => cases h
  next =>
    obtain ⟨hsign, htail⟩ := List.cons.inj h
    exact int_eq_of_natAbs (signWord_inj hsign) (repr_injective (List.cons.inj htail).1)

theorem endsTerms_constantWords (h : Legible names vars) (c : Int) :
    EndsTerms names vars (constantWords c) := by
  intro t ht hprefix
  unfold constantWords at hprefix
  split at hprefix
  next => cases List.prefix_nil.1 hprefix
  next =>
    have hwords := hprefix.eq_of_length rfl
    exact magnitudeText_ne_repr h ht _ (List.cons.inj (List.cons.inj hwords).2).1

theorem words_injOn (h : Legible names vars) : Set.InjOn (words names) {e | e.Over vars} := by
  intro e hev f hfv hw
  dsimp only [words] at hw
  split at hw <;> split at hw
  next he hf =>
    have hconstant := decimal_injective (List.cons.inj hw).1
    rw [isConst_iff.1 he, isConst_iff.1 hf, hconstant]
  next hf => exact absurd hw.symm (termsWords_ne_decimal h hf hfv _)
  next he _ => exact absurd hw (termsWords_ne_decimal h he hev _)
  next he hf =>
    obtain ⟨hterms, hconstant⟩ := termsWords_inj h he hf hev hfv (endsTerms_constantWords h _)
      (endsTerms_constantWords h _) hw
    exact ext_iff.2 ⟨hterms, constantWords_inj hconstant⟩

theorem words_ne_nil (names : Naming) (e : AffineForm) : e.words names ≠ [] := by
  unfold words
  split
  next => exact List.cons_ne_nil _ _
  next he =>
    obtain ⟨t, rest, hterms⟩ := exists_terms he
    rw [hterms]
    exact List.cons_ne_nil _ _

theorem blank_notMem_termsWords (h : Legible names vars) (hev : e.Over vars) :
    ∀ w ∈ termsWords names e.terms, ' ' ∉ w.toList := by
  unfold Over at hev
  cases hterms : e.terms with
  | nil => exact List.forall_mem_nil _
  | cons t rest =>
      rw [hterms, List.forall_mem_cons] at hev
      refine List.forall_mem_cons.2 ⟨?_, fun w hw => ?_⟩
      · rw [leadingText, String.toList_append, List.mem_append, not_or]
        refine ⟨?_, blank_notMem_magnitudeText h hev.1⟩
        split <;> decide
      · obtain ⟨u, hu, hw⟩ := List.mem_flatMap.1 hw
        rcases List.mem_pair.1 hw with rfl | rfl
        · exact blank_notMem_signWord _
        · exact blank_notMem_magnitudeText h (hev.2 u hu)

theorem blank_notMem_words (h : Legible names vars) (hev : e.Over vars) :
    ∀ w ∈ e.words names, ' ' ∉ w.toList := by
  unfold words
  split
  next => exact List.forall_mem_singleton.2 (blank_notMem_decimal _)
  next =>
    refine List.forall_mem_append.2 ⟨blank_notMem_termsWords h hev, fun w hw => ?_⟩
    unfold constantWords at hw
    split at hw
    next => cases hw
    next =>
      rcases List.mem_pair.1 hw with rfl | rfl
      · exact blank_notMem_signWord _
      · exact blank_notMem_repr _

theorem text_injOn (h : Legible names vars) : Set.InjOn (text names) {e | e.Over vars} := by
  intro e hev f hfv he
  rw [text_eq_words, text_eq_words] at he
  exact words_injOn h hev hfv (words_eq_of_intercalate (words_ne_nil _ _) (words_ne_nil _ _)
    (blank_notMem_words h hev) (blank_notMem_words h hfv) he)

end AffineForm

namespace Constraint

variable {names : Naming} {vars : Set Var} {c d : Constraint}

theorem Kind.text_injective : Function.Injective Kind.text := by
  intro j k h
  cases j <;> cases k <;> first | rfl | exact absurd h (by decide)

def words (names : Naming) (c : Constraint) : List String :=
  (if c.form.isConst then [decimal 0] else AffineForm.termsWords names c.form.terms) ++
    [c.kind.text, decimal (-c.form.constant)]

theorem text_eq_words (names : Naming) (c : Constraint) :
    c.text names = " ".intercalate (c.words names) := by
  apply String.toList_inj.1
  have hblank : " ".toList = [' '] := rfl
  unfold text words
  split
  next =>
    rw [List.singleton_append, toList_intercalate_cons]
    simp only [String.toList_append, hblank, List.flatMap_cons, List.flatMap_nil, List.append_nil,
      List.append_assoc, List.nil_append, List.cons_append]
    rfl
  next he =>
    obtain ⟨t, rest, hterms⟩ := AffineForm.exists_terms he
    rw [hterms, AffineForm.termsWords, List.cons_append, toList_intercalate_cons]
    simp only [String.toList_append, AffineForm.toList_termsText, hblank, List.flatMap_append,
      List.flatMap_cons, List.flatMap_nil, List.append_nil, List.append_assoc,
      List.nil_append, List.cons_append]

theorem endsTerms_comparison (names : Naming) (vars : Set Var) (kind : Kind) (n : Int) :
    AffineForm.EndsTerms names vars [kind.text, decimal n] := by
  intro t _ hprefix
  have hwords := hprefix.eq_of_length rfl
  have hsign : signWord t.2 = kind.text := (List.cons.inj hwords).1
  unfold signWord at hsign
  split at hsign <;> cases kind <;> exact absurd hsign (by decide)

theorem words_injOn (h : Legible names vars) :
    Set.InjOn (words names) {c | c.form.Over vars} := by
  intro c hcv d hdv hw
  dsimp only [words] at hw
  have hcompared : c.form.terms = d.form.terms ∧
      [c.kind.text, decimal (-c.form.constant)] = [d.kind.text, decimal (-d.form.constant)] := by
    split at hw <;> split at hw
    next hc hd =>
      have hnone : c.form.terms = d.form.terms := by
        rw [AffineForm.isConst_iff.1 hc, AffineForm.isConst_iff.1 hd]
        rfl
      exact ⟨hnone, (List.cons.inj hw).2⟩
    next hd => exact absurd hw.symm (AffineForm.termsWords_ne_decimal h hd hdv 0)
    next hc _ => exact absurd hw (AffineForm.termsWords_ne_decimal h hc hcv 0)
    next hc hd =>
      exact AffineForm.termsWords_inj h hc hd hcv hdv (endsTerms_comparison _ _ _ _)
        (endsTerms_comparison _ _ _ _) hw
  obtain ⟨hterms, hcomparison⟩ := hcompared
  obtain ⟨hkind, hrest⟩ := List.cons.inj hcomparison
  have hconstant := decimal_injective (List.cons.inj hrest).1
  obtain ⟨form, kind⟩ := c
  obtain ⟨form', kind'⟩ := d
  obtain rfl := Kind.text_injective hkind
  obtain rfl := AffineForm.ext_iff.2 ⟨hterms, Int.neg_inj.1 hconstant⟩
  rfl

theorem blank_notMem_words (h : Legible names vars) (hcv : c.form.Over vars) :
    ∀ w ∈ c.words names, ' ' ∉ w.toList := by
  refine List.forall_mem_append.2 ⟨?_, fun w hw => ?_⟩
  · split
    next => exact List.forall_mem_singleton.2 (blank_notMem_decimal 0)
    next => exact AffineForm.blank_notMem_termsWords h hcv
  · rcases List.mem_pair.1 hw with rfl | rfl
    · cases c.kind <;> decide
    · exact blank_notMem_decimal _

theorem text_injOn (h : Legible names vars) :
    Set.InjOn (text names) {c | c.form.Over vars} := by
  intro c hcv d hdv he
  rw [text_eq_words, text_eq_words] at he
  exact words_injOn h hcv hdv (words_eq_of_intercalate (by simp [words]) (by simp [words])
    (blank_notMem_words h hcv) (blank_notMem_words h hdv) he)

end Constraint

/-- Two forms over variables with legible names that are written alike are the same, and so are two
constraints of any kinds. -/
theorem text_unambiguous {names : Naming} {vars : Set Var} (h : Legible names vars) :
    (∀ e f : AffineForm, (∀ t ∈ e.terms, t.1 ∈ vars) → (∀ t ∈ f.terms, t.1 ∈ vars) →
      e.text names = f.text names → e = f) ∧
    ∀ c d : Constraint, (∀ t ∈ c.form.terms, t.1 ∈ vars) → (∀ t ∈ d.form.terms, t.1 ∈ vars) →
      c.text names = d.text names → c = d :=
  ⟨fun _ _ he hf => AffineForm.text_injOn h he hf,
    fun _ _ hc hd => Constraint.text_injOn h hc hd⟩

/-- One variable is called like a sign, the other one like a comparison. -/
def signNames : Naming := fun v => if v.id = 0 then "+" else "<="

/-- Names that look like signs and comparisons do no harm. -/
theorem text_unambiguous_signNames : Legible signNames {v | v.id < 2} ∧
    ∀ c : Constraint, (∀ t ∈ c.form.terms, t.1.id < 2) → c.text signNames = "+ - <= <= -1" →
      c = .le (.ofVar ⟨0⟩) ((AffineForm.ofVar ⟨1⟩).addConst (-1)) := by
  have hvars : ∀ v : Var, v.id < 2 → v = ⟨0⟩ ∨ v = ⟨1⟩ := by
    rintro ⟨_ | _ | i⟩ hv
    · exact .inl rfl
    · exact .inr rfl
    · exact absurd (show i + 2 < 2 from hv) (by omega)
  have hlegible : Legible signNames {v | v.id < 2} := by
    refine ⟨fun v hv w hw he => ?_, fun v hv => ?_, fun v hv => ?_, fun v hv => ?_⟩
    · rcases hvars v hv with rfl | rfl <;> rcases hvars w hw with rfl | rfl <;>
        first | rfl | exact absurd he (by decide)
    all_goals rcases hvars v hv with rfl | rfl <;> simp [signNames]
  have hd : ∀ t ∈ (Constraint.le (.ofVar ⟨0⟩) ((AffineForm.ofVar ⟨1⟩).addConst (-1))).form.terms,
      t.1.id < 2 := by
    decide
  refine ⟨hlegible, fun c hc htext => ?_⟩
  exact (text_unambiguous hlegible).2 c _ hc hd (htext.trans (by decide))

end AffineFlow
