import AffineFlow.Label
import AffineFlow.Proofs.Text.Numerals

/-!
# Granted labels

Labels that were asked for and labels that got a suffix share one table, so the
label that a suffix makes can be taken already, and the search goes on to the
next suffix. Each label that it passes over is one of the finitely many taken
ones and comes up only once, so the search ends, before the bound that is put on
it. What a label has been granted for is kept in a ledger: no label stands there
twice, and the suffixes granted for one request grow.
-/
namespace AffineFlow

namespace LabelCounts

variable {l : LabelCounts} {base label : String} {n k r : Nat}

theorem suffixed_injective (base : String) : Function.Injective (suffixed base) := by
  intro i j h
  have hlist := congrArg String.toList h
  simp only [suffixed, String.toList_append] at hlist
  exact repr_injective (String.toList_inj.1 (List.append_cancel_left hlist))

theorem suffixed_ne (base : String) (k : Nat) : suffixed base k ≠ base := by
  intro h
  have hlength := congrArg String.length h
  simp only [suffixed, String.length_append] at hlength
  have hdot : ".".length = 1 := rfl
  omega

theorem taken_iff : l.taken label = true ↔ ∃ p ∈ l.counts, p.1 = label := by
  simp [taken]

theorem taken_iff_lookup : l.taken label = true ↔ ∃ n, l.counts.lookup label = some n := by
  rw [taken_iff]
  constructor
  · intro h
    obtain ⟨⟨_, n⟩, hp, rfl⟩ := h
    cases hl : l.counts.lookup _ with
    | none => exact absurd (List.lookup_eq_none_iff.1 hl _ hp) (by simp)
    | some m => exact ⟨m, rfl⟩
  · intro h
    obtain ⟨n, hn⟩ := h
    obtain ⟨before, after, hcounts, -⟩ := List.lookup_eq_some_iff.1 hn
    exact ⟨(label, n), by simp [hcounts], rfl⟩

theorem not_taken_of_lookup (h : l.counts.lookup label = none) : ¬l.taken label = true := by
  rw [taken_iff_lookup, h]
  simp

/-- The search that tries the suffix `k` first ends with the suffix `r`. -/
inductive Searches (l : LabelCounts) (base : String) : Nat → Nat → Prop
  | found {k : Nat} (h : ¬l.taken (suffixed base k) = true) : Searches l base k k
  | next {k r : Nat} (h : l.taken (suffixed base k) = true) (rest : Searches l base (k + 1) r) :
      Searches l base k r

namespace Searches

theorem not_taken (h : l.Searches base k r) : ¬l.taken (suffixed base r) = true := by
  induction h with
  | found h => exact h
  | next _ _ ih => exact ih

theorem le (h : l.Searches base k r) : k ≤ r := by
  induction h with
  | found _ => exact Nat.le_refl _
  | next _ _ ih => exact Nat.le_of_succ_le ih

end Searches

/-- The labels that the search can still meet are among `rest`, since no suffix comes up again, and
each one that it passes over is removed from it. -/
theorem searches_of_subset (rest : List String) {fuel : Nat}
    (hrest : ∀ j, k < j → l.taken (suffixed base j) = true → suffixed base j ∈ rest)
    (hfuel : rest.length ≤ fuel) : l.Searches base (k + 1) (l.nextSuffix base fuel k) := by
  induction fuel generalizing rest k with
  | zero =>
      obtain rfl := List.length_eq_zero_iff.1 (Nat.le_zero.1 hfuel)
      exact .found fun h => absurd (hrest _ (Nat.lt_succ_self _) h) (List.not_mem_nil)
  | succ fuel ih =>
      unfold nextSuffix
      split
      next htaken =>
        have hmem := hrest _ (Nat.lt_succ_self _) htaken
        refine .next htaken (ih (rest.erase (suffixed base (k + 1))) ?_ ?_)
        · intro j hj hj'
          have hne : suffixed base j ≠ suffixed base (k + 1) := fun he =>
            absurd (suffixed_injective base he) (Nat.ne_of_gt hj)
          exact (List.mem_erase_of_ne hne).2 (hrest j (Nat.lt_of_succ_lt hj) hj')
        · rw [List.length_erase_of_mem hmem]
          omega
      next hnew => exact .found hnew

theorem nextSuffix_searches (l : LabelCounts) (base : String) (k : Nat) :
    l.Searches base (k + 1) (l.nextSuffix base l.counts.length k) := by
  refine searches_of_subset (l.counts.map (·.1)) (fun j _ hj => ?_) (by simp)
  obtain ⟨p, hp, he⟩ := taken_iff.1 hj
  exact List.mem_map.2 ⟨p, hp, he⟩

theorem claim_of_none (h : l.counts.lookup base = none) :
    l.claim base = (base, ⟨(base, 0) :: l.counts⟩) := by
  simp [claim, h]

theorem claim_of_lookup (h : l.counts.lookup base = some n) : ∃ k, l.Searches base (n + 1) k ∧
    l.claim base = (suffixed base k, ⟨(suffixed base k, 0) :: (base, k) :: l.counts⟩) :=
  ⟨_, l.nextSuffix_searches base n, by simp [claim, h]⟩

/-- The label that a claim for `base` is granted: `base` itself if it is new, and otherwise the one
with the first free suffix after the count that is kept for `base`. -/
inductive Granted (l : LabelCounts) (base : String) : String → Prop
  | itself (h : ¬l.taken base = true) : Granted l base base
  | suffix {n k : Nat} (hn : l.counts.lookup base = some n) (hk : l.Searches base (n + 1) k) :
      Granted l base (suffixed base k)

theorem claim_granted (l : LabelCounts) (base : String) : l.Granted base (l.claim base).1 := by
  cases hl : l.counts.lookup base with
  | none =>
      rw [claim_of_none hl]
      exact .itself (not_taken_of_lookup hl)
  | some n =>
      obtain ⟨k, hk, hclaim⟩ := claim_of_lookup hl
      rw [hclaim]
      exact .suffix hl hk

theorem Granted.not_taken (h : l.Granted base label) : ¬l.taken label = true := by
  cases h with
  | itself h => exact h
  | suffix _ hk => exact hk.not_taken

/-- Nothing but the label granted becomes taken. -/
theorem taken_claim_iff : (l.claim base).2.taken label = true ↔
    label = (l.claim base).1 ∨ l.taken label = true := by
  cases hl : l.counts.lookup base with
  | none =>
      rw [claim_of_none hl, eq_comm (a := label)]
      simp [taken]
  | some n =>
      obtain ⟨k, -, hclaim⟩ := claim_of_lookup hl
      have hbase : l.taken base = true := taken_iff_lookup.2 ⟨n, hl⟩
      have htwo : taken ⟨(suffixed base k, 0) :: (base, k) :: l.counts⟩ label = true ↔
          suffixed base k = label ∨ base = label ∨ l.taken label = true := by simp [taken]
      rw [hclaim, htwo, eq_comm, or_congr_right]
      exact ⟨fun h => h.elim (fun he => he ▸ hbase) id, .inr⟩

/-- A claim does not make the count of a label smaller. -/
theorem exists_lookup_claim (base : String) (h : l.counts.lookup label = some n) :
    ∃ m, (l.claim base).2.counts.lookup label = some m ∧ n ≤ m := by
  have htaken : l.taken label = true := taken_iff_lookup.2 ⟨n, h⟩
  cases hl : l.counts.lookup base with
  | none =>
      have hne : label ≠ base := fun he => not_taken_of_lookup hl (he ▸ htaken)
      refine ⟨n, ?_, Nat.le_refl n⟩
      rw [claim_of_none hl, List.lookup_cons, beq_false_of_ne hne]
      exact h
  | some m =>
      obtain ⟨k, hk, hclaim⟩ := claim_of_lookup hl
      have hne : label ≠ suffixed base k := fun he => hk.not_taken (he ▸ htaken)
      rw [hclaim, List.lookup_cons, beq_false_of_ne hne, List.lookup_cons]
      by_cases he : label = base
      · subst he
        obtain rfl := Option.some.inj (h.symm.trans hl)
        exact ⟨k, by simp, Nat.le_of_succ_le hk.le⟩
      · exact ⟨n, by rw [beq_false_of_ne he]; exact h, Nat.le_refl n⟩

/-- After a claim that was granted a suffix, the count is that suffix. -/
theorem lookup_claim_of_suffixed (h : (l.claim base).1 = suffixed base k) :
    (l.claim base).2.counts.lookup base = some k := by
  cases hl : l.counts.lookup base with
  | none =>
      rw [claim_of_none hl] at h
      exact absurd h.symm (suffixed_ne base k)
  | some n =>
      obtain ⟨r, -, hclaim⟩ := claim_of_lookup hl
      rw [hclaim] at h ⊢
      obtain rfl := suffixed_injective base h
      rw [List.lookup_cons, beq_false_of_ne (suffixed_ne base r).symm, List.lookup_cons_self]

/-- Which label was asked for, and which one was granted. -/
structure Grant where
  request : String
  label : String
  deriving DecidableEq

/-- The counts are those after the grants of the ledger. -/
structure Records (l : LabelCounts) (ledger : List Grant) : Prop where
  taken_iff : ∀ label, l.taken label = true ↔ ∃ c ∈ ledger, c.label = label
  labels_nodup : (ledger.map (·.label)).Nodup
  /-- No suffix that a request was granted exceeds the count that is kept for it. -/
  counted : ∀ c ∈ ledger, ∀ k, c.label = suffixed c.request k →
    ∃ n, l.counts.lookup c.request = some n ∧ k ≤ n

namespace Records

variable {ledger : List Grant}

theorem empty : Records {} [] := ⟨by simp [taken], List.nodup_nil, by simp⟩

/-- A label is granted once. -/
theorem ne_of_granted (h : l.Records ledger) (hg : l.Granted base label) :
    ∀ c ∈ ledger, c.label ≠ label := by
  intro c hc he
  exact hg.not_taken ((h.taken_iff label).2 ⟨c, hc, he⟩)

theorem label_eq_of_new (h : l.Records ledger) (hg : l.Granted base label)
    (hnew : ∀ c ∈ ledger, c.label ≠ base) : label = base := by
  cases hg with
  | itself _ => rfl
  | suffix hn _ =>
      obtain ⟨c, hc, he⟩ := (h.taken_iff base).1 (taken_iff_lookup.2 ⟨_, hn⟩)
      exact absurd he (hnew c hc)

/-- A request for a label that was granted before gets a larger suffix than it ever got. -/
theorem suffix_of_old (h : l.Records ledger) (hg : l.Granted base label)
    (hold : ∃ c ∈ ledger, c.label = base) : ∃ k, label = suffixed base k ∧
      ∀ c ∈ ledger, c.request = base → ∀ j, c.label = suffixed base j → j < k := by
  cases hg with
  | itself hnew => exact absurd ((h.taken_iff base).2 hold) hnew
  | @suffix n k hn hk =>
      refine ⟨k, rfl, ?_⟩
      rintro c hc rfl j hj
      obtain ⟨m, hm, hle⟩ := h.counted c hc j hj
      obtain rfl := Option.some.inj (hm.symm.trans hn)
      exact Nat.lt_of_le_of_lt hle hk.le

/-- A claim adds one grant to the ledger. -/
theorem claim (h : l.Records ledger) (base : String) :
    Records (l.claim base).2 (⟨base, (l.claim base).1⟩ :: ledger) where
  taken_iff label := by
    rw [taken_claim_iff, h.taken_iff, eq_comm]
    simp
  labels_nodup := by
    refine List.nodup_cons.2 ⟨fun hm => ?_, h.labels_nodup⟩
    obtain ⟨c, hc, he⟩ := List.mem_map.1 hm
    exact h.ne_of_granted (l.claim_granted base) c hc he
  counted c hc k hk := by
    rcases List.mem_cons.1 hc with rfl | hc
    · exact ⟨k, lookup_claim_of_suffixed hk, Nat.le_refl k⟩
    · obtain ⟨n, hn, hle⟩ := h.counted c hc k hk
      obtain ⟨m, hm, hle'⟩ := exists_lookup_claim base hn
      exact ⟨m, hm, Nat.le_trans hle hle'⟩

end Records

end LabelCounts

end AffineFlow
