import AffineFlow.Proofs.Supply.Extension

/-!
# Granted names

The search for a name is a loop: while the name is taken, the suffix is
appended. Each pass makes the name longer, so it leaves behind one of the taken
names for good, and the loop ends after at most as many passes as names are
taken. The bound that the supply puts on the search is therefore never what
stops it, a granted name is new, and the names of a supply stay apart.
-/
namespace AffineFlow

namespace VarSupply

/-- The loop that starts with the one name ends with the other. -/
inductive Distinguishes (taken : List String) (suffix : String) : String → String → Prop
  | done {name : String} (h : name ∉ taken) : Distinguishes taken suffix name name
  | again {name result : String} (h : name ∈ taken)
      (rest : Distinguishes taken suffix (name ++ suffix) result) :
      Distinguishes taken suffix name result

namespace Distinguishes

variable {taken : List String} {suffix name result : String}

theorem not_taken (h : Distinguishes taken suffix name result) : result ∉ taken := by
  induction h with
  | done h => exact h
  | again _ _ ih => exact ih

theorem eq_of_not_taken (h : Distinguishes taken suffix name result) (hn : name ∉ taken) :
    result = name := by
  cases h with
  | done _ => rfl
  | again h _ => exact absurd h hn

end Distinguishes

/-- The names that the search can still meet are among `rest`, since no shorter one comes up
again, and each pass removes one of them. -/
theorem distinguishes_of_subset {taken : List String} (rest : List String) {suffix : String}
    (hs : suffix ≠ "") {fuel : Nat} {name : String}
    (hrest : ∀ n ∈ taken, name.length ≤ n.length → n ∈ rest)
    (hfuel : rest.length < fuel) :
    Distinguishes taken suffix name (distinguish taken suffix fuel name) := by
  induction fuel generalizing rest name with
  | zero => omega
  | succ fuel ih =>
      unfold distinguish
      split
      next hname =>
        have hpos : 0 < suffix.length :=
          Nat.pos_of_ne_zero fun h => hs (String.length_eq_zero_iff.1 h)
        have hmem : name ∈ rest := hrest name hname (Nat.le_refl _)
        refine .again hname (ih (rest.erase name) ?_ ?_)
        · intro n hn hlen
          rw [String.length_append] at hlen
          have hne : n ≠ name := by
            rintro rfl
            omega
          exact (List.mem_erase_of_ne hne).2 (hrest n hn (by omega))
        · have := List.length_pos_of_mem hmem
          rw [List.length_erase_of_mem hmem]
          omega
      next hname => exact .done hname

variable (s : VarSupply) (name : String)

theorem grantedName_distinguishes :
    Distinguishes s.names ("." ++ Nat.repr s.size) name (s.grantedName name) := by
  refine distinguishes_of_subset s.names ?_ (fun n hn _ => hn) (Nat.lt_succ_self _)
  intro h
  have := congrArg String.length h
  rw [String.length_append] at this
  simp at this

theorem grantedName_not_mem : s.grantedName name ∉ s.names :=
  (s.grantedName_distinguishes name).not_taken

variable {s name}

theorem grantedName_of_not_mem (h : name ∉ s.names) : s.grantedName name = name :=
  (s.grantedName_distinguishes name).eq_of_not_taken h

theorem mint_names_nodup (h : s.names.Nodup) : (s.mint name).names.Nodup := by
  refine List.nodup_append.2 ⟨h, List.nodup_singleton _, ?_⟩
  intro n hn m hm
  rw [List.mem_singleton.1 hm]
  rintro rfl
  exact s.grantedName_not_mem name hn

end VarSupply

end AffineFlow
