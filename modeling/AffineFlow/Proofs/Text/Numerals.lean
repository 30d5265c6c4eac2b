import AffineFlow.AffineForm.Text
import Mathlib.Data.List.Basic
import Mathlib.Logic.Function.Basic

/-!
# Numerals

A numeral is a nonempty run of digits that determines its number. A minus sign
in front of a text that does not begin with one can be told from the text, so a
number in decimal notation can be read back with its sign.
-/
namespace AffineFlow

variable {n : Nat} {a b : String} {c : Char}

theorem isDigit_of_mem_repr (h : c ∈ (Nat.repr n).toList) : c.isDigit = true := by
  rw [Nat.toList_repr] at h
  exact Nat.isDigit_of_mem_toDigits (by decide) (by decide) h

theorem repr_toList_ne_nil (n : Nat) : (Nat.repr n).toList ≠ [] := by
  rw [Nat.toList_repr]
  exact Nat.toDigits_ne_nil

theorem repr_injective : Function.Injective Nat.repr := by
  intro i j h
  have hdigits : Nat.toDigits 10 i = Nat.toDigits 10 j := by
    rw [← Nat.toList_repr, ← Nat.toList_repr, h]
  calc
    i = Nat.ofDigitChars 10 (Nat.toDigits 10 i) 0 := Nat.ofDigitChars_ten_toDigits.symm
    _ = Nat.ofDigitChars 10 (Nat.toDigits 10 j) 0 := by rw [hdigits]
    _ = j := Nat.ofDigitChars_ten_toDigits

/-- The text does not begin with a minus sign. -/
def Unsigned (s : String) : Prop := s.toList.head? ≠ some '-'

theorem unsigned_repr (n : Nat) : Unsigned (Nat.repr n) := by
  intro h
  have hdigit := isDigit_of_mem_repr (List.mem_of_mem_head? h)
  exact absurd hdigit (by decide)

/-- A minus sign that may stand in front of a text shows, and so does the text. -/
theorem sign_append_inj {p q : Prop} [Decidable p] [Decidable q] (ha : Unsigned a)
    (hb : Unsigned b) (h : (if p then "-" else "") ++ a = (if q then "-" else "") ++ b) :
    (p ↔ q) ∧ a = b := by
  have hlist := congrArg String.toList h
  have hempty : "".toList = [] := rfl
  have hminus : "-".toList = ['-'] := rfl
  simp only [String.toList_append] at hlist
  unfold Unsigned at ha hb
  by_cases hp : p <;> by_cases hq : q <;>
    simp only [hp, hq, if_true, if_false, hempty, hminus, List.nil_append, List.singleton_append]
      at hlist
  · exact ⟨by simp [hp, hq], String.toList_inj.1 (List.cons.inj hlist).2⟩
  · rw [← hlist] at hb
    exact absurd rfl hb
  · rw [hlist] at ha
    exact absurd rfl ha
  · exact ⟨by simp [hp, hq], String.toList_inj.1 hlist⟩

theorem decimal_eq (n : Int) :
    decimal n = (if n < 0 then "-" else "") ++ Nat.repr n.natAbs := by
  unfold decimal
  split
  next => rfl
  next => rw [String.empty_append]

theorem decimal_injective : Function.Injective decimal := by
  intro m n h
  rw [decimal_eq, decimal_eq] at h
  obtain ⟨hsign, hrepr⟩ := sign_append_inj (unsigned_repr _) (unsigned_repr _) h
  have habs := repr_injective hrepr
  omega

end AffineFlow
