import Mathlib.Data.List.Basic
import Mathlib.Data.Nat.Digits.Defs

/-! Do-while loops that emit the digits of a number, the least significant first. -/

namespace DigitLoop

variable {α : Type*} (b : Nat) (c : Nat → α)

/-- At most `n` rounds. -/
def digits : Nat → Nat → List α
  | 0, _ => []
  | n + 1, v => c (v % b) :: if v / b = 0 then [] else digits n (v / b)

variable {b} {n v : Nat}

theorem digits_eq (f : Char → α) (hb : 1 < b) (hn : 0 < n) (hv : v < b ^ n) :
    digits b (fun d => f d.digitChar) n v = ((Nat.toDigits b v).map f).reverse := by
  induction n generalizing v with
  | zero => omega
  | succ n ih =>
    rw [digits, Nat.toDigits_eq_if hb]
    by_cases hlt : v < b
    · simp [hlt, Nat.div_eq_of_lt hlt, Nat.mod_eq_of_lt hlt]
    · have hdiv : v / b ≠ 0 := (Nat.div_pos (not_lt.mp hlt) (by omega)).ne'
      have hpow : v / b < b ^ n := by
        rw [Nat.div_lt_iff_lt_mul (by omega), ← Nat.pow_succ]
        exact hv
      have hpos : 0 < n := by
        rcases Nat.eq_zero_or_pos n with rfl | hpos
        · exact absurd (Nat.lt_one_iff.mp hpow) hdiv
        · exact hpos
      rw [if_neg hdiv, if_neg hlt, ih hpos hpow]
      simp

theorem head_toDigits {n : Nat} (hb : 1 < b) (hn : 0 < n) :
    (Nat.toDigits b n).head? ≠ some '0' := by
  induction n using Nat.strong_induction_on with
  | _ n ih =>
    rw [Nat.toDigits_eq_if hb]
    by_cases hlt : n < b
    · simp [hlt, hn.ne']
    · have hdiv : 0 < n / b := Nat.div_pos (not_lt.mp hlt) (by omega)
      rw [if_neg hlt, List.head?_append_of_ne_nil _ Nat.toDigits_ne_nil]
      exact ih (n / b) (Nat.div_lt_self hn hb) hdiv

end DigitLoop
