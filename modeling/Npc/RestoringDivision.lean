import Mathlib.Algebra.Ring.Nat

/-! Restoring division of natural numbers: the quotient is found bit by bit from the top, by
comparing the remainder with the shifted divisor, or by shifting the dividend into the remainder. -/

namespace RestoringDivision

/-- The bits of the quotient of `n` by `d` from `k` up are those of `q`, the remainder is `r`. -/
structure Partial (n d k q r : Nat) : Prop where
  value : q * d + r = n
  dvd : 2 ^ k ∣ q
  bound : r < d * 2 ^ k

variable {n d k q r : Nat}

theorem start (h : n < d * 2 ^ k) : Partial n d k 0 n := ⟨by omega, Nat.dvd_zero _, h⟩

namespace Partial

theorem skip (h : Partial n d (k + 1) q r) (hr : r < d * 2 ^ k) : Partial n d k q r :=
  ⟨h.value, Nat.dvd_trans (Nat.pow_dvd_pow 2 (Nat.le_succ k)) h.dvd, hr⟩

theorem subtract (h : Partial n d (k + 1) q r) (hr : d * 2 ^ k ≤ r) :
    Partial n d k (q + 2 ^ k) (r - d * 2 ^ k) := by
  constructor
  case value =>
    have hv := h.value
    rw [Nat.add_mul, Nat.mul_comm (2 ^ k) d]
    omega
  case dvd => exact Nat.dvd_add (Nat.dvd_trans (Nat.pow_dvd_pow 2 (Nat.le_succ k)) h.dvd) (Nat.dvd_refl _)
  case bound =>
    have hb := h.bound
    rw [Nat.pow_succ, ← Nat.mul_assoc] at hb
    omega

/-- The bit is not yet set, so that adding it sets it. -/
theorem or_eq (h : Partial n d (k + 1) q r) : q ||| 2 ^ k = q + 2 ^ k := by
  obtain ⟨c, rfl⟩ := h.dvd
  exact (Nat.two_pow_add_eq_or_of_lt (Nat.pow_lt_pow_right (by omega) (by omega)) c).symm

theorem done (h : Partial n d 0 q r) : q = n / d ∧ r = n % d := by
  have hv := h.value
  have hb := h.bound
  rw [Nat.pow_zero, Nat.mul_one] at hb
  rw [Nat.mul_comm] at hv
  obtain ⟨hq, hr⟩ := (Nat.div_mod_unique (by omega)).mpr ⟨(Nat.add_comm _ _).trans hv, hb⟩
  exact ⟨hq.symm, hr.symm⟩

end Partial

/-- The bits of `n` from `k` up, as a number, divided by `d`. -/
structure Prefix (n d k q r : Nat) : Prop where
  value : q * d + r = n / 2 ^ k
  bound : r < d

namespace Prefix

theorem value_next (h : Prefix n d (k + 1) q r) : 2 * q * d + (2 * r + n / 2 ^ k % 2) = n / 2 ^ k := by
  have hv := h.value
  rw [Nat.pow_succ, ← Nat.div_div_eq_div_mul] at hv
  rw [Nat.mul_assoc]
  omega

theorem skip (h : Prefix n d (k + 1) q r) (hr : 2 * r + n / 2 ^ k % 2 < d) :
    Prefix n d k (2 * q) (2 * r + n / 2 ^ k % 2) := ⟨h.value_next, hr⟩

theorem subtract (h : Prefix n d (k + 1) q r) (hr : d ≤ 2 * r + n / 2 ^ k % 2) :
    Prefix n d k (2 * q + 1) (2 * r + n / 2 ^ k % 2 - d) := by
  have hv := h.value_next
  have hb := h.bound
  constructor
  case value =>
    rw [Nat.add_mul, Nat.one_mul]
    omega
  case bound => omega

theorem quotient_le (h : Prefix n d k q r) : q ≤ n / 2 ^ k := by
  have hv := h.value
  have hq := Nat.le_mul_of_pos_right q (Nat.zero_lt_of_lt h.bound)
  omega

theorem done (h : Prefix n d 0 q r) : q = n / d ∧ r = n % d := by
  have hv := h.value
  rw [Nat.pow_zero, Nat.div_one, Nat.mul_comm] at hv
  obtain ⟨hq, hr⟩ := (Nat.div_mod_unique (Nat.zero_lt_of_lt h.bound)).mpr ⟨(Nat.add_comm _ _).trans hv, h.bound⟩
  exact ⟨hq.symm, hr.symm⟩

end Prefix

end RestoringDivision
