import Mathlib.Algebra.Order.Ring.Nat
import Mathlib.Data.BitVec

/-! Counting the zeros above the highest one of a number and below its lowest one by halving a
window of bits. -/

namespace BinarySearchZeros

/-- The highest one of the `w` bits of `a` is in `x`, the window of `2 ^ j` bits under the first `r`. -/
structure Leading (w a j r x : Nat) : Prop where
  fits : r + 2 ^ j ≤ w
  window : x = a / 2 ^ (w - 2 ^ j - r)
  bound : x < 2 ^ 2 ^ j
  pos : 0 < x

/-- The lowest one of `a` is in the lowest `2 ^ j` bits of `x`, which is `a` without the last `r`. -/
structure Trailing (a j r x : Nat) : Prop where
  window : x = a / 2 ^ r
  dvd : 2 ^ r ∣ a
  found : x % 2 ^ 2 ^ j ≠ 0

variable {w a j r x : Nat}

theorem Leading.upper (h : Leading w a (j + 1) r x) (hx : 2 ^ 2 ^ j ≤ x) :
    Leading w a j r (x / 2 ^ 2 ^ j) := by
  have hfits := h.fits
  have hbound := h.bound
  have hpos := Nat.two_pow_pos j
  rw [Nat.pow_succ, Nat.mul_two] at hfits hbound
  constructor
  case fits => omega
  case window =>
    rw [h.window, Nat.pow_succ, Nat.div_div_eq_div_mul, ← Nat.pow_add]
    congr 2
    omega
  case bound => exact Nat.div_lt_of_lt_mul (by rwa [← Nat.pow_add])
  case pos => exact Nat.div_pos hx (Nat.two_pow_pos _)

theorem Leading.lower (h : Leading w a (j + 1) r x) (hx : x < 2 ^ 2 ^ j) :
    Leading w a j (r + 2 ^ j) x := by
  have hfits := h.fits
  rw [Nat.pow_succ, Nat.mul_two] at hfits
  constructor
  case fits => omega
  case window =>
    rw [h.window, Nat.pow_succ]
    congr 2
    omega
  case bound => exact hx
  case pos => exact h.pos

theorem Trailing.upper (h : Trailing a (j + 1) r x) (hx : x % 2 ^ 2 ^ j = 0) :
    Trailing a j (r + 2 ^ j) (x / 2 ^ 2 ^ j) := by
  have hdvd : 2 ^ r * 2 ^ 2 ^ j ∣ a := by
    rw [← Nat.div_mul_cancel h.dvd, ← h.window, Nat.mul_comm x]
    exact Nat.mul_dvd_mul_left _ (Nat.dvd_of_mod_eq_zero hx)
  have hfound := h.found
  rw [Nat.pow_succ, Nat.mul_two, Nat.pow_add, Nat.mod_mul, hx, Nat.zero_add] at hfound
  constructor
  case window => rw [h.window, Nat.div_div_eq_div_mul, ← Nat.pow_add]
  case dvd => rwa [Nat.pow_add]
  case found => exact fun hz => hfound (by rw [hz, Nat.mul_zero])

theorem Trailing.lower (h : Trailing a (j + 1) r x) (hx : x % 2 ^ 2 ^ j ≠ 0) : Trailing a j r x :=
  ⟨h.window, h.dvd, hx⟩

theorem Leading.clz {a : BitVec w} (h : Leading w a.toNat 0 r x) : a.clz.toNat = r := by
  have hx : x = 1 := by
    have hb := h.bound
    have hp := h.pos
    omega
  have hfits := h.fits
  have hdiv := h.window
  rw [hx, Nat.pow_zero] at hdiv
  have hne : a ≠ 0#w := by
    rintro rfl
    simp at hdiv
  have hlow := BitVec.two_pow_sub_clz_le_toNat_of_ne_zero (by omega) hne
  have hhigh := BitVec.toNat_lt_two_pow_sub_clz (x := a)
  obtain ⟨hl, hh⟩ := (Nat.div_eq_iff (Nat.two_pow_pos (w - 1 - r))).mp hdiv.symm
  rw [Nat.one_mul] at hl
  have hlt₁ := (Nat.pow_lt_pow_iff_right (by omega)).mp (Nat.lt_of_le_of_lt hl hhigh)
  have hlt₂ : w - 1 - a.clz.toNat < w - 1 - r + 1 := by
    rw [← Nat.pow_lt_pow_iff_right (a := 2) (by omega), Nat.pow_succ, Nat.mul_two]
    have hpos := Nat.two_pow_pos (w - 1 - r)
    rw [Nat.one_mul] at hh
    generalize 2 ^ (w - 1 - r) = e at *
    omega
  omega

theorem Trailing.ctz {a : BitVec w} (h : Trailing a.toNat 0 r x) : a.ctz.toNat = r := by
  have hodd := h.found
  have hne : a ≠ 0#w := by
    rintro rfl
    simp [h.window] at hodd
  have hbit : a.getLsbD r = true := by
    rw [BitVec.getLsbD, Nat.testBit_eq_decide_div_mod_eq, ← h.window]
    simpa using hodd
  rcases Nat.lt_trichotomy a.ctz.toNat r with hlt | heq | hgt
  · have hctz := BitVec.getLsbD_true_ctz_of_ne_zero hne
    obtain ⟨c, hc⟩ := h.dvd
    rw [BitVec.getLsbD, hc, Nat.testBit_two_pow_mul] at hctz
    simp only [Bool.and_eq_true, decide_eq_true_eq] at hctz
    omega
  · exact heq
  · rw [BitVec.getLsbD_false_of_lt_ctz hgt] at hbit
    cases hbit

theorem toNat_clz_zero : (0#w).clz.toNat = w := by
  rw [BitVec.clz_eq_iff_eq_zero.mpr rfl, BitVec.natCast_eq_ofNat, BitVec.toNat_ofNat]
  exact Nat.mod_eq_of_lt Nat.lt_two_pow_self

theorem toNat_ctz_zero : (0#w).ctz.toNat = w := by
  rw [BitVec.ctz_eq_reverse_clz, BitVec.reverse_eq_zero_iff.mpr rfl, toNat_clz_zero]

theorem leading_clz {a : BitVec w} (ha : a ≠ 0#w) : Leading w a.toNat 0 a.clz.toNat 1 := by
  have hw : 0 < w := Nat.pos_of_ne_zero fun hw => ha (by subst hw; exact BitVec.of_length_zero)
  have hlow := BitVec.two_pow_sub_clz_le_toNat_of_ne_zero hw ha
  have hhigh := BitVec.toNat_lt_two_pow_sub_clz (x := a)
  have hlt : a.clz.toNat < w := by
    by_contra hge
    rw [show w - a.clz.toNat = 0 by omega] at hhigh
    have hpos := Nat.two_pow_pos (w - 1 - a.clz.toNat)
    omega
  constructor
  case fits => omega
  case window =>
    rw [show w - a.clz.toNat = w - 1 - a.clz.toNat + 1 by omega, Nat.pow_succ'] at hhigh
    exact (Nat.div_eq_of_lt_le (by rwa [Nat.one_mul]) hhigh).symm
  case bound => decide
  case pos => decide

theorem trailing_ctz {a : BitVec w} (ha : a ≠ 0#w) :
    Trailing a.toNat 0 a.ctz.toNat (a.toNat / 2 ^ a.ctz.toNat) := by
  constructor
  case window => rfl
  case dvd =>
    apply Nat.dvd_of_mod_eq_zero
    apply Nat.eq_of_testBit_eq
    intro i
    rw [Nat.testBit_mod_two_pow, Nat.zero_testBit]
    by_cases hi : i < a.ctz.toNat
    · rw [← BitVec.getLsbD, BitVec.getLsbD_false_of_lt_ctz hi, Bool.and_false]
    · simp [hi]
  case found =>
    have hbit := BitVec.getLsbD_true_ctz_of_ne_zero ha
    rw [BitVec.getLsbD, Nat.testBit_eq_decide_div_mod_eq] at hbit
    simpa using hbit

end BinarySearchZeros
