import Mathlib.Data.BitVec
import Mathlib.Data.Nat.Prime.Basic
import Mathlib.Dynamics.PeriodicPts.Defs

/-! Streams of bits with a linear recurrence over GF(2). A word `r` of `w` bits stands for a
polynomial of degree below `w`; modulo the polynomial of the recurrence, `x ^ e` says how far
the stream is from its shift by `e`. So periods are found by squaring polynomials. -/

namespace XorRecurrence

variable {w : Nat}

/-- The sum of the stream's bits from `n` on that the bits of `r` from `i` on select. -/
def comb (r : BitVec w) (s : Nat → Bool) (n i : Nat) : Nat → Bool
  | 0 => false
  | k + 1 => (r.getLsbD i && s n) ^^ comb r s (n + 1) (i + 1) k

def mulX (t r : BitVec w) : BitVec w := (r <<< 1) ^^^ (if r.msb then t else 0#w)

def mulFrom (t b a : BitVec w) (i : Nat) : Nat → BitVec w
  | 0 => 0#w
  | k + 1 => (if b.getLsbD i then a else 0#w) ^^^ mulFrom t b (mulX t a) (i + 1) k

def mul (t b a : BitVec w) : BitVec w := mulFrom t b a 0 w

/-- `x ^ e`, for `e` below `2 ^ k`. -/
def powX (t : BitVec w) : (k e : Nat) → BitVec w
  | 0, _ => 1#w
  | k + 1, e =>
    let r := powX t k (e / 2)
    if e % 2 = 1 then mulX t (mul t r r) else mul t r r

/-- The shift of the stream by `e` is the combination `r` of the stream. -/
def Shifts (s : Nat → Bool) (r : BitVec w) (e : Nat) : Prop := ∀ n, s (n + e) = comb r s n 0 w

section Comb

variable {s : Nat → Bool}

theorem comb_zero (n i k : Nat) : comb (0#w) s n i k = false := by
  induction k generalizing n i with
  | zero => rfl
  | succ k ih => simp [comb, ih]

theorem comb_xor (a b : BitVec w) (n i k : Nat) :
    comb (a ^^^ b) s n i k = (comb a s n i k ^^ comb b s n i k) := by
  induction k generalizing n i with
  | zero => rfl
  | succ k ih =>
    rw [comb, comb, comb, ih, BitVec.getLsbD_xor]
    cases a.getLsbD i <;> cases b.getLsbD i <;> cases s n <;> simp

theorem comb_if (p : Bool) (a : BitVec w) (n i k : Nat) :
    comb (if p then a else 0#w) s n i k = (p && comb a s n i k) := by
  cases p <;> simp [comb_zero]

theorem comb_congr {s' : Nat → Bool} (r : BitVec w) {n k : Nat} (i : Nat) (h : ∀ j < k, s (n + j) = s' (n + j)) :
    comb r s n i k = comb r s' n i k := by
  induction k generalizing n i with
  | zero => rfl
  | succ k ih =>
    have h0 := h 0 (by omega)
    rw [Nat.add_zero] at h0
    rw [comb, comb, h0, ih (i + 1) fun j hj => by
      have hj' := h (j + 1) (by omega)
      rwa [← Nat.add_assoc, Nat.add_right_comm] at hj']

theorem comb_top (r : BitVec w) (n i k : Nat) :
    comb r s n i (k + 1) = (comb r s n i k ^^ (r.getLsbD (i + k) && s (n + k))) := by
  induction k generalizing n i with
  | zero => simp [comb]
  | succ k ih =>
    rw [comb, ih, comb, Bool.xor_assoc, Nat.add_right_comm n, Nat.add_right_comm i, Nat.add_assoc n,
      Nat.add_assoc i]

theorem comb_shiftLeft (r : BitVec w) (n i : Nat) {k : Nat} (hk : i + 1 + k ≤ w) :
    comb (r <<< 1) s n (i + 1) k = comb r s n i k := by
  induction k generalizing n i with
  | zero => rfl
  | succ k ih =>
    rw [comb, comb, ih (n + 1) (i + 1) (by omega), BitVec.getLsbD_shiftLeft]
    simp [show i + 1 < w by omega]

theorem comb_mulX {t : BitVec w} (ht : Shifts s t w) (r : BitVec w) (n : Nat) :
    comb (mulX t r) s n 0 w = comb r s (n + 1) 0 w := by
  cases w with
  | zero => rfl
  | succ k =>
    have hlow : comb (r <<< 1) s n 0 (k + 1) = comb r s (n + 1) 0 k := by
      rw [comb, comb_shiftLeft r (n + 1) 0 (by omega)]
      simp
    have hn := ht n
    rw [mulX, comb_xor, hlow, comb_if, ← hn, comb_top, BitVec.msb_eq_getLsbD_last, Nat.zero_add,
      Nat.add_right_comm, Nat.add_assoc n k, Nat.add_sub_cancel]

theorem comb_mulFrom {t a : BitVec w} {e : Nat} (ht : Shifts s t w) (ha : Shifts s a e) (b : BitVec w)
    (n i k : Nat) :
    comb (mulFrom t b a i k) s n 0 w = comb b s (n + e) i k := by
  induction k generalizing a e i with
  | zero => exact comb_zero _ _ _
  | succ k ih =>
    have ha' : Shifts s (mulX t a) (e + 1) := by
      intro m
      rw [comb_mulX ht, ← ha (m + 1)]
      congr 1
      omega
    rw [mulFrom, comb_xor, comb_if, ← ha n, ih ha', comb, Nat.add_assoc]

end Comb

section Shifts

variable {s : Nat → Bool} {t a b : BitVec w} {e e' : Nat}

theorem shifts_one (hw : 0 < w) : Shifts s (1#w) 0 := by
  have htail : ∀ k n i, 1 ≤ i → comb (1#w) s n i k = false := by
    intro k
    induction k with
    | zero => exact fun _ _ _ => rfl
    | succ k ih =>
      intro n i hi
      rw [comb, ih (n + 1) (i + 1) (by omega)]
      simp [BitVec.getLsbD_one, show ¬ i = 0 by omega]
  intro n
  obtain ⟨k, rfl⟩ := Nat.exists_eq_add_of_le' hw
  rw [comb, htail k (n + 1) (0 + 1) (by omega)]
  simp

theorem Shifts.mulX (ha : Shifts s a e) (ht : Shifts s t w) : Shifts s (mulX t a) (e + 1) := by
  intro n
  rw [comb_mulX ht, ← ha (n + 1)]
  congr 1
  omega

theorem Shifts.mul (ha : Shifts s a e) (hb : Shifts s b e') (ht : Shifts s t w) :
    Shifts s (mul t b a) (e + e') := by
  intro n
  rw [XorRecurrence.mul, comb_mulFrom ht ha, ← hb (n + e), Nat.add_assoc]

theorem shifts_powX (ht : Shifts s t w) (hw : 0 < w) {k : Nat} (he : e < 2 ^ k) : Shifts s (powX t k e) e := by
  induction k generalizing e with
  | zero =>
    obtain rfl : e = 0 := by simpa using he
    exact shifts_one hw
  | succ k ih =>
    have hr := ih (e := e / 2) (by omega)
    have hsq := hr.mul hr ht
    rw [powX]
    split_ifs with hodd
    · have hh := hsq.mulX ht
      rwa [show e / 2 + e / 2 + 1 = e by omega] at hh
    · rwa [show e / 2 + e / 2 = e by omega] at hsq

end Shifts

/-- A period no prime divides out is the least one. -/
theorem minimalPeriod_eq_of_div_prime {α : Type*} {f : α → α} {x : α} {n : Nat} (hx : f^[n] x = x)
    (hd : ∀ p, p.Prime → p ∣ n → f^[n / p] x ≠ x) : Function.minimalPeriod f x = n := by
  have hdvd : Function.minimalPeriod f x ∣ n := Function.IsPeriodicPt.minimalPeriod_dvd hx
  by_contra hne
  obtain ⟨c, hc⟩ := hdvd
  have hc1 : c ≠ 1 := by
    rintro rfl
    exact hne (by omega)
  obtain ⟨p, hp, c', rfl⟩ := Nat.exists_prime_and_dvd hc1
  have hnp : n / p = Function.minimalPeriod f x * c' := by
    rw [hc, Nat.mul_left_comm, Nat.mul_div_cancel_left _ hp.pos]
  have hdvd' : p ∣ n := ⟨Function.minimalPeriod f x * c', by rw [hc, Nat.mul_left_comm]⟩
  apply hd p hp hdvd'
  rw [hnp]
  exact (Function.isPeriodicPt_minimalPeriod f x).mul_const c'

end XorRecurrence
