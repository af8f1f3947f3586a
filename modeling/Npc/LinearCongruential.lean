import Mathlib.Algebra.BigOperators.Group.Finset.Basic
import Mathlib.Algebra.Ring.Periodic
import Mathlib.Data.BitVec
import Mathlib.Data.Nat.Factorization.Basic
import Mathlib.Data.Nat.ModEq
import Mathlib.Order.Interval.Finset.Nat
import Mathlib.Tactic.Positivity
import Mathlib.Tactic.Ring

/-! Linear congruential generators modulo a power of two, with a multiplier that is 1 modulo 4 and an odd
increment. The difference between a state and the one `n` steps later is `n`'s geometric sum times an odd
number, and the sum has as many factors of two as `n`. -/

namespace LinearCongruential

open Finset

def step (a c x : Nat) : Nat := a * x + c

def geom (a n : Nat) : Nat := ∑ i ∈ range n, a ^ i

section Geom

variable {a c : Nat}

theorem geom_succ (a n : Nat) : geom a (n + 1) = geom a n + a ^ n := sum_range_succ _ n

theorem geom_add (a m n : Nat) : geom a (m + n) = geom a m + a ^ m * geom a n := by
  induction n with
  | zero => simp [geom]
  | succ n ih =>
    rw [← Nat.add_assoc, geom_succ, geom_succ, ih, pow_add]
    ring

theorem geom_double (a n : Nat) : geom a (2 * n) = geom a n * (1 + a ^ n) := by
  rw [two_mul, geom_add]
  ring

/-- `a ^ n` from the sum, with the multiplier's 4 in front. -/
theorem pow_eq (b n : Nat) : (4 * b + 1) ^ n = 4 * b * geom (4 * b + 1) n + 1 := by
  induction n with
  | zero => simp [geom]
  | succ n ih =>
    rw [geom_succ, pow_succ, mul_add, ih]
    ring

theorem geom_mod_two (ha : a % 4 = 1) (n : Nat) : geom a n % 2 = n % 2 := by
  induction n with
  | zero => rfl
  | succ n ih =>
    have hodd : a ^ n % 2 = 1 := Nat.odd_iff.mp (Odd.pow (Nat.odd_iff.mpr (by omega)))
    rw [geom_succ]
    omega

theorem two_pow_dvd_geom (ha : a % 4 = 1) (k n : Nat) : 2 ^ k ∣ geom a n ↔ 2 ^ k ∣ n := by
  induction k generalizing n with
  | zero => simp
  | succ k ih =>
    obtain ⟨m, hm | hm⟩ := n.even_or_odd'
    · -- the sum of an even number of terms is that of half of them, twice an odd number of times
      obtain ⟨d, hd⟩ : ∃ d, 1 + a ^ m = 2 * d ∧ d % 2 = 1 := by
        obtain ⟨b, rfl⟩ : ∃ b, a = 4 * b + 1 := ⟨a / 4, by omega⟩
        refine ⟨2 * b * geom (4 * b + 1) m + 1, ?_, ?_⟩
        · rw [pow_eq]
          ring
        · rw [mul_assoc]
          omega
      have hcop : Nat.Coprime (2 ^ k) d := (Nat.coprime_two_left.mpr (Nat.odd_iff.mpr hd.2)).pow_left k
      have hgeom : geom a (2 * m) = 2 * (geom a m * d) := by
        rw [geom_double, hd.1]
        ring
      rw [hm, hgeom, pow_succ', Nat.mul_dvd_mul_iff_left (by omega), Nat.mul_dvd_mul_iff_left (by omega),
        hcop.dvd_mul_right]
      exact ih m
    · have hg := geom_mod_two ha n
      have htwo : 2 ∣ 2 ^ (k + 1) := Dvd.intro_left _ (pow_succ 2 k).symm
      constructor
      · intro hdvd
        have hh := htwo.trans hdvd
        omega
      · intro hdvd
        have hh := htwo.trans hdvd
        omega

end Geom

section Iterate

variable {a c x : Nat}

theorem iterate_step (a c x n : Nat) : (step a c)^[n] x = a ^ n * x + c * geom a n := by
  induction n with
  | zero => simp [geom]
  | succ n ih =>
    have hone : geom a 1 = 1 := by simp [geom]
    rw [Function.iterate_succ_apply', ih, step, Nat.add_comm n 1, geom_add, hone, pow_add]
    ring

theorem iterate_modEq_self (ha : a % 4 = 1) (hc : c % 2 = 1) (k n x : Nat) :
    (step a c)^[n] x ≡ x [MOD 2 ^ k] ↔ 2 ^ k ∣ n := by
  obtain ⟨b, rfl⟩ : ∃ b, a = 4 * b + 1 := ⟨a / 4, by omega⟩
  have hstep : (step (4 * b + 1) c)^[n] x = x + geom (4 * b + 1) n * (4 * b * x + c) := by
    rw [iterate_step, pow_eq]
    ring
  have hodd : (4 * b * x + c) % 2 = 1 := by
    rw [mul_assoc]
    omega
  have hcop : Nat.Coprime (2 ^ k) (4 * b * x + c) :=
    (Nat.coprime_two_left.mpr (Nat.odd_iff.mpr hodd)).pow_left k
  rw [hstep, Nat.ModEq.comm, Nat.modEq_iff_dvd' (Nat.le_add_right _ _), Nat.add_sub_cancel_left,
    hcop.dvd_mul_right, two_pow_dvd_geom ha]

/-- Modulo `2 ^ k` the states run through all residues before the first comes back. -/
theorem iterate_modEq_iff (ha : a % 4 = 1) (hc : c % 2 = 1) (k m n x : Nat) :
    (step a c)^[m] x ≡ (step a c)^[n] x [MOD 2 ^ k] ↔ m ≡ n [MOD 2 ^ k] := by
  have hle : ∀ m d, (step a c)^[m] x ≡ (step a c)^[m + d] x [MOD 2 ^ k] ↔ m ≡ m + d [MOD 2 ^ k] := by
    intro m d
    rw [Nat.ModEq.comm, Nat.add_comm m d, Function.iterate_add_apply, iterate_modEq_self ha hc,
      Nat.modEq_iff_dvd' (Nat.le_add_left _ _), Nat.add_sub_cancel]
  rcases Nat.le_total m n with h | h
  · obtain ⟨d, rfl⟩ := Nat.exists_eq_add_of_le h
    exact hle m d
  · obtain ⟨d, rfl⟩ := Nat.exists_eq_add_of_le h
    rw [Nat.ModEq.comm, hle n d, Nat.ModEq.comm]

end Iterate

section Words

variable {w : Nat}

/-- The generator on words, whose arithmetic wraps around. -/
def wordStep (a c x : BitVec w) : BitVec w := x * a + c

theorem toNat_iterate (a c x : BitVec w) (n : Nat) :
    ((wordStep a c)^[n] x).toNat ≡ (step a.toNat c.toNat)^[n] x.toNat [MOD 2 ^ w] := by
  induction n with
  | zero => rfl
  | succ n ih =>
    rw [Function.iterate_succ_apply', Function.iterate_succ_apply', wordStep, step, BitVec.toNat_add,
      BitVec.toNat_mul, Nat.mul_comm]
    refine (Nat.mod_modEq _ _).trans (Nat.ModEq.add_right _ ?_)
    exact (Nat.mod_modEq _ _).trans (Nat.ModEq.mul_left _ ih)

/-- The low `k` bits have the period `2 ^ k`. -/
theorem low_bits_iff {a c : BitVec w} (ha : a.toNat % 4 = 1) (hc : c.toNat % 2 = 1) {k : Nat} (hk : k ≤ w)
    (m n : Nat) (x : BitVec w) :
    ((wordStep a c)^[m] x).toNat % 2 ^ k = ((wordStep a c)^[n] x).toNat % 2 ^ k ↔ m % 2 ^ k = n % 2 ^ k := by
  have hlow := fun n => (toNat_iterate a c x n).of_dvd (pow_dvd_pow 2 hk)
  have hiff := iterate_modEq_iff ha hc k m n x.toNat
  constructor
  · intro h
    exact hiff.mp ((hlow m).symm.trans (Nat.ModEq.trans h (hlow n)))
  · intro h
    exact (hlow m).trans ((hiff.mpr h).trans (hlow n).symm)

/-- The bits from `j` up to `j + k` of the `n`th state. -/
def bits (a c x : BitVec w) (j k n : Nat) : Nat := ((wordStep a c)^[n] x).toNat / 2 ^ j % 2 ^ k

theorem bits_eq (a c x : BitVec w) (j k n : Nat) :
    bits a c x j k n = ((wordStep a c)^[n] x).toNat % 2 ^ (j + k) / 2 ^ j := by
  rw [bits, pow_add, Nat.mod_mul_right_div_self]

variable {a c : BitVec w} (ha : a.toNat % 4 = 1) (hc : c.toNat % 2 = 1) {j k : Nat} (hk : j + k ≤ w)

include ha hc hk

theorem bits_periodic_iff (hpos : 0 < k) (p : Nat) (x : BitVec w) :
    Function.Periodic (bits a c x j k) p ↔ 2 ^ (j + k) ∣ p := by
  constructor
  · intro hp
    by_contra hdvd
    have hzero : p ≠ 0 := by
      rintro rfl
      exact hdvd (dvd_zero _)
    obtain ⟨i, m, hodd, rfl⟩ := Nat.exists_eq_two_pow_mul_odd hzero
    have hi : i < j + k := by
      by_contra hge
      exact hdvd (Dvd.dvd.mul_right (pow_dvd_pow 2 (by omega)) m)
    -- a multiple of the period that moves the top bit only
    let q := 2 ^ (j + k - 1) * m
    have hq : bits a c x j k q = bits a c x j k 0 := by
      have hmul := hp.nat_mul (2 ^ (j + k - 1 - i)) 0
      have hpow : 2 ^ (j + k - 1 - i) * 2 ^ i = 2 ^ (j + k - 1) := by
        rw [← pow_add]
        congr 1
        omega
      rwa [Nat.zero_add, Nat.cast_id, ← Nat.mul_assoc, hpow] at hmul
    have hlow := (low_bits_iff ha hc (by omega : j + k - 1 ≤ w) q 0 x).mpr (by simp [q])
    have hlow' : ((wordStep a c)^[q] x).toNat % 2 ^ j = ((wordStep a c)^[0] x).toNat % 2 ^ j :=
      Nat.ModEq.of_dvd (pow_dvd_pow 2 (by omega)) hlow
    have htop : ((wordStep a c)^[q] x).toNat % 2 ^ (j + k) = ((wordStep a c)^[0] x).toNat % 2 ^ (j + k) := by
      rw [pow_add, Nat.mod_mul, Nat.mod_mul, hlow']
      exact congrArg (fun y => _ + 2 ^ j * y) hq
    have hh := (low_bits_iff ha hc hk q 0 x).mp htop
    have hdvd' : 2 ^ (j + k - 1) * 2 ∣ 2 ^ (j + k - 1) * m := by
      have hsucc : 2 ^ (j + k) = 2 ^ (j + k - 1) * 2 := by
        rw [← pow_succ]
        congr 1
        omega
      rw [← hsucc]
      exact Nat.dvd_of_mod_eq_zero (by simpa using hh)
    have htwo := Nat.dvd_of_mul_dvd_mul_left (by positivity) hdvd'
    have hodd' := Nat.odd_iff.mp hodd
    omega
  · rintro ⟨d, rfl⟩ n
    have hmod : (n + 2 ^ (j + k) * d) % 2 ^ (j + k) = n % 2 ^ (j + k) := Nat.add_mul_mod_self_left _ _ _
    rw [bits_eq, bits_eq, (low_bits_iff ha hc hk _ n x).mpr hmod]

/-- Each value of these bits comes up equally often in a period, wherever that starts. -/
theorem card_bits {v : Nat} (hv : v < 2 ^ k) (n : Nat) (x : BitVec w) :
    #{i ∈ range (2 ^ (j + k)) | bits a c x j k (n + i) = v} = 2 ^ j := by
  let f := fun i => ((wordStep a c)^[n + i] x).toNat % 2 ^ (j + k)
  have hpos : 0 < 2 ^ j := by positivity
  have hinj : Set.InjOn f (range (2 ^ (j + k))) := by
    intro i hi i' hi' he
    rw [coe_range, Set.mem_Iio] at hi hi'
    have hh := Nat.ModEq.add_left_cancel' n ((low_bits_iff ha hc hk (n + i) (n + i') x).mp he)
    rwa [Nat.ModEq, Nat.mod_eq_of_lt hi, Nat.mod_eq_of_lt hi'] at hh
  have himage : image f (range (2 ^ (j + k))) = range (2 ^ (j + k)) := by
    refine eq_of_subset_of_card_le ?_ (card_image_of_injOn hinj).ge
    intro y hy
    obtain ⟨i, -, rfl⟩ := mem_image.mp hy
    exact mem_range.mpr (Nat.mod_lt _ (by positivity))
  have hfilter : #{i ∈ range (2 ^ (j + k)) | bits a c x j k (n + i) = v} =
      #{r ∈ range (2 ^ (j + k)) | r / 2 ^ j = v} := by
    nth_rewrite 2 [← himage]
    rw [filter_image, card_image_of_injOn (hinj.mono (coe_subset.mpr (filter_subset _ _)))]
    simp only [bits_eq, f]
  have hwindow : ({r ∈ range (2 ^ (j + k)) | r / 2 ^ j = v} : Finset Nat) =
      Ico (v * 2 ^ j) ((v + 1) * 2 ^ j) := by
    ext r
    have hfits : r / 2 ^ j < 2 ^ k ↔ r < 2 ^ (j + k) := by
      rw [Nat.div_lt_iff_lt_mul hpos, pow_add, Nat.mul_comm]
    rw [mem_filter, mem_range, mem_Ico, ← hfits, ← Nat.le_div_iff_mul_le hpos, ← Nat.div_lt_iff_lt_mul hpos]
    omega
  rw [hfilter, hwindow, Nat.card_Ico, Nat.add_mul, Nat.one_mul, Nat.add_sub_cancel_left]

end Words

end LinearCongruential
