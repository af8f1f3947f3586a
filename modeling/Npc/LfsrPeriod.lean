import Npc.Lfsr
import Npc.XorRecurrence
import Mathlib.Tactic.NormNum.Prime

/-! The period of the shift register of `L1_cache.v`. Its polynomial is a product of factors of
degree 5, 10 and 17, so it runs through far fewer states than a register of 32 bits can. -/

namespace Npc

open XorRecurrence

/-- `(2 ^ 10 - 1) * (2 ^ 17 - 1)`. -/
def lfsrPeriod : Nat := 134085633

def lfsrTaps : BitVec 32 := 0b101011#32

theorem shifts_lfsrTaps (x : BitVec 32) : Shifts (ShiftRegister.bit lfsrOut x) lfsrTaps 32 := by
  intro n
  have hbit : ∀ i ≤ 31, ((ShiftRegister.step lfsrOut)^[n] x).getMsbD i = ShiftRegister.bit lfsrOut x (n + i) :=
    fun i hi => ShiftRegister.getMsbD_iterate lfsrOut x hi n
  have hh := ShiftRegister.bit_add lfsrOut x n
  rw [lfsrOut_eq, hbit 0 (by omega), hbit 1 (by omega), hbit 3 (by omega), hbit 5 (by omega)] at hh
  rw [Nat.add_comm n, hh]
  simp [comb, lfsrTaps, Nat.add_assoc]

theorem lfsr_shift (x : BitVec 32) {e : Nat} (he : e < 2 ^ 27) :
    Shifts (ShiftRegister.bit lfsrOut x) (powX lfsrTaps 27 e) e :=
  shifts_powX (shifts_lfsrTaps x) (by omega) he

theorem powX_lfsrPeriod : powX lfsrTaps 27 lfsrPeriod = 1#32 := by
  decide +kernel

theorem iterate_lfsrPeriod (x : BitVec 32) : (lfsrNext false)^[lfsrPeriod] x = x := by
  apply BitVec.eq_of_getMsbD_eq
  intro i hi
  have h1 := shifts_one (s := ShiftRegister.bit lfsrOut x) (w := 32) (by omega) i
  have hh := lfsr_shift x (e := lfsrPeriod) (by decide) i
  rw [powX_lfsrPeriod, ← h1, Nat.add_zero] at hh
  rw [lfsrNext_eq, ShiftRegister.getMsbD_iterate lfsrOut x (by omega), Nat.add_comm, hh,
    ShiftRegister.bit_of_le lfsrOut x (by omega)]

/-- The bit `n` of the stream shows that the register is not back after `e` steps. -/
theorem iterate_lfsrReset_ne {e n : Nat} (he : e < 2 ^ 27) (hn : n ≤ 27)
    (hne : comb (powX lfsrTaps 27 e) (fun i => (lfsrWindow lfsrReset).getMsbD i) n 0 32 ≠
      (lfsrWindow lfsrReset).getMsbD n) : (lfsrNext false)^[e] lfsrReset ≠ lfsrReset := by
  intro h
  have hwindow : ∀ i < 59, ShiftRegister.bit lfsrOut lfsrReset i = (lfsrWindow lfsrReset).getMsbD i :=
    fun i hi => (getMsbD_lfsrWindow lfsrReset hi).symm
  have hback : ShiftRegister.bit lfsrOut lfsrReset (n + e) = ShiftRegister.bit lfsrOut lfsrReset n := by
    rw [ShiftRegister.bit, Function.iterate_add_apply, ← lfsrNext_eq, h, lfsrNext_eq]
    rfl
  rw [lfsr_shift lfsrReset he n, comb_congr _ 0 fun j hj => hwindow (n + j) (by omega),
    hwindow n (by omega)] at hback
  exact hne hback

/-- The register is back after 134085633 steps, whatever its value, and not earlier after reset. So
of the 2^32 - 1 values the documentation names, the cache sees one in 32. -/
theorem lfsr_period :
    (∀ x, (lfsrNext false)^[lfsrPeriod] x = x) ∧
      Function.minimalPeriod (lfsrNext false) lfsrReset = lfsrPeriod := by
  refine ⟨iterate_lfsrPeriod, minimalPeriod_eq_of_div_prime (iterate_lfsrPeriod _) fun p hp hdvd => ?_⟩
  have hfactor : lfsrPeriod = 3 * 11 * 31 * 131071 := rfl
  have hcases : p = 3 ∨ p = 11 ∨ p = 31 ∨ p = 131071 := by
    rw [hfactor, hp.dvd_mul, hp.dvd_mul, hp.dvd_mul] at hdvd
    rcases hdvd with ((h | h) | h) | h
    · exact Or.inl ((Nat.prime_dvd_prime_iff_eq hp (by norm_num)).mp h)
    · exact Or.inr (Or.inl ((Nat.prime_dvd_prime_iff_eq hp (by norm_num)).mp h))
    · exact Or.inr (Or.inr (Or.inl ((Nat.prime_dvd_prime_iff_eq hp (by norm_num)).mp h)))
    · exact Or.inr (Or.inr (Or.inr ((Nat.prime_dvd_prime_iff_eq hp (by norm_num)).mp h)))
  rcases hcases with rfl | rfl | rfl | rfl
  · exact iterate_lfsrReset_ne (n := 4) (by decide) (by omega) (by decide +kernel)
  · exact iterate_lfsrReset_ne (n := 0) (by decide) (by omega) (by decide +kernel)
  · exact iterate_lfsrReset_ne (n := 0) (by decide) (by omega) (by decide +kernel)
  · exact iterate_lfsrReset_ne (n := 0) (by decide) (by omega) (by decide +kernel)

end Npc
