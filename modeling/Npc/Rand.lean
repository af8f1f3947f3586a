import Npc.LinearCongruential
import Npc.Memory

/-! `rand` and `srand` of `klib/src/stdlib.c`, with a `long` of 32 bits. -/

namespace Npc

namespace Klib

/-- The value of a call and `next` behind it. -/
def rand (next : Word) : Word × Word :=
  let next := next * 1103515245#32 + 12345#32
  ((next / 65536#32) % 32768#32, next)

/-- `next` behind `srand`. -/
def srand (seed : Word) : Word := seed

/-- The value of the `n`th call behind `srand(seed)`, from 0 on. -/
def rands (seed : Word) (n : Nat) : Nat := (rand ((fun next => (rand next).2)^[n] (srand seed))).1.toNat

theorem rand_next (s : Word) : (rand s).2 = LinearCongruential.wordStep 1103515245#32 12345#32 s := rfl

theorem rand_value (s : Word) : (rand s).1.toNat = (rand s).2.toNat / 2 ^ 16 % 2 ^ 15 := by
  rw [rand]
  dsimp only
  rw [BitVec.toNat_umod, BitVec.toNat_udiv]
  rfl

theorem rands_eq (seed : Word) (n : Nat) : rands seed n =
    LinearCongruential.bits 1103515245#32 12345#32 (rand seed).2 16 15 n := by
  have hstep : (fun next => (rand next).2) = LinearCongruential.wordStep 1103515245#32 12345#32 :=
    funext rand_next
  have hsucc := Function.iterate_succ_apply' (LinearCongruential.wordStep 1103515245#32 12345#32) n seed
  rw [rands, srand, rand_value, rand_next, hstep, ← hsucc, Function.iterate_succ_apply, rand_next,
    LinearCongruential.bits]

/-- From any seed, `rand() % 2 ^ k` has the period `2 ^ (16 + k)` and no shorter one, and in each stretch of
`2 ^ 31` calls every value from 0 to 32767 comes up `2 ^ 16` times. -/
theorem rand_cycle (seed : Word) :
    (∀ k p, 0 < k → k ≤ 15 →
      (Function.Periodic (fun n => rands seed n % 2 ^ k) p ↔ 2 ^ (16 + k) ∣ p)) ∧
    ∀ n v, v < 32768 → ((Finset.range (2 ^ 31)).filter fun i => rands seed (n + i) = v).card = 2 ^ 16 := by
  have ha : (1103515245#32).toNat % 4 = 1 := rfl
  have hc : (12345#32).toNat % 2 = 1 := rfl
  refine ⟨fun k p hpos hk => ?_, fun n v hv => ?_⟩
  · have hbits : (fun n => rands seed n % 2 ^ k) =
        LinearCongruential.bits 1103515245#32 12345#32 (rand seed).2 16 k := by
      funext n
      rw [rands_eq]
      exact Nat.mod_mod_of_dvd _ (pow_dvd_pow 2 hk)
    rw [hbits]
    exact LinearCongruential.bits_periodic_iff ha hc (by omega) hpos p _
  · simp only [rands_eq]
    exact LinearCongruential.card_bits ha hc (k := 15) (by omega) hv n _

end Klib

end Npc
