import Mathlib.Data.BitVec
import Mathlib.Logic.Function.Iterate

/-! Fibonacci shift registers of any width and feedback. A register moves a window over
one stream of bits: its top bit now, the bits below it next, and then what the feedback
appends. -/

namespace ShiftRegister

variable {w : Nat} (f : BitVec (w + 1) → Bool) (x : BitVec (w + 1))

def step : BitVec (w + 1) := x.extractLsb' 0 w ++ BitVec.ofBool (f x)

/-- The bits that reach the top of the register. -/
def bit (n : Nat) : Bool := ((step f)^[n] x).getMsbD 0

theorem getMsbD_step_of_lt {i : Nat} (hi : i < w) : (step f x).getMsbD i = x.getMsbD (i + 1) := by
  simp only [step, BitVec.getMsbD_append, show ¬ w ≤ i by omega, if_false, BitVec.getMsbD_extractLsb', hi,
    decide_true, Bool.true_and, show 0 + w - i ≤ w + 1 by omega, show w + 1 - (0 + w - i) = i + 1 by omega]

theorem getMsbD_step_last : (step f x).getMsbD w = f x := by
  simp [step, BitVec.getMsbD_append]

/-- The register is the window of the stream at its time. -/
theorem getMsbD_iterate {i : Nat} (hi : i ≤ w) (n : Nat) :
    ((step f)^[n] x).getMsbD i = bit f x (n + i) := by
  induction i generalizing n with
  | zero => rfl
  | succ i ih =>
    rw [← getMsbD_step_of_lt f _ (by omega), ← Function.iterate_succ_apply' (step f), ih (by omega)]
    congr 1
    omega

theorem bit_of_le {i : Nat} (hi : i ≤ w) : bit f x i = x.getMsbD i := by
  have hh := getMsbD_iterate f x hi 0
  rw [Nat.zero_add] at hh
  exact hh.symm

theorem bit_add (n : Nat) : bit f x (w + 1 + n) = f ((step f)^[n] x) := by
  have hh := getMsbD_iterate f x (le_refl w) (n + 1)
  rw [Function.iterate_succ_apply', getMsbD_step_last] at hh
  rw [hh]
  congr 1
  omega

end ShiftRegister
