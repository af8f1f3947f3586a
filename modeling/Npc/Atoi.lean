import Npc.FormatInt

/-! `atoi` of `klib/src/stdlib.c`, on what `sprintf` writes. -/

namespace Npc

namespace Klib

/-- `while (*nptr >= '0' && *nptr <= '9')` -/
def atoiDigits : List Char → BitVec 32 → BitVec 32
  | [], x => x
  | c :: nptr, x =>
    if c.isDigit then atoiDigits nptr (x * 10#32 + BitVec.ofNat 32 c.toNat - 48#32) else x

def atoi (nptr : List Char) : BitVec 32 := atoiDigits (nptr.dropWhile (· = ' ')) 0#32

/-- `atoi` gives back what `sprintf(out, "%d", n)` was given. -/
def RoundTrip (n : BitVec 32) : Prop :=
  (sprintf ['%', 'd'] [.word n]).map (fun r => atoi r.1) = some n

instance (n : BitVec 32) : Decidable (RoundTrip n) := by
  unfold RoundTrip
  infer_instance

section Atoi

variable {n : BitVec 32} {s : List Char}

theorem atoiDigits_eq (nptr : List Char) (x : BitVec 32) :
    atoiDigits nptr x = (parseWidth nptr x).1 := by
  induction nptr generalizing x with
  | nil => rfl
  | cons c nptr ih =>
    rw [atoiDigits, parseWidth]
    split_ifs with hc
    · have hle : 48 ≤ c.toNat := by
        simp only [Char.isDigit, Bool.and_eq_true, decide_eq_true_eq] at hc
        exact hc.1
      have hsub : BitVec.ofNat 32 c.toNat - 48#32 = BitVec.ofNat 32 (c.toNat - 48) :=
        BitVec.ofNat_sub_ofNat_of_le _ _ (by decide) hle
      rw [ih, BitVec.sub_eq_add_neg, BitVec.add_assoc, ← BitVec.sub_eq_add_neg, hsub]
    · rfl

theorem atoi_toDigits (v : Nat) :
    atoi (Nat.toDigits 10 v ++ [Char.ofNat 0]) = BitVec.ofNat 32 v := by
  have hdigit : ∀ c ∈ Nat.toDigits 10 v, c.isDigit = true := fun c hc =>
    Nat.isDigit_of_mem_toDigits (by decide) (by decide) hc
  have hblank : (Nat.toDigits 10 v ++ [Char.ofNat 0]).dropWhile (· = ' ') =
      Nat.toDigits 10 v ++ [Char.ofNat 0] := by
    cases hd : Nat.toDigits 10 v with
    | nil => exact absurd hd Nat.toDigits_ne_nil
    | cons c s =>
      have hc := hdigit c (hd ▸ List.mem_cons_self)
      have hne : c ≠ ' ' := by
        rintro rfl
        exact absurd hc (by decide)
      simp [hne]
  rw [atoi, hblank, atoiDigits_eq, parseWidth_digits [] hdigit rfl 0, Nat.ofDigitChars_ten_toDigits]

theorem atoi_minus (s : List Char) : atoi ('-' :: s) = 0#32 := rfl

theorem sprintf_int (n : BitVec 32) : ∃ ret, sprintf ['%', 'd'] [.word n] =
    some (convD (IntDirective.mk false 0 false).spec n ++ [Char.ofNat 0], ret) :=
  ⟨_, vsprintf_int ⟨false, 0, false⟩ n⟩

/-- Exactly the values that are not negative come back. -/
theorem roundTrip_iff (n : BitVec 32) : RoundTrip n ↔ 0 ≤ n.toInt := by
  obtain ⟨ret, hs⟩ := sprintf_int n
  rw [RoundTrip, hs, Option.map_some, Option.some_inj]
  by_cases hneg : n.toInt < 0
  · have hne : n ≠ 0#32 := by
      rintro rfl
      exact absurd hneg (by decide)
    rw [convD, if_pos hneg, List.cons_append, atoi_minus]
    exact iff_of_false hne.symm (not_le.mpr hneg)
  · have h0 := not_lt.mp hneg
    have hnat : BitVec.ofNat 32 n.toInt.natAbs = n := by
      have hint := congrArg (BitVec.ofInt 32) (Int.natAbs_of_nonneg h0)
      rwa [BitVec.ofInt_natCast, BitVec.ofInt_toInt] at hint
    have htext : convD (IntDirective.mk false 0 false).spec n = Nat.toDigits 10 n.toInt.natAbs := by
      rw [(convD_nonneg h0).mpr (by decide), IntDirective.output, if_neg hneg]
      simp [field]
    rw [htext, atoi_toDigits, hnat]
    exact iff_of_true rfl h0

/-- `-5` is read back as 0. -/
theorem roundTrip_not : ¬ RoundTrip (-5#32) := by decide +kernel

end Atoi

end Klib

end Npc
