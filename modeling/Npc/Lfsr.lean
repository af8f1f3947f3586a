import Npc.ShiftRegister

/-! The shift register of `L1_cache.v`. The cache hits or misses by the top bits of the
register; how long it misses is a matter of the pattern of zeros in the register and the bits
that follow it. -/

namespace Npc

def lfsrReset : BitVec 32 := 0xACE1#32

def lfsrOut (lfsr : BitVec 32) : Bool :=
  lfsr.getLsbD 31 ^^ lfsr.getLsbD 30 ^^ lfsr.getLsbD 28 ^^ lfsr.getLsbD 26

def lfsrNext (rst : Bool) (lfsr : BitVec 32) : BitVec 32 :=
  if rst then lfsrReset else lfsr.extractLsb' 0 31 ++ BitVec.ofBool (lfsrOut lfsr)

/-- `cache_hit`, with `LFSR_HIT_THRESHOLD` 20. -/
def lfsrHit (lfsr : BitVec 32) : Bool := (lfsr.extractLsb' 26 6).ult 20#6

/-- The register and the bits it takes in next, the top bit first. -/
def lfsrWindow (lfsr : BitVec 32) : BitVec 64 :=
  lfsr ++ (lfsr ^^^ lfsr <<< 1 ^^^ lfsr <<< 3 ^^^ lfsr <<< 5)

/-- Two zeros in a row start among the first `n` bits of the window, or 0100 starts at the last
two of them. -/
def ZeroPattern (n : Nat) (lfsr : BitVec 32) : Prop :=
  (∃ i < n, (lfsrWindow lfsr).getMsbD i = false ∧ (lfsrWindow lfsr).getMsbD (i + 1) = false) ∨
    ∃ i < n, n ≤ i + 2 ∧ (lfsrWindow lfsr).getMsbD i = false ∧ (lfsrWindow lfsr).getMsbD (i + 1) = true ∧
      (lfsrWindow lfsr).getMsbD (i + 2) = false ∧ (lfsrWindow lfsr).getMsbD (i + 3) = false

instance (n : Nat) (lfsr : BitVec 32) : Decidable (ZeroPattern n lfsr) :=
  inferInstanceAs (Decidable (_ ∨ _))

theorem lfsrNext_eq : lfsrNext false = ShiftRegister.step lfsrOut := rfl

theorem lfsrOut_eq (x : BitVec 32) :
    lfsrOut x = (x.getMsbD 0 ^^ x.getMsbD 1 ^^ x.getMsbD 3 ^^ x.getMsbD 5) := by
  simp [lfsrOut, BitVec.getMsbD]

theorem getMsbD_lfsrWindow (x : BitVec 32) {i : Nat} (hi : i < 59) :
    (lfsrWindow x).getMsbD i = ShiftRegister.bit lfsrOut x i := by
  by_cases h : i < 32
  · rw [ShiftRegister.bit_of_le lfsrOut x (by omega), lfsrWindow, BitVec.getMsbD_append, if_neg (by omega)]
  · obtain ⟨j, rfl⟩ := Nat.exists_eq_add_of_le (by omega : 32 ≤ i)
    have hbit : ∀ k, j + k < 32 → ((ShiftRegister.step lfsrOut)^[j] x).getMsbD k = x.getMsbD (j + k) := by
      intro k hk
      rw [ShiftRegister.getMsbD_iterate lfsrOut x (by omega), ShiftRegister.bit_of_le lfsrOut x (by omega)]
    rw [ShiftRegister.bit_add lfsrOut x j, lfsrOut_eq, hbit 0 (by omega), hbit 1 (by omega), hbit 3 (by omega),
      hbit 5 (by omega), lfsrWindow, BitVec.getMsbD_append, if_pos (by omega)]
    simp [BitVec.getMsbD_xor, BitVec.getMsbD_shiftLeft]

theorem ult_twenty (y : BitVec 6) :
    y.ult 20#6 = (!y.getMsbD 0 && (!y.getMsbD 1 || (!y.getMsbD 2 && !y.getMsbD 3))) := by
  revert y
  decide

theorem lfsrHit_eq (x : BitVec 32) :
    lfsrHit x = (!x.getMsbD 0 && (!x.getMsbD 1 || (!x.getMsbD 2 && !x.getMsbD 3))) := by
  rw [lfsrHit, ult_twenty]
  simp [BitVec.getMsbD_extractLsb']

theorem lfsrHit_iterate (x : BitVec 32) {i : Nat} (hi : i < 55) :
    lfsrHit ((lfsrNext false)^[i] x) =
      (!(lfsrWindow x).getMsbD i && (!(lfsrWindow x).getMsbD (i + 1) ||
        (!(lfsrWindow x).getMsbD (i + 2) && !(lfsrWindow x).getMsbD (i + 3)))) := by
  have hbit : ∀ k ≤ 3, ((lfsrNext false)^[i] x).getMsbD k = (lfsrWindow x).getMsbD (i + k) := by
    intro k hk
    rw [lfsrNext_eq, ShiftRegister.getMsbD_iterate lfsrOut x (by omega), getMsbD_lfsrWindow x (by omega)]
  rw [lfsrHit_eq, hbit 0 (by omega), hbit 1 (by omega), hbit 2 (by omega), hbit 3 (by omega), Nat.add_zero]

theorem exists_lfsrHit_iff {n : Nat} (hn : n ≤ 55) (x : BitVec 32) :
    (∃ i < n, lfsrHit ((lfsrNext false)^[i] x) = true) ↔ ZeroPattern n x := by
  constructor
  · rintro ⟨i, hi, hh⟩
    rw [lfsrHit_iterate x (by omega)] at hh
    simp only [Bool.and_eq_true, Bool.or_eq_true, Bool.not_eq_true'] at hh
    obtain ⟨h0, h1 | ⟨h2, h3⟩⟩ := hh
    · exact Or.inl ⟨i, hi, h0, h1⟩
    · by_cases h1 : (lfsrWindow x).getMsbD (i + 1) = false
      · exact Or.inl ⟨i, hi, h0, h1⟩
      · by_cases hend : i + 2 < n
        · exact Or.inl ⟨i + 2, hend, h2, h3⟩
        · exact Or.inr ⟨i, hi, by omega, h0, by simpa using h1, h2, h3⟩
  · rintro (⟨i, hi, h0, h1⟩ | ⟨i, hi, -, h0, -, h2, h3⟩)
    · exact ⟨i, hi, by rw [lfsrHit_iterate x (by omega)]; simp [h0, h1]⟩
    · exact ⟨i, hi, by rw [lfsrHit_iterate x (by omega)]; simp [h0, h2, h3]⟩

/-- Up to 27 steps of the register at once. -/
def lfsrJump (n : Nat) (lfsr : BitVec 32) : BitVec 32 := (lfsrWindow lfsr).extractLsb' (32 - n) 32

theorem iterate_lfsrNext {n : Nat} (hn : n ≤ 27) : (lfsrNext false)^[n] = lfsrJump n := by
  funext x
  apply BitVec.eq_of_getMsbD_eq
  intro i hi
  rw [lfsrNext_eq, ShiftRegister.getMsbD_iterate lfsrOut x (by omega), ← getMsbD_lfsrWindow x (by omega),
    lfsrJump, BitVec.getMsbD_extractLsb']
  simp [hi, show 32 - n + 32 - i ≤ 64 by omega, show 64 - (32 - n + 32 - i) = n + i by omega]

def lfsrMissing : BitVec 32 := 0x5abad755#32

theorem iterate_lfsrReset : (lfsrNext false)^[52038] lfsrReset = lfsrMissing := by
  have hsplit : 52038 = 9 + 27 * 1927 := rfl
  rw [hsplit, Function.iterate_add_apply, Function.iterate_mul, iterate_lfsrNext (by omega),
    iterate_lfsrNext (by omega)]
  decide +kernel

end Npc
