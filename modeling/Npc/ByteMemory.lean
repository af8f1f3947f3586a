import Mathlib.Data.BitVec
import Mathlib.Data.Nat.Bitwise

/-! Little-endian byte memories. A memory is a map from addresses of any width to bytes;
addresses wrap around. -/

namespace ByteMemory

variable {w : Nat}

abbrev Mem (w : Nat) := BitVec w → BitVec 8

/-- The `n` bytes from `a` on, the lowest address least significant. -/
def load (m : Mem w) (a : BitVec w) : (n : Nat) → BitVec (8 * n)
  | 0 => 0#0
  | n + 1 => (m (a + BitVec.ofNat w n) ++ load m a n).cast (by omega)

/-- The memory with the `n` bytes from `a` on set to the low bytes of `v`. -/
def store (m : Mem w) (a : BitVec w) (n : Nat) {k : Nat} (v : BitVec k) : Mem w :=
  fun x => if (x - a).toNat < n then v.extractLsb' (8 * (x - a).toNat) 8 else m x

theorem getLsbD_load (m : Mem w) (a : BitVec w) (n i : Nat) :
    (load m a n).getLsbD i =
      (decide (i < 8 * n) && (m (a + BitVec.ofNat w (i / 8))).getLsbD (i % 8)) := by
  induction n with
  | zero => simp [load]
  | succ n ih =>
    simp only [load, BitVec.getLsbD_cast, BitVec.getLsbD_append, ih]
    by_cases hi : i < 8 * n
    · simp [hi, show i < 8 * (n + 1) by omega]
    · simp only [hi, decide_false, Bool.false_and]
      by_cases hi' : i < 8 * (n + 1)
      · have hd : i / 8 = n := by omega
        have hm : i % 8 = i - 8 * n := by omega
        simp [hi', hd, hm]
      · rw [BitVec.getLsbD_of_ge _ _ (by omega)]
        simp [hi']

theorem load_add (m : Mem w) (a : BitVec w) {k n N : Nat} (h : k + n ≤ N) :
    load m (a + BitVec.ofNat w k) n = (load m a N >>> (8 * k)).setWidth (8 * n) := by
  apply BitVec.eq_of_getLsbD_eq
  intro i hi
  have hd : (8 * k + i) / 8 = k + i / 8 := by omega
  have hm : (8 * k + i) % 8 = i % 8 := by omega
  simp only [getLsbD_load, BitVec.getLsbD_setWidth, BitVec.getLsbD_ushiftRight, hd, hm, hi,
    BitVec.ofNat_add, BitVec.add_assoc, show 8 * k + i < 8 * N by omega, decide_true,
    Bool.true_and]

theorem store_apply_add (m : Mem w) (a : BitVec w) {n i k : Nat} (v : BitVec k) (hi : i < n) (hn : n ≤ 2 ^ w) :
    store m a n v (a + BitVec.ofNat w i) = v.extractLsb' (8 * i) 8 := by
  have h : (a + BitVec.ofNat w i - a).toNat = i := by
    rw [BitVec.add_comm, BitVec.add_sub_cancel, BitVec.toNat_ofNat, Nat.mod_eq_of_lt (by omega)]
  simp only [store, h, hi, if_true]

theorem load_store (m : Mem w) (a : BitVec w) {n k : Nat} (v : BitVec k) (hn : n ≤ 2 ^ w) :
    load (store m a n v) a n = v.setWidth (8 * n) := by
  apply BitVec.eq_of_getLsbD_eq
  intro i hi
  rw [getLsbD_load, store_apply_add m a v (by omega) hn, BitVec.getLsbD_extractLsb',
    BitVec.getLsbD_setWidth, Nat.div_add_mod]
  simp [hi, Nat.mod_lt i (by omega : 8 > 0)]

theorem load_congr {m m' : Mem w} {a : BitVec w} {n : Nat}
    (h : ∀ i < n, m (a + BitVec.ofNat w i) = m' (a + BitVec.ofNat w i)) :
    load m a n = load m' a n := by
  induction n with
  | zero => rfl
  | succ n ih => rw [load, load, h n (Nat.lt_succ_self n), ih fun i hi => h i (by omega)]

section Words

/-- The `i`th word of 32 bits from `a` on. -/
def word (m : Mem w) (a : BitVec w) (i : Nat) : BitVec 32 := load m (a + BitVec.ofNat w (4 * i)) 4

def storeWord (m : Mem w) (a : BitVec w) (i : Nat) (v : BitVec 32) : Mem w :=
  store m (a + BitVec.ofNat w (4 * i)) 4 v

variable {m m' : Mem w} {a x : BitVec w} {i j n : Nat} {v : BitVec 32}

theorem word_congr (h : ∀ k < 4 * n, m (a + BitVec.ofNat w k) = m' (a + BitVec.ofNat w k))
    (hi : i < n) : word m a i = word m' a i := by
  refine load_congr fun k hk => ?_
  rw [BitVec.add_assoc, ← BitVec.ofNat_add]
  exact h (4 * i + k) (by omega)

theorem word_storeWord_self (hi : 4 ≤ 2 ^ w) : word (storeWord m a i v) a i = v := by
  rw [word, storeWord, load_store m _ v hi]
  exact BitVec.setWidth_eq v

/-- A word stored in front of `n` words from `a` on leaves what lies behind them. -/
theorem storeWord_outside (hj : j < n) (hn : 4 * n ≤ 2 ^ w) (hx : 4 * n ≤ (x - a).toNat) :
    storeWord m a j v x = m x := by
  have hofs : (BitVec.ofNat w (4 * j)).toNat = 4 * j := by
    rw [BitVec.toNat_ofNat, Nat.mod_eq_of_lt (by omega)]
  have hle : (x - (a + BitVec.ofNat w (4 * j))).toNat = (x - a).toNat - 4 * j := by
    rw [← sub_sub, BitVec.toNat_sub_of_le (BitVec.le_def.mpr (by omega)), hofs]
  rw [storeWord, store, if_neg (by omega)]

theorem word_storeWord_of_ne (hi : i < n) (hj : j < n) (hn : 4 * n ≤ 2 ^ w) (hne : i ≠ j) :
    word (storeWord m a j v) a i = word m a i := by
  refine load_congr fun k hk => ?_
  have hofs : ∀ l < 2 ^ w, (BitVec.ofNat w l).toNat = l := fun l hl => by
    rw [BitVec.toNat_ofNat, Nat.mod_eq_of_lt hl]
  have haddr : a + BitVec.ofNat w (4 * i) + BitVec.ofNat w k - (a + BitVec.ofNat w (4 * j)) =
      BitVec.ofNat w (4 * i + k) - BitVec.ofNat w (4 * j) := by
    rw [add_assoc, add_sub_add_left_eq_sub, BitVec.ofNat_add]
  have hfar : 4 ≤ (BitVec.ofNat w (4 * i + k) - BitVec.ofNat w (4 * j)).toNat := by
    rw [BitVec.toNat_sub, hofs _ (by omega), hofs _ (by omega)]
    rcases Nat.lt_or_gt_of_ne hne with hlt | hlt
    · rw [Nat.mod_eq_of_lt (by omega)]
      omega
    · have hwrap : 2 ^ w - 4 * j + (4 * i + k) = 4 * i + k - 4 * j + 2 ^ w := by omega
      rw [hwrap, Nat.add_mod_right, Nat.mod_eq_of_lt (by omega)]
      omega
  rw [storeWord, store, haddr, if_neg (by omega)]

end Words

/-- Clearing the low bits rounds an address down. -/
theorem toNat_and_not_mask (a : BitVec w) (k : Nat) :
    (a &&& ~~~BitVec.ofNat w (2 ^ k - 1)).toNat = a.toNat / 2 ^ k * 2 ^ k := by
  have h : a &&& ~~~BitVec.ofNat w (2 ^ k - 1) = (a >>> k) <<< k := by
    apply BitVec.eq_of_getLsbD_eq
    intro i hi
    simp only [BitVec.getLsbD_and, BitVec.getLsbD_not, BitVec.getLsbD_ofNat,
      Nat.testBit_two_pow_sub_one, BitVec.getLsbD_shiftLeft, BitVec.getLsbD_ushiftRight, hi,
      decide_true, Bool.true_and]
    by_cases h2 : i < k
    · simp [h2]
    · simp [h2, show k + (i - k) = i by omega]
  have hle : a.toNat / 2 ^ k * 2 ^ k < 2 ^ w := (Nat.div_mul_le_self _ _).trans_lt a.isLt
  rw [h, BitVec.toNat_shiftLeft, BitVec.toNat_ushiftRight, Nat.shiftRight_eq_div_pow,
    Nat.shiftLeft_eq, Nat.mod_eq_of_lt hle]

end ByteMemory
