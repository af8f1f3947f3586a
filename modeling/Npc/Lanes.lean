import Npc.ByteMemory
import Npc.LsuRequest

/-! The lanes of LSU, L1_cache and `memory.cpp` put together: for an aligned address the
masks and shifts of the three modules name exactly the bytes of the access. -/

namespace Npc

open ByteMemory

def sizeBytes (size : BitVec 2) : Nat := 2 ^ size.toNat

def ExLsu.Aligned (x : ExLsu) : Prop := sizeBytes x.size ∣ x.addr.toNat

theorem sizeBytes_cases {size : BitVec 2} (h : size ≠ 3#2) :
    size = 0#2 ∧ sizeBytes size = 1 ∨ size = 1#2 ∧ sizeBytes size = 2 ∨
      size = 2#2 ∧ sizeBytes size = 4 := by
  revert size
  decide

/-- Sign extension as the source writes it, the sign bit repeated before the field. -/
theorem rep_append {n w : Nat} (x : BitVec w) : rep n x.msb ++ x = x.signExtend (n + w) := by
  apply BitVec.eq_of_getLsbD_eq
  intro i hi
  simp only [rep, BitVec.getLsbD_append, BitVec.getLsbD_signExtend, BitVec.getLsbD_fill, hi,
    decide_true, Bool.true_and]
  by_cases h : i < w
  · simp [h]
  · simp [h, show i - w < n by omega]

theorem zero_append {n w : Nat} (x : BitVec w) : 0#n ++ x = x.setWidth (n + w) := by
  apply BitVec.eq_of_getLsbD_eq
  intro i hi
  simp only [BitVec.getLsbD_append, BitVec.getLsbD_setWidth, hi, decide_true, Bool.true_and]
  by_cases h : i < w
  · simp [h]
  · simp [h, BitVec.getLsbD_of_ge x i (by omega)]

theorem paddrRead_eq_load (m : Pmem) (a : Word) : paddrRead m a = load m (paddr a) 4 := by
  apply BitVec.eq_of_getLsbD_eq
  intro i hi
  simp only [getLsbD_load, paddrRead, BitVec.getLsbD_append]
  rcases (by omega : i < 8 ∨ (8 ≤ i ∧ i < 16) ∨ (16 ≤ i ∧ i < 24) ∨ (24 ≤ i ∧ i < 32)) with
    h | ⟨h, h'⟩ | ⟨h, h'⟩ | ⟨h, h'⟩
  · simp [h, hi, show i / 8 = 0 by omega, show i % 8 = i by omega]
  · simp [hi, show ¬ i < 8 by omega, show i - 8 < 8 by omega, show i / 8 = 1 by omega,
      show i % 8 = i - 8 by omega]
  · simp [hi, show ¬ i < 8 by omega, show ¬ i - 8 < 8 by omega, show i - 8 - 8 < 8 by omega,
      show i / 8 = 2 by omega, show i % 8 = i - 8 - 8 by omega]
  · simp [hi, show ¬ i < 8 by omega, show ¬ i - 8 < 8 by omega, show ¬ i - 8 - 8 < 8 by omega,
      show i / 8 = 3 by omega, show i % 8 = i - 8 - 8 - 8 by omega]

def byteOffset (a : Word) : Nat := (a.extractLsb' 0 2).toNat

theorem byteOffset_eq (a : Word) : byteOffset a = a.toNat % 4 := by
  simp [byteOffset]

theorem byteOffset_lt (a : Word) : byteOffset a < 4 := by
  rw [byteOffset_eq]
  omega

theorem paddr_toNat (a : Word) : (paddr a).toNat = a.toNat / 4 * 4 := toNat_and_not_mask a 2

theorem paddrRead_image (ws : List Word) {k : Nat} (hk : k < 2 ^ 30) :
    paddrRead (image ws) (0x80000000#32 + BitVec.ofNat 32 (4 * k)) = ws.getD k 0#32 := by
  have hp : paddr (0x80000000#32 + BitVec.ofNat 32 (4 * k)) = 0x80000000#32 + BitVec.ofNat 32 (4 * k) := by
    apply BitVec.eq_of_toNat_eq
    rw [paddr_toNat]
    simp only [BitVec.toNat_add, BitVec.toNat_ofNat]
    omega
  have hlane : ∀ j < 4, image ws (0x80000000#32 + BitVec.ofNat 32 (4 * k) + BitVec.ofNat 32 j) =
      (ws.getD k 0#32).extractLsb' (8 * j) 8 := by
    intro j hj
    have hoff : (0x80000000#32 + BitVec.ofNat 32 (4 * k) + BitVec.ofNat 32 j - 0x80000000#32).toNat =
        4 * k + j := by
      simp only [BitVec.toNat_sub, BitVec.toNat_add, BitVec.toNat_ofNat]
      omega
    rw [image, hoff, show (4 * k + j) / 4 = k by omega, show (4 * k + j) % 4 = j by omega]
  have h0 := hlane 0 (by omega)
  rw [BitVec.add_zero] at h0
  rw [paddrRead, hp, h0, hlane 1 (by omega), hlane 2 (by omega), hlane 3 (by omega)]
  rw [BitVec.extractLsb'_append_extractLsb'_eq_extractLsb' (show 8 * 3 = 8 * 2 + 8 from rfl),
    BitVec.extractLsb'_append_extractLsb'_eq_extractLsb' (show 8 * 2 = 8 * 1 + 8 from rfl),
    BitVec.extractLsb'_append_extractLsb'_eq_extractLsb' (show 8 * 1 = 8 * 0 + 8 from rfl)]
  exact BitVec.extractLsb'_eq_self

theorem paddrRead_image_mem (ws : List Word) (a : Word) : paddrRead (image ws) a ∈ 0#32 :: ws := by
  have ha := paddr_toNat a
  have hk : (paddr a - 0x80000000#32).toNat / 4 < 2 ^ 30 := by omega
  have hp : paddr a = 0x80000000#32 + BitVec.ofNat 32 (4 * ((paddr a - 0x80000000#32).toNat / 4)) := by
    apply BitVec.eq_of_toNat_eq
    simp only [BitVec.toNat_sub, BitVec.toNat_add, BitVec.toNat_ofNat]
    omega
  have hpp : paddr (paddr a) = paddr a := by
    apply BitVec.eq_of_toNat_eq
    rw [paddr_toNat, paddr_toNat]
    omega
  have hh := paddrRead_image ws hk
  rw [← hp, paddrRead, hpp, ← paddrRead] at hh
  rw [hh, List.getD_eq_getElem?_getD]
  cases hg : ws[(paddr a - 0x80000000#32).toNat / 4]? with
  | none => simp
  | some w => exact List.mem_cons_of_mem _ (List.mem_of_getElem? hg)

theorem paddr_add_byteOffset (a : Word) : paddr a + BitVec.ofNat 32 (byteOffset a) = a := by
  apply BitVec.eq_of_toNat_eq
  have ha := a.isLt
  have hp := paddr_toNat a
  have ho := byteOffset_eq a
  simp only [BitVec.toNat_add, BitVec.toNat_ofNat, hp, ho]
  omega

theorem readLane_setWidth {x : ExLsu} (hs : x.size ≠ 3#2) (ha : x.Aligned) (m : Pmem) :
    (readLane x.size x.addr (paddrRead m x.addr)).setWidth (8 * sizeBytes x.size) =
      load m x.addr (sizeBytes x.size) := by
  have hlane : ∀ n, byteOffset x.addr + n ≤ 4 →
      (paddrRead m x.addr >>> (8 * byteOffset x.addr)).setWidth (8 * n) = load m x.addr n := by
    intro n hn
    rw [paddrRead_eq_load, ← load_add m (paddr x.addr) hn, paddr_add_byteOffset]
  have ho := byteOffset_eq x.addr
  have hlt := byteOffset_lt x.addr
  obtain ⟨k, hk⟩ := ha
  rcases sizeBytes_cases hs with ⟨hsz, hn⟩ | ⟨hsz, hn⟩ | ⟨hsz, hn⟩ <;> rw [hn] at hk ⊢
  · have hsh : byteShift x.addr = 8 * byteOffset x.addr := Nat.mul_comm _ _
    simpa only [readLane, hsz, if_true, hsh] using hlane 1 (by omega)
  · have hsh : (x.addr.extractLsb' 1 1).toNat * 16 = 8 * byteOffset x.addr := by
      simp only [BitVec.extractLsb'_toNat, Nat.shiftRight_eq_div_pow]
      omega
    have h10 : ¬ (1#2 = 0#2) := by decide
    simpa only [readLane, hsz, h10, if_true, if_false, hsh] using hlane 2 (by omega)
  · have h20 : ¬ (2#2 = 0#2) := by decide
    have h21 : ¬ (2#2 = 1#2) := by decide
    have hoff : byteOffset x.addr = 0 := by omega
    have hh := hlane 4 (by omega)
    simpa only [readLane, hsz, h20, h21, if_false, hoff, Nat.mul_zero, BitVec.ushiftRight_zero] using hh

theorem extendLane_eq {size : BitVec 2} (hs : size ≠ 3#2) (u : Bool) (rdata d : Word) :
    extendLane size u rdata d =
      if u then (rdata.setWidth (8 * sizeBytes size)).setWidth 32
      else (rdata.setWidth (8 * sizeBytes size)).signExtend 32 := by
  have h8 : rdata.getLsbD 7 = (rdata.extractLsb' 0 8).msb := by simp [BitVec.msb_eq_getLsbD_last]
  have h16 : rdata.getLsbD 15 = (rdata.extractLsb' 0 16).msb := by
    simp [BitVec.msb_eq_getLsbD_last]
  have e8 : rdata.setWidth (8 * 1) = rdata.extractLsb' 0 8 :=
    BitVec.setWidth_eq_extractLsb' (by omega)
  have e16 : rdata.setWidth (8 * 2) = rdata.extractLsb' 0 16 :=
    BitVec.setWidth_eq_extractLsb' (by omega)
  rcases sizeBytes_cases hs with ⟨rfl, hn⟩ | ⟨rfl, hn⟩ | ⟨rfl, hn⟩
  · rw [hn, e8]
    simp only [extendLane, h8, if_true]
    rw [rep_append, zero_append]
  · rw [hn, e16]
    simp only [extendLane, h16, if_true, show ¬ (1#2 = 0#2) by decide, if_false]
    rw [rep_append, zero_append]
  · rw [hn, extendLane]
    simp

theorem retireData_load {x : ExLsu} (hs : x.size ≠ 3#2) (ha : x.Aligned) (hc : x.ctrl = 1#2)
    (m : Pmem) :
    retireData x m =
      if x.isUload then (load m x.addr (sizeBytes x.size)).setWidth 32
      else (load m x.addr (sizeBytes x.size)).signExtend 32 := by
  rw [retireData, if_pos hc, extendLane_eq hs, readLane_setWidth hs ha]

theorem setByte_eq (m : Pmem) (b x : Word) (i : Nat) (hi : i < 4) (v : BitVec 8) :
    setByte m (b + BitVec.ofNat 32 i) v x = if (x - b).toNat = i then v else m x := by
  have h : x = b + BitVec.ofNat 32 i ↔ (x - b).toNat = i := by
    constructor
    · rintro rfl
      simp only [BitVec.add_comm b, BitVec.add_sub_cancel, BitVec.toNat_ofNat]
      omega
    · intro h
      rw [← h, BitVec.ofNat_toNat, BitVec.setWidth_eq, BitVec.add_comm, BitVec.sub_add_cancel]
  simp only [setByte, h]

theorem paddrWrite_apply (m : Pmem) (a wd : Word) (mask : BitVec 4) (x : Word) :
    paddrWrite m a wd mask x =
      if (x - paddr a).toNat < 4 ∧ mask.getLsbD (x - paddr a).toNat = true then
        wd.extractLsb' (8 * (x - paddr a).toNat) 8
      else m x := by
  have hlane : ∀ i < 4, ∀ m : Pmem, paddrWriteLane a wd mask i m x =
      if (x - paddr a).toNat = i ∧ mask.getLsbD i = true then wd.extractLsb' (8 * i) 8 else m x := by
    intro i hi m
    by_cases hm : mask.getLsbD i = true
    · simp [paddrWriteLane, hm, setByte_eq m (paddr a) x i hi]
    · simp [paddrWriteLane, hm]
  rw [paddrWrite, hlane 3 (by omega), hlane 2 (by omega), hlane 1 (by omega), hlane 0 (by omega)]
  generalize (x - paddr a).toNat = j
  by_cases h : j < 4
  · rcases (by omega : j = 0 ∨ j = 1 ∨ j = 2 ∨ j = 3) with rfl | rfl | rfl | rfl <;> simp
  · simp [h, show j ≠ 0 by omega, show j ≠ 1 by omega, show j ≠ 2 by omega, show j ≠ 3 by omega]

/-- A byte or half-word mask and its shifted data cover the bytes from the offset on. -/
theorem paddrWrite_shifted (m : Pmem) (a d : Word) {n : Nat} {mask : BitVec 4}
    (hn : byteOffset a + n ≤ 4)
    (hmask : ∀ j < 4, mask.getLsbD j = decide (byteOffset a ≤ j ∧ j < byteOffset a + n)) :
    paddrWrite m a (d <<< (8 * byteOffset a)) mask = store m a n d := by
  funext x
  have hsub : x - a = (x - paddr a) - BitVec.ofNat 32 (byteOffset a) := by
    conv_lhs => rw [← paddr_add_byteOffset a]
    rw [sub_add_eq_sub_sub]
  rw [paddrWrite_apply, store, hsub]
  generalize hv : x - paddr a = v
  have hlt := v.isLt
  have hval : (v - BitVec.ofNat 32 (byteOffset a)).toNat =
      (2 ^ 32 - byteOffset a + v.toNat) % 2 ^ 32 := by
    have := byteOffset_lt a
    rw [BitVec.toNat_sub, BitVec.toNat_ofNat, Nat.mod_eq_of_lt (by omega : byteOffset a < 2 ^ 32)]
  rw [hval]
  by_cases hin : byteOffset a ≤ v.toNat ∧ v.toNat < byteOffset a + n
  · have hj : (2 ^ 32 - byteOffset a + v.toNat) % 2 ^ 32 = v.toNat - byteOffset a := by omega
    have h4 : v.toNat < 4 := by omega
    rw [if_pos ⟨h4, by simp [hmask _ h4, hin]⟩, hj, if_pos (by omega)]
    apply BitVec.eq_of_getLsbD_eq
    intro i hi
    simp only [BitVec.getLsbD_extractLsb', hi, decide_true, Bool.true_and, BitVec.getLsbD_shiftLeft]
    rw [show 8 * v.toNat + i - 8 * byteOffset a = 8 * (v.toNat - byteOffset a) + i by omega]
    simp [show 8 * v.toNat + i < 32 by omega, show ¬ 8 * v.toNat + i < 8 * byteOffset a by omega]
  · rw [if_neg, if_neg (by omega)]
    rintro ⟨h4, hm⟩
    rw [hmask _ h4] at hm
    exact hin (by simpa using hm)

theorem byteMask (o : BitVec 2) : ∀ j < 4,
    (1#4 <<< o).getLsbD j = decide (o.toNat ≤ j ∧ j < o.toNat + 1) := by
  revert o
  decide

/-- A half-word mask loses its upper bit only at offset 3. -/
theorem halfMask {o : BitVec 2} (ho : o.toNat ≤ 2) : ∀ j < 4,
    (3#4 <<< o).getLsbD j = decide (o.toNat ≤ j ∧ j < o.toNat + 2) := by
  revert o
  decide

theorem retireMem_store {x : ExLsu} (hx : x.IsRequest) (ha : x.Aligned) (hc : x.ctrl = 2#2)
    (m : Pmem) : retireMem x m = store m x.addr (sizeBytes x.size) x.data := by
  have hsh : byteShift x.addr = 8 * byteOffset x.addr := Nat.mul_comm _ _
  have ho := byteOffset_eq x.addr
  have hlt := byteOffset_lt x.addr
  obtain ⟨k, hk⟩ := ha
  have hwd : wdata x = x.data <<< (8 * byteOffset x.addr) := by
    rcases sizeBytes_cases hx.size with ⟨hsz, hn⟩ | ⟨hsz, hn⟩ | ⟨hsz, hn⟩
    · simp [wdata, hx.valid, hc, hsz, hsh]
    · simp [wdata, hx.valid, hc, hsz, hsh]
    · rw [hn] at hk
      simp [wdata, hx.valid, hc, hsz, show byteOffset x.addr = 0 by omega]
  rw [retireMem, if_pos hc, hwd]
  rcases sizeBytes_cases hx.size with ⟨hsz, hn⟩ | ⟨hsz, hn⟩ | ⟨hsz, hn⟩ <;> rw [hn] at hk ⊢
  · have hm : wmask x = 1#4 <<< x.addr.extractLsb' 0 2 := by simp [wmask, hx.valid, hc, hsz]
    rw [hm]
    exact paddrWrite_shifted m _ _ (by omega) (byteMask _)
  · have hm : wmask x = 3#4 <<< x.addr.extractLsb' 0 2 := by simp [wmask, hx.valid, hc, hsz]
    rw [hm]
    exact paddrWrite_shifted m _ _ (by omega) (halfMask (show byteOffset x.addr ≤ 2 by omega))
  · have hm : wmask x = 15#4 := by simp [wmask, hx.valid, hc, hsz]
    have hoff : byteOffset x.addr = 0 := by omega
    rw [hm]
    apply paddrWrite_shifted m _ _ (by omega)
    rw [hoff]
    decide

end Npc
