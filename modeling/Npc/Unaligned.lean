import Npc.LsuRefinement

/-! A store and a load of the same bytes, at any address. The LSU shifts stores by the byte
offset, L1_cache shifts half-word loads by bit 1 of the address only, and both work on one
aligned word, so the two meet only where the address is a multiple of the size. -/

namespace Npc

open ByteMemory

structure LsuMem where
  lsu : LsuReg
  dmem : Pmem

namespace LsuMem

/-- A cycle of LSU and L1_cache with `x` in EX/LSU. -/
def step (i : ExLsu × Bool) (s : LsuMem) : LsuMem where
  lsu := lsuNext false s.lsu i.1 (cacheLsuHit i.2 (cacheReq s.lsu i.1))
    (cacheLsuRdata s.dmem (cacheReq s.lsu i.1))
  dmem := cacheNext false s.dmem (cacheReq s.lsu i.1) (cacheLsuHit i.2 (cacheReq s.lsu i.1))

/-- An access that misses `misses` times and then hits; `live` is what EX/LSU holds meanwhile. -/
def access (live : Nat → ExLsu) (misses : Nat) (s : LsuMem) : LsuMem :=
  Clocked.run step s (fun t => (live t, decide (t = misses))) (misses + 1)

end LsuMem

/-- EX/LSU holds the request, until it is replaced by an empty slot. -/
structure Presents (live : Nat → ExLsu) (x : ExLsu) : Prop where
  first : live 0 = x
  later : ∀ t, live t = x ∨ (live t).IsEmpty

theorem LsuMem.run_misses {live : Nat → ExLsu} {x : ExLsu} (hl : Presents live x) (hx : x.IsRequest)
    (hc : x.ctrl ≠ 0#2) {s : LsuMem} (hw : s.lsu.waiting = false) {misses t : Nat} (ht : t ≤ misses) :
    Outstanding (Clocked.run step s (fun t => (live t, decide (t = misses))) t).lsu (live t) (some x) ∧
      (Clocked.run step s (fun t => (live t, decide (t = misses))) t).dmem = s.dmem := by
  induction t with
  | zero => exact ⟨⟨hx, Or.inl ⟨hw, hl.first⟩⟩, rfl⟩
  | succ t ih =>
    obtain ⟨ho, hd⟩ := ih (by omega)
    have hs : served (decide (t = misses)) (some x) = false := by
      simp [served, hc, show t ≠ misses by omega]
    obtain ⟨q, hq, hmiss⟩ := ho.miss hs (Clocked.run step s (fun t => (live t, decide (t = misses))) t).dmem
    obtain rfl : x = q := Option.some.inj hq
    exact ⟨hmiss.outstanding hx (hl.later (t + 1)), hmiss.mem.trans hd⟩

/-- However often it misses, the access has the effect of an atomic one. -/
theorem LsuMem.access_served {live : Nat → ExLsu} {x : ExLsu} (hl : Presents live x) (hx : x.IsRequest)
    (hc : x.ctrl ≠ 0#2) {s : LsuMem} (hw : s.lsu.waiting = false) (misses : Nat) :
    (s.access live misses).lsu.waiting = false ∧
      (s.access live misses).dmem = retireMem x s.dmem ∧
      (x.ctrl = 1#2 → (s.access live misses).lsu.wbuData = retireData x s.dmem) := by
  obtain ⟨ho, hd⟩ := LsuMem.run_misses hl hx hc hw (le_refl misses)
  have hh := ho.serve (show served (decide (misses = misses)) (some x) = true by simp [served])
    (Clocked.run step s (fun t => (live t, decide (t = misses))) misses).dmem
  refine ⟨hh.idle, ?_, fun h1 => ?_⟩
  · rw [← hd]
    exact hh.mem
  · rw [← hd]
    exact hh.data x rfl (by simp [h1])

structure IsAccess (ctrl size : BitVec 2) (addr : Word) (x : ExLsu) : Prop where
  request : x.IsRequest
  ctrl : x.ctrl = ctrl
  size : x.size = size
  addr : x.addr = addr

/-- The accesses of this size at this address address the bytes they name: any store, with any
misses and from any idle LSU and memory, changes exactly those bytes, and any load that
follows returns the stored value, extended, and changes nothing. -/
def NamesBytes (size : BitVec 2) (addr : Word) : Prop :=
  ∀ (x y : ExLsu) (xs ys : Nat → ExLsu) (i j : Nat) (s : LsuMem),
    IsAccess 2#2 size addr x → IsAccess 1#2 size addr y → Presents xs x → Presents ys y →
    s.lsu.waiting = false →
    (s.access xs i).dmem = store s.dmem addr (sizeBytes size) x.data ∧
      ((s.access xs i).access ys j).dmem = (s.access xs i).dmem ∧
      ((s.access xs i).access ys j).lsu.wbuData =
        if y.isUload then (x.data.setWidth (8 * sizeBytes size)).setWidth 32
        else (x.data.setWidth (8 * sizeBytes size)).signExtend 32

theorem sizeBytes_le (size : BitVec 2) : sizeBytes size ≤ 2 ^ 32 := by
  have h := size.isLt
  exact Nat.pow_le_pow_right (by omega) (by omega)

theorem namesBytes_of_aligned {size : BitVec 2} {addr : Word} (ha : sizeBytes size ∣ addr.toNat) :
    NamesBytes size addr := by
  rintro x y xs ys i j s ⟨hx, hxc, rfl, rfl⟩ ⟨hy, hyc, hys, hya⟩ hxs hys' hw
  obtain ⟨hw1, hd1, -⟩ := LsuMem.access_served hxs hx (by simp [hxc]) hw i
  obtain ⟨-, hd2, hr⟩ := LsuMem.access_served hys' hy (by simp [hyc]) hw1 j
  have hst := retireMem_store hx ha hxc s.dmem
  refine ⟨hd1.trans hst, ?_, ?_⟩
  · rw [hd2, retireMem, if_neg (by simp [hyc])]
  · have hya' : y.Aligned := by rwa [ExLsu.Aligned, hys, hya]
    rw [hr hyc, retireData_load hy.size hya' hyc, hd1, hst, hys, hya, load_store _ _ _ (sizeBytes_le _)]

section Misaligned

variable {size : BitVec 2} {addr : Word}

def onesStore (size : BitVec 2) (addr : Word) : ExLsu :=
  { exLsuReset with valid := true, addr := addr, data := 0xffffffff#32, ctrl := 2#2, size := size }

def plainLoad (size : BitVec 2) (addr : Word) : ExLsu :=
  { exLsuReset with valid := true, addr := addr, ctrl := 1#2, size := size, isUload := true, wbWen := true }

theorem isAccess_onesStore (hs : size ≠ 3#2) : IsAccess 2#2 size addr (onesStore size addr) where
  request := ⟨rfl, by simp [onesStore], hs, by simp [onesStore, exLsuReset]⟩
  ctrl := rfl
  size := rfl
  addr := rfl

theorem isAccess_plainLoad (hs : size ≠ 3#2) : IsAccess 1#2 size addr (plainLoad size addr) where
  request := ⟨rfl, by simp [plainLoad], hs, by simp [plainLoad]⟩
  ctrl := rfl
  size := rfl
  addr := rfl

theorem retireMem_onesStore (size : BitVec 2) (addr : Word) (m : Pmem) :
    retireMem (onesStore size addr) m =
      paddrWrite m addr (wdata (onesStore size addr)) (wmask (onesStore size addr)) := rfl

theorem retireData_plainLoad (size : BitVec 2) (addr : Word) (m : Pmem) :
    retireData (plainLoad size addr) m =
      extendLane size true (readLane size addr (paddrRead m addr)) 0#32 := rfl

def zeros : LsuMem := ⟨lsuReset, fun _ => 0#8⟩

theorem NamesBytes.ones (h : NamesBytes size addr) (hs : size ≠ 3#2) :
    retireMem (onesStore size addr) zeros.dmem = store zeros.dmem addr (sizeBytes size) 0xffffffff#32 ∧
      retireData (plainLoad size addr) (retireMem (onesStore size addr) zeros.dmem) =
        ((0xffffffff#32).setWidth (8 * sizeBytes size)).setWidth 32 := by
  have hx : IsAccess 2#2 size addr _ := isAccess_onesStore hs
  have hy : IsAccess 1#2 size addr _ := isAccess_plainLoad hs
  have hxs : Presents (fun _ => onesStore size addr) (onesStore size addr) := ⟨rfl, fun _ => Or.inl rfl⟩
  have hys : Presents (fun _ => plainLoad size addr) (plainLoad size addr) := ⟨rfl, fun _ => Or.inl rfl⟩
  obtain ⟨hw1, hd1, -⟩ := LsuMem.access_served (s := zeros) hxs hx.request (by simp [hx.ctrl]) rfl 0
  obtain ⟨-, -, hr⟩ := LsuMem.access_served hys hy.request (by simp [hy.ctrl]) hw1 0
  obtain ⟨h1, -, h3⟩ := h _ _ _ _ 0 0 zeros hx hy hxs hys rfl
  rw [← hd1]
  exact ⟨h1, (hr hy.ctrl).symm.trans h3⟩

theorem toNat_add_sub_paddr (a : Word) {k : Nat} (hk : k < 4) :
    (a + BitVec.ofNat 32 k - paddr a).toNat = byteOffset a + k := by
  have ha := a.isLt
  rw [BitVec.toNat_sub, BitVec.toNat_add, BitVec.toNat_ofNat, paddr_toNat, byteOffset_eq]
  omega

theorem NamesBytes.within_word (h : NamesBytes size addr) (hs : size ≠ 3#2) :
    byteOffset addr + sizeBytes size ≤ 4 := by
  by_contra hn
  have hlt := byteOffset_lt addr
  have hcases := sizeBytes_cases hs
  have hk : sizeBytes size - 1 < sizeBytes size ∧ sizeBytes size - 1 < 4 := by
    rcases hcases with ⟨-, hn⟩ | ⟨-, hn⟩ | ⟨-, hn⟩ <;> omega
  have hh := congrFun (h.ones hs).1 (addr + BitVec.ofNat 32 (sizeBytes size - 1))
  have hones : (0xffffffff#32).extractLsb' (8 * (sizeBytes size - 1)) 8 = 0xff#8 := by
    rcases hcases with ⟨-, hn⟩ | ⟨-, hn⟩ | ⟨-, hn⟩ <;> rw [hn] <;> decide
  have hout : ¬ (addr + BitVec.ofNat 32 (sizeBytes size - 1) - paddr addr).toNat < 4 := by
    rw [toNat_add_sub_paddr addr hk.2]
    omega
  have hzero : retireMem (onesStore size addr) zeros.dmem (addr + BitVec.ofNat 32 (sizeBytes size - 1)) =
      0#8 := by
    rw [retireMem_onesStore, paddrWrite_apply, if_neg fun hin => hout hin.1]
    rfl
  rw [store_apply_add _ _ _ hk.1 (sizeBytes_le size), hones, hzero] at hh
  exact absurd hh (by decide)

/-- A half-word at offset 1 is stored in the lanes 1 and 2 and loaded from the lanes 0 and 1. -/
theorem NamesBytes.half_even (h : NamesBytes 1#2 addr) : byteOffset addr ≠ 1 := by
  intro h1
  have hs : (1#2 : BitVec 2) ≠ 3#2 := by decide
  have hbit : (addr.extractLsb' 1 1).toNat = 0 := by
    rw [byteOffset_eq] at h1
    simp only [BitVec.extractLsb'_toNat, Nat.shiftRight_eq_div_pow]
    omega
  have hmask : (wmask (onesStore 1#2 addr)).getLsbD 0 = false := by
    have hm : wmask (onesStore 1#2 addr) = 3#4 <<< addr.extractLsb' 0 2 := rfl
    rw [hm, halfMask (show byteOffset addr ≤ 2 by omega) 0 (by omega)]
    exact decide_eq_false fun hin => by
      have := hin.1
      rw [← byteOffset] at this
      omega
  have hzero : retireMem (onesStore 1#2 addr) zeros.dmem (paddr addr) = 0#8 := by
    rw [retireMem_onesStore, paddrWrite_apply, BitVec.sub_self, if_neg fun hin => ?_]
    · rfl
    · exact absurd (hmask.symm.trans hin.2) (by decide)
  have hh := congrArg (fun v : Word => v.getLsbD 0) (h.ones hs).2
  have hlane : readLane 1#2 addr (paddrRead (retireMem (onesStore 1#2 addr) zeros.dmem) addr) =
      load (retireMem (onesStore 1#2 addr) zeros.dmem) (paddr addr) 4 := by
    simp [readLane, hbit, paddrRead_eq_load]
  have hn : sizeBytes 1#2 = 2 := rfl
  have hh := congrArg (fun v : Word => v.getLsbD 0) (h.ones hs).2
  rw [retireData_plainLoad, extendLane_eq hs, if_pos rfl, hlane, hn] at hh
  simp only [BitVec.getLsbD_setWidth, getLsbD_load] at hh
  rw [BitVec.add_zero, hzero] at hh
  exact absurd hh (by decide)

end Misaligned

/-- Half-words and words are stored and loaded at the bytes they name exactly when their
address is a multiple of their size. -/
theorem namesBytes_iff (size : BitVec 2) (addr : Word) (hs : size = 1#2 ∨ size = 2#2) :
    NamesBytes size addr ↔ sizeBytes size ∣ addr.toNat := by
  refine ⟨fun h => ?_, namesBytes_of_aligned⟩
  have ho := byteOffset_eq addr
  rcases hs with rfl | rfl
  · have hw := h.within_word (by decide)
    have h1 := h.half_even
    have hn : sizeBytes 1#2 = 2 := rfl
    rw [hn] at hw ⊢
    omega
  · have hw := h.within_word (by decide)
    have hn : sizeBytes 2#2 = 4 := rfl
    rw [hn] at hw ⊢
    omega

/-- A store of the half-word 0xffff at 0x80000001, over zeros, is read back as 0xff00. -/
theorem half_offset_one_not_named :
    retireData (plainLoad 1#2 0x80000001#32) (retireMem (onesStore 1#2 0x80000001#32) zeros.dmem) =
        0xff00#32 ∧
      ¬ NamesBytes 1#2 0x80000001#32 :=
  ⟨by decide +kernel, fun h => h.half_even (by decide)⟩

theorem namesBytes_iff_offset_two : NamesBytes 1#2 0x80000002#32 :=
  (namesBytes_iff 1#2 0x80000002#32 (Or.inl rfl)).mpr (by decide)

end Npc
