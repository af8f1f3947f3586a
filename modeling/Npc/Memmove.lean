import Npc.CopyLoop
import Npc.Memory

/-! `memmove` and `memcpy` of `klib/src/string.c`. -/

namespace Npc

namespace Klib

/-- The address of `p[i]`. -/
def byteAt (p : Word) (i : Nat) : Word := p + BitVec.ofNat 32 i

/-- `memmove`: the pointer returned, and the memory afterwards. -/
def memmove (dst src n : Word) (pmem : Pmem) : Word × Pmem :=
  if dst = src ∨ n = 0#32 then (dst, pmem)
  else if dst < src then (dst, CopyLoop.up (byteAt dst) (byteAt src) n.toNat pmem)
  else (dst, CopyLoop.down (byteAt dst) (byteAt src) n.toNat pmem)

def memcpy (out src n : Word) (pmem : Pmem) : Word × Pmem :=
  (out, CopyLoop.up (byteAt out) (byteAt src) n.toNat pmem)

/-- The `n` bytes from `dst` on hold what those from `src` on held, and the others are unchanged. -/
structure Copied (dst src : Word) (n : Nat) (pmem pmem' : Pmem) : Prop where
  inside : ∀ i < n, pmem' (byteAt dst i) = pmem (byteAt src i)
  outside : ∀ x, (∀ i < n, x ≠ byteAt dst i) → pmem' x = pmem x

section Regions

variable {dst src p q : Word} {n i j : Nat} {pmem pmem' pmem'' : Pmem}

theorem byteAt_toNat (h : p.toNat + n ≤ 2 ^ 32) (hi : i < n) :
    (byteAt p i).toNat = p.toNat + i := by
  rw [byteAt, BitVec.toNat_add, BitVec.toNat_ofNat]
  omega

theorem byteAt_inj (h : p.toNat + n ≤ 2 ^ 32) (hi : i < n) (hj : j < n)
    (he : byteAt p i = byteAt p j) : i = j := by
  have hh := congrArg BitVec.toNat he
  rw [byteAt_toNat h hi, byteAt_toNat h hj] at hh
  omega

theorem byteAt_ne (hp : p.toNat + n ≤ 2 ^ 32) (hq : q.toNat + n ≤ 2 ^ 32) (hi : i < n) (hj : j < n)
    (h : p.toNat + i ≠ q.toNat + j) : byteAt p i ≠ byteAt q j := by
  intro he
  have hh := congrArg BitVec.toNat he
  rw [byteAt_toNat hp hi, byteAt_toNat hq hj] at hh
  exact h hh

theorem Copied.unique (h : Copied dst src n pmem pmem') (h' : Copied dst src n pmem pmem'') :
    pmem' = pmem'' := by
  funext x
  by_cases hx : ∃ i < n, x = byteAt dst i
  · obtain ⟨i, hi, rfl⟩ := hx
    rw [h.inside i hi, h'.inside i hi]
  · have hout : ∀ i < n, x ≠ byteAt dst i := fun i hi he => hx ⟨i, hi, he⟩
    rw [h.outside x hout, h'.outside x hout]

theorem copied_up (hd : dst.toNat + n ≤ 2 ^ 32)
    (h : ∀ i < n, ∀ j < i, byteAt src i ≠ byteAt dst j) :
    Copied dst src n pmem (CopyLoop.up (byteAt dst) (byteAt src) n pmem) where
  inside _ hi := CopyLoop.up_apply (fun _ hi _ hj => byteAt_inj hd hi hj) h hi
  outside _ hx := CopyLoop.up_of_ne hx

theorem copied_down (hd : dst.toNat + n ≤ 2 ^ 32)
    (h : ∀ i < n, ∀ j < i, byteAt src j ≠ byteAt dst i) :
    Copied dst src n pmem (CopyLoop.down (byteAt dst) (byteAt src) n pmem) where
  inside _ hi := CopyLoop.down_apply (fun _ hi _ hj => byteAt_inj hd hi hj) h hi
  outside _ hx := CopyLoop.down_of_ne hx

end Regions

theorem memmove_fst (dst src n : Word) (pmem : Pmem) : (memmove dst src n pmem).1 = dst := by
  unfold memmove
  split_ifs <;> rfl

theorem copied_memmove {dst src n : Word} (pmem : Pmem) (hd : dst.toNat + n.toNat ≤ 2 ^ 32)
    (hs : src.toNat + n.toNat ≤ 2 ^ 32) :
    Copied dst src n.toNat pmem (memmove dst src n pmem).2 := by
  unfold memmove
  split_ifs with hsame hlt
  · rcases hsame with rfl | rfl
    · exact ⟨fun _ _ => rfl, fun _ _ => rfl⟩
    · exact ⟨fun i hi => absurd hi (Nat.not_lt_zero i), fun _ _ => rfl⟩
  · have hlt' : dst.toNat < src.toNat := hlt
    exact copied_up hd fun i hi j hj => byteAt_ne hs hd hi (hj.trans hi) (by omega)
  · have hle : src.toNat ≤ dst.toNat := Nat.le_of_not_lt hlt
    have hne : dst.toNat ≠ src.toNat := fun he => hsame (Or.inl (BitVec.eq_of_toNat_eq he))
    exact copied_down hd fun i hi j hj => byteAt_ne hs hd (hj.trans hi) hi (by omega)

/-- `memmove` copies the source region as it was before the call, in whatever way the regions
overlap. Where they are disjoint, `memcpy` does the same. -/
theorem memmove_correct (dst src n : Word) (pmem : Pmem) (hd : dst.toNat + n.toNat ≤ 2 ^ 32)
    (hs : src.toNat + n.toNat ≤ 2 ^ 32) :
    (memmove dst src n pmem).1 = dst ∧ Copied dst src n.toNat pmem (memmove dst src n pmem).2 ∧
      ((∀ i < n.toNat, ∀ j < n.toNat, byteAt src i ≠ byteAt dst j) →
        (memcpy dst src n pmem).2 = (memmove dst src n pmem).2) := by
  refine ⟨memmove_fst dst src n pmem, copied_memmove pmem hd hs, fun hdisj => ?_⟩
  have hcpy : Copied dst src n.toNat pmem (memcpy dst src n pmem).2 :=
    copied_up hd fun i hi j hj => hdisj i hi j (hj.trans hi)
  exact hcpy.unique (copied_memmove pmem hd hs)

theorem memmove_correct_overlap :
    (memmove 0x80000002#32 0x80000000#32 4#32 fun a => a.setWidth 8).2 0x80000005#32 = 3#8 :=
  (memmove_correct 0x80000002#32 0x80000000#32 4#32 (fun a => a.setWidth 8) (by decide)
    (by decide)).2.1.inside 3 (by decide)

end Klib

end Npc
