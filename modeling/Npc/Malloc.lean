import Mathlib.Data.Set.Lattice
import Mathlib.Order.CompletePartialOrder
import Mathlib.Order.Interval.Set.Basic
import Npc.ByteMemory
import Npc.Clocked
import Npc.Macro

/-! `malloc` and `free` of `klib/src/stdlib.c`. The allocator is a pointer that moves up from the
start of the heap; the sums with it are those of 32-bit words. -/

namespace Npc

open ByteMemory

namespace Klib

/-- `ROUNDUP` -/
def roundup (a sz : Word) : Word := (a + sz - 1#32) &&& ~~~(sz - 1#32)

/-- `malloc`: the pointer returned, and `addr` afterwards. -/
def malloc (heapEnd size addr : Word) : Word × Word :=
  let size := roundup size 8#32
  if addr + size > heapEnd then (0#32, addr) else (addr, addr + size)

def free (_ptr addr : Word) : Word := addr

inductive HeapCall
  | malloc (size : Word)
  | free (ptr : Word)

/-- The static variable of `malloc`, and the blocks returned so far with the sizes requested. -/
structure Heap where
  addr : Word
  blocks : List (Word × Word)

namespace Heap

def block (b : Word × Word) : Set Nat := Set.Ico b.1.toNat (b.1.toNat + b.2.toNat)

def init (heapStart : Word) : Heap := ⟨heapStart, []⟩

section Calls

variable (heapStart heapEnd : Word)

def step (c : HeapCall) (h : Heap) : Heap :=
  match c with
  | .malloc size =>
    let r := malloc heapEnd size h.addr
    ⟨r.2, if r.1 = 0#32 then h.blocks else (r.1, size) :: h.blocks⟩
  | .free ptr => { h with addr := free ptr h.addr }

def Right (c : HeapCall) (h : Heap) : Prop :=
  match c with
  | .malloc size =>
    let r := malloc heapEnd size h.addr
    (r.1 ≠ 0#32 → 8 ∣ r.1.toNat ∧ heapStart.toNat ≤ r.1.toNat ∧
      r.1.toNat + size.toNat ≤ heapEnd.toNat ∧ ∀ b ∈ h.blocks, Disjoint (block (r.1, size)) (block b)) ∧
    (r.1 = 0#32 → r.2 = h.addr)
  | .free _ => True

/-- The rounded size can be added to `addr` in 32 bits, or at least the block itself ends within
the heap. Where `addr` is 0, the pointer to a block would be NULL. -/
def Fits (c : HeapCall) (h : Heap) : Prop :=
  match c with
  | .malloc size =>
    (h.addr ≠ 0#32 → size.toNat ≤ 2 ^ 32 - 8 ∧
      (h.addr.toNat + (roundup size 8#32).toNat < 2 ^ 32 ∨
        h.addr.toNat + size.toNat ≤ heapEnd.toNat)) ∧
    (h.addr = 0#32 → roundup size 8#32 = 0#32 ∨ heapEnd < roundup size 8#32)
  | .free _ => True

/-- The blocks lie below `addr`, which is aligned and within the heap, unless it has come round
to 0. -/
structure Inv (h : Heap) : Prop where
  aligned : 8 ∣ h.addr.toNat
  start : h.addr ≠ 0#32 → heapStart.toNat ≤ h.addr.toNat
  limit : h.addr.toNat ≤ heapEnd.toNat
  below : h.addr ≠ 0#32 → ∀ b ∈ h.blocks, b.1.toNat + b.2.toNat ≤ h.addr.toNat

end Calls

end Heap

theorem roundup_toNat (size : Word) :
    (roundup size 8#32).toNat = 8 * ((size.toNat + 7) % 2 ^ 32 / 8) := by
  have hmask : roundup size 8#32 = (size + 7#32) &&& ~~~BitVec.ofNat 32 (2 ^ 3 - 1) := by
    have hsum : size + 8#32 - 1#32 = size + 7#32 := by
      rw [BitVec.sub_eq_add_neg, BitVec.add_assoc]
      rfl
    rw [roundup, hsum]
    rfl
  rw [hmask, toNat_and_not_mask, BitVec.toNat_add, Nat.mul_comm]
  rfl

theorem malloc_of_gt {heapEnd size addr : Word} (h : addr + roundup size 8#32 > heapEnd) :
    malloc heapEnd size addr = (0#32, addr) := if_pos h

theorem malloc_of_le {heapEnd size addr : Word} (h : ¬ addr + roundup size 8#32 > heapEnd) :
    malloc heapEnd size addr = (addr, addr + roundup size 8#32) := if_neg h

namespace Heap

variable {heapStart heapEnd size : Word} {h : Heap}

theorem inv_init (h8 : 8 ∣ heapStart.toNat) (hlt : heapStart < heapEnd) :
    (init heapStart).Inv heapStart heapEnd :=
  ⟨h8, fun _ => le_rfl, Nat.le_of_lt hlt, by simp [init]⟩

theorem addr_pos (h : Heap) (h0 : h.addr ≠ 0#32) : 0 < h.addr.toNat :=
  Nat.pos_of_ne_zero fun hz => h0 (BitVec.eq_of_toNat_eq hz)

theorem Inv.disjoint (hi : h.Inv heapStart heapEnd) (h0 : h.addr ≠ 0#32) (size : Word) :
    ∀ b ∈ h.blocks, Disjoint (block (h.addr, size)) (block b) := by
  intro b hb
  have hbelow := hi.below h0 b hb
  rw [Set.disjoint_left]
  rintro x ⟨hx, -⟩ ⟨-, hx'⟩
  simp only at hx hx'
  omega

theorem right_of_zero (h0 : h.addr = 0#32) : h.Right heapStart heapEnd (.malloc size) ↔
    roundup size 8#32 = 0#32 ∨ heapEnd < roundup size 8#32 := by
  by_cases hgt : h.addr + roundup size 8#32 > heapEnd
  · rw [Right, malloc_of_gt hgt]
    rw [h0, BitVec.zero_add] at hgt
    simp [hgt]
  · rw [Right, malloc_of_le hgt]
    rw [h0, BitVec.zero_add] at hgt ⊢
    simp [hgt]

theorem Inv.right_of_ne_zero (hi : h.Inv heapStart heapEnd) (h0 : h.addr ≠ 0#32) :
    h.Right heapStart heapEnd (.malloc size) ↔ size.toNat ≤ 2 ^ 32 - 8 ∧
      (h.addr.toNat + (roundup size 8#32).toNat < 2 ^ 32 ∨
        h.addr.toNat + size.toNat ≤ heapEnd.toNat) := by
  have hpos := h.addr_pos h0
  have hlimit := hi.limit
  have haligned := hi.aligned
  have hround := roundup_toNat size
  have hsize := size.isLt
  have hend := heapEnd.isLt
  by_cases hgt : h.addr + roundup size 8#32 > heapEnd
  · have hsum : heapEnd.toNat < (h.addr.toNat + (roundup size 8#32).toNat) % 2 ^ 32 := by
      simpa [BitVec.lt_def] using hgt
    have hright : h.Right heapStart heapEnd (.malloc size) := by
      rw [Right, malloc_of_gt hgt]
      simp
    refine iff_of_true hright ⟨?_, Or.inl ?_⟩ <;> omega
  · have hsum : (h.addr.toNat + (roundup size 8#32).toNat) % 2 ^ 32 ≤ heapEnd.toNat := by
      simpa [BitVec.lt_def] using hgt
    have hright : h.Right heapStart heapEnd (.malloc size) ↔
        h.addr.toNat + size.toNat ≤ heapEnd.toNat := by
      rw [Right, malloc_of_le hgt]
      constructor
      · exact fun hr => (hr.1 h0).2.2.1
      · exact fun hle => ⟨fun _ => ⟨haligned, hi.start h0, hle, hi.disjoint h0 size⟩,
          fun hz => absurd hz h0⟩
    rw [hright]
    constructor <;> omega

theorem Inv.right_iff (hi : h.Inv heapStart heapEnd) (c : HeapCall) :
    h.Right heapStart heapEnd c ↔ h.Fits heapEnd c := by
  cases c with
  | free ptr => rfl
  | malloc size =>
    by_cases h0 : h.addr = 0#32
    · simp [right_of_zero h0, Fits, h0]
    · simp [hi.right_of_ne_zero h0, Fits, h0]

theorem Inv.step_take (hi : h.Inv heapStart heapEnd) (h0 : h.addr ≠ 0#32)
    (hf : h.Fits heapEnd (.malloc size)) (hgt : ¬ h.addr + roundup size 8#32 > heapEnd) :
    (Heap.mk (h.addr + roundup size 8#32) ((h.addr, size) :: h.blocks)).Inv heapStart heapEnd := by
  have hpos := h.addr_pos h0
  have hlimit := hi.limit
  have haligned := hi.aligned
  have hround := roundup_toNat size
  have hend := heapEnd.isLt
  have hfit := hf.1 h0
  have hsum : (h.addr.toNat + (roundup size 8#32).toNat) % 2 ^ 32 ≤ heapEnd.toNat := by
    simpa [BitVec.lt_def] using hgt
  have haddr : (h.addr + roundup size 8#32).toNat =
      (h.addr.toNat + (roundup size 8#32).toNat) % 2 ^ 32 := BitVec.toNat_add _ _
  -- the sum wraps only to 0
  have hmoved : h.addr + roundup size 8#32 ≠ 0#32 →
      h.addr.toNat + size.toNat ≤ (h.addr + roundup size 8#32).toNat := by
    intro hne
    have hne' := Heap.addr_pos ⟨h.addr + roundup size 8#32, []⟩ hne
    simp only at hne'
    omega
  constructor
  case aligned => simp only; omega
  case limit => simp only; omega
  case start =>
    intro hne
    exact (hi.start h0).trans ((Nat.le_add_right _ _).trans (hmoved hne))
  case below =>
    intro hne b hb
    rcases List.mem_cons.mp hb with rfl | hb
    · exact hmoved hne
    · exact (hi.below h0 b hb).trans ((Nat.le_add_right _ _).trans (hmoved hne))

theorem Inv.step (hi : h.Inv heapStart heapEnd) (c : HeapCall) (hf : h.Fits heapEnd c) :
    (h.step heapEnd c).Inv heapStart heapEnd := by
  cases c with
  | free ptr => exact hi
  | malloc size =>
    by_cases hgt : h.addr + roundup size 8#32 > heapEnd
    · simpa [Heap.step, malloc_of_gt hgt] using hi
    · simp only [Heap.step, malloc_of_le hgt]
      by_cases h0 : h.addr = 0#32
      · have hr : roundup size 8#32 = 0#32 := by
          rcases hf.2 h0 with hr | hr
          · exact hr
          · rw [h0, BitVec.zero_add] at hgt
            exact absurd hr hgt
        rw [if_pos h0, hr, BitVec.add_zero]
        exact hi
      · rw [if_neg h0]
        exact hi.step_take h0 hf hgt

section Run

variable (heapStart heapEnd : Word) (calls : Nat → HeapCall)

def run (n : Nat) : Heap := Clocked.run (Heap.step heapEnd) (init heapStart) calls n

/-- The first `n` calls all do what `malloc` promises exactly when each of them has a size that the
32-bit sums can hold. -/
theorem malloc_right_iff (h8 : 8 ∣ heapStart.toNat) (hlt : heapStart < heapEnd) (n : Nat) :
    (∀ k < n, (run heapStart heapEnd calls k).Right heapStart heapEnd (calls k)) ↔
      ∀ k < n, (run heapStart heapEnd calls k).Fits heapEnd (calls k) :=
  Clocked.run_forall_iff (Heap.step heapEnd) (init heapStart) calls (inv_init h8 hlt)
    (fun c _ hi => hi.right_iff c) (fun c _ hi hf => hi.step c hf) n

end Run

/-- A request of 2^32 - 1 bytes is rounded to 0 and served. -/
theorem malloc_right_not :
    ¬ (run 0x80010000#32 0x88000000#32 (fun _ => .malloc 0xffffffff#32) 0).Right 0x80010000#32
      0x88000000#32 (.malloc 0xffffffff#32) := by
  intro h
  exact absurd (h.1 (by decide)).2.2.1 (by decide)

theorem malloc_right_iff_two :
    (run 0x80010000#32 0x88000000#32 (fun _ => .malloc 20#32) 0).Right 0x80010000#32 0x88000000#32
      (.malloc 20#32) ∧
    (run 0x80010000#32 0x88000000#32 (fun _ => .malloc 20#32) 1).Right 0x80010000#32 0x88000000#32
      (.malloc 20#32) := by
  have hh := (malloc_right_iff 0x80010000#32 0x88000000#32 (fun _ => .malloc 20#32) (by decide)
    (by decide) 2).mpr
  have hfits : ∀ k < 2, (run 0x80010000#32 0x88000000#32 (fun _ => .malloc 20#32) k).Fits
      0x88000000#32 (.malloc 20#32) := by
    intro k hk
    rcases (by omega : k = 0 ∨ k = 1) with rfl | rfl
    · exact ⟨fun _ => ⟨by decide, Or.inl (by decide)⟩, fun h => absurd h (by decide)⟩
    · exact ⟨fun _ => ⟨by decide, Or.inl (by decide)⟩, fun h => absurd h (by decide)⟩
  exact ⟨hh hfits 0 (by decide), hh hfits 1 (by decide)⟩

end Heap

end Klib

end Npc
