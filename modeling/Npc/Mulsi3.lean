import Npc.Macro
import Npc.RvCode

/-! `__mulsi3` of libgcc, `muldi3.S`, for a core without the M extension: the RV32I instructions it
assembles to, run on the ISA machine. -/

namespace Npc

open Rv32i ByteMemory

/-- The registers the routines use. -/
structure Scratch where
  ra : Word
  t0 : Word
  a0 : Word
  a1 : Word
  a2 : Word
  a3 : Word

namespace Scratch

/-- The registers of `r` with those of `s` in place of ra, t0 and a0 to a3. -/
def put (s : Scratch) (r : RegFile) : RegFile where
  val a :=
    if a = 1#5 then s.ra
    else if a = 5#5 then s.t0
    else if a = 10#5 then s.a0
    else if a = 11#5 then s.a1
    else if a = 12#5 then s.a2
    else if a = 13#5 then s.a3
    else r a
  zero := by simp

def ofRegs (r : RegFile) : Scratch := ⟨r 1#5, r 5#5, r 10#5, r 11#5, r 12#5, r 13#5⟩

theorem put_apply {s : Scratch} {r : RegFile} {a : Reg}
    (ha : a ∉ [1#5, 5#5, 10#5, 11#5, 12#5, 13#5]) : s.put r a = r a := by
  simp only [List.mem_cons, List.not_mem_nil, or_false, not_or] at ha
  simp only [put, ha, if_false]

theorem ofRegs_put (r : RegFile) : (ofRegs r).put r = r := by
  ext a
  simp only [put, ofRegs]
  split_ifs with h1 h2 h3 h4 h5 h6 <;> simp_all

variable (s : Scratch) (r : RegFile) (v : Word)

@[simp] theorem put_ra : s.put r 1#5 = s.ra := rfl
@[simp] theorem put_t0 : s.put r 5#5 = s.t0 := rfl
@[simp] theorem put_a0 : s.put r 10#5 = s.a0 := rfl
@[simp] theorem put_a1 : s.put r 11#5 = s.a1 := rfl
@[simp] theorem put_a2 : s.put r 12#5 = s.a2 := rfl
@[simp] theorem put_a3 : s.put r 13#5 = s.a3 := rfl

@[simp] theorem set_ra : (s.put r).set 1#5 v = { s with ra := v }.put r := by
  ext a
  simp only [RegFile.set_apply, put]
  grind

@[simp] theorem set_t0 : (s.put r).set 5#5 v = { s with t0 := v }.put r := by
  ext a
  simp only [RegFile.set_apply, put]
  grind

@[simp] theorem set_a0 : (s.put r).set 10#5 v = { s with a0 := v }.put r := by
  ext a
  simp only [RegFile.set_apply, put]
  grind

@[simp] theorem set_a1 : (s.put r).set 11#5 v = { s with a1 := v }.put r := by
  ext a
  simp only [RegFile.set_apply, put]
  grind

@[simp] theorem set_a2 : (s.put r).set 12#5 v = { s with a2 := v }.put r := by
  ext a
  simp only [RegFile.set_apply, put]
  grind

@[simp] theorem set_a3 : (s.put r).set 13#5 v = { s with a3 := v }.put r := by
  ext a
  simp only [RegFile.set_apply, put]
  grind

end Scratch

/-- Called at `pc`, the code returns `v` to the caller. The memory is left alone, and the registers
other than ra, t0 and a0 to a3. -/
def Returns (code : Mem 32) (pc : Word) (r : RegFile) (m : Mem 32) (v : Word) : Prop :=
  ∃ r', Reaches code ⟨pc, r, m⟩ ⟨r 1#5, r', m⟩ ∧ r' 10#5 = v ∧
    ∀ a, a ∉ [1#5, 5#5, 10#5, 11#5, 12#5, 13#5] → r' a = r a

theorem Scratch.returns {code : Mem 32} {pc : Word} {r : RegFile} {m : Mem 32} {v : Word}
    (h : ∃ s' : Scratch, Reaches code ⟨pc, (ofRegs r).put r, m⟩ ⟨r 1#5, s'.put r, m⟩ ∧ s'.a0 = v) :
    Returns code pc r m v := by
  obtain ⟨s', hr, ha0⟩ := h
  rw [ofRegs_put] at hr
  exact ⟨_, hr, ha0, fun a ha => put_apply ha⟩

/-- `__mulsi3` -/
def mulsi3 : List Instr :=
  [.mv 12#5 10#5,
   .li 10#5 0#12,
   -- .L1
   .opImm .andi 13#5 11#5 1#12,
   .beqz 13#5 (branchTo 3 5),
   .op .add 10#5 10#5 12#5,
   -- .L2
   .shiftImm .srli 11#5 11#5 1#5,
   .shiftImm .slli 12#5 12#5 1#5,
   .bnez 11#5 (branchTo 7 2),
   .ret]

section Mul

variable {code : Mem 32} {base : Word} {r : RegFile} {m : Mem 32}

theorem toNat_and_one {w : Nat} (y : BitVec w) : (y &&& 1#w).toNat = y.toNat % 2 := by
  cases w with
  | zero => simp [BitVec.eq_nil y]
  | succ w =>
    rw [BitVec.toNat_and, BitVec.toNat_ofNat, Nat.mod_eq_of_lt (Nat.one_lt_two_pow (by omega)),
      Nat.and_one_is_mod]

theorem mul_halve {w : Nat} (acc x y : BitVec w) :
    acc + y * x = acc + (y &&& 1#w) * x + (y >>> 1) * (x <<< 1) := by
  have hy : y = (y >>> 1) * 2#w + (y &&& 1#w) := by
    apply BitVec.eq_of_toNat_eq
    rw [BitVec.toNat_add, BitVec.toNat_mul, BitVec.toNat_ofNat, Nat.mul_mod_mod, toNat_and_one,
      BitVec.toNat_ushiftRight, Nat.shiftRight_eq_div_pow, Nat.mod_add_mod, Nat.pow_one, Nat.div_add_mod',
      Nat.mod_eq_of_lt y.isLt]
  have hx : x <<< 1 = x * 2#w := by
    apply BitVec.eq_of_toNat_eq
    simp [Nat.shiftLeft_eq]
  calc acc + y * x = acc + ((y >>> 1) * 2#w + (y &&& 1#w)) * x := by rw [← hy]
    _ = acc + (y &&& 1#w) * x + (y >>> 1) * (x * 2#w) := by grind
    _ = acc + (y &&& 1#w) * x + (y >>> 1) * (x <<< 1) := by rw [hx]

theorem and_one_cases {w : Nat} (y : BitVec w) : y &&& 1#w = 0#w ∨ y &&& 1#w = 1#w := by
  have hand := toNat_and_one y
  rcases Nat.mod_two_eq_zero_or_one y.toNat with h0 | h1
  · left
    apply BitVec.eq_of_toNat_eq
    rw [hand, h0, BitVec.toNat_zero]
  · right
    apply BitVec.eq_of_toNat_eq
    have hlt := y.isLt
    rw [hand, h1, BitVec.toNat_ofNat, Nat.mod_eq_of_lt (by omega)]

/-- The registers after one round of the loop. -/
def mulsi3Round (s : Scratch) : Scratch where
  ra := s.ra
  t0 := s.t0
  a0 := s.a0 + (s.a1 &&& 1#32) * s.a2
  a1 := s.a1 >>> 1
  a2 := s.a2 <<< 1
  a3 := s.a1 &&& 1#32

theorem mulsi3_round (h : CodeAt code base mulsi3) (s : Scratch) :
    Reaches code ⟨codePc base 2, s.put r, m⟩ ⟨codePc base 7, (mulsi3Round s).put r, m⟩ := by
  have htest := h.opImm (k := 2) rfl (r := s.put r) (m := m)
  have hadd : Reaches code ⟨codePc base 3, { s with a3 := s.a1 &&& 1#32 }.put r, m⟩
      ⟨codePc base 5, { s with a0 := s.a0 + (s.a1 &&& 1#32) * s.a2, a3 := s.a1 &&& 1#32 }.put r, m⟩ := by
    rcases and_one_cases s.a1 with h0 | h1
    · have hb := h.branch_taken (k := 3) (j := 5) rfl (r := { s with a3 := s.a1 &&& 1#32 }.put r) (m := m)
        (by simp [Cond.holds, h0]) (by decide)
      simpa [h0] using hb
    · have hb := h.branch_not_taken (k := 3) rfl (r := { s with a3 := s.a1 &&& 1#32 }.put r) (m := m)
        (by simp [Cond.holds, h1])
      simpa [h1, Op.eval] using hb.trans (h.op (k := 4) rfl)
  have hshift := (h.shiftImm (k := 5) rfl (m := m)
    (r := { s with a0 := s.a0 + (s.a1 &&& 1#32) * s.a2, a3 := s.a1 &&& 1#32 }.put r)).trans
    (h.shiftImm (k := 6) rfl)
  simp only [OpImm.eval, Scratch.put_a1, Scratch.set_a3] at htest
  simp only [ShiftImm.eval, Scratch.put_a1, Scratch.put_a2, Scratch.set_a1, Scratch.set_a2] at hshift
  exact htest.trans (hadd.trans hshift)

theorem mulsi3_loop (h : CodeAt code base mulsi3) (s : Scratch) :
    ∃ x b, Reaches code ⟨codePc base 2, s.put r, m⟩
      ⟨codePc base 8, { s with a0 := s.a0 + s.a1 * s.a2, a1 := 0#32, a2 := x, a3 := b }.put r, m⟩ := by
  induction hn : s.a1.toNat using Nat.strong_induction_on generalizing s with
  | _ n ih =>
    have hround := mulsi3_round h s (r := r) (m := m)
    have hhalve : s.a0 + s.a1 * s.a2 = (mulsi3Round s).a0 + (mulsi3Round s).a1 * (mulsi3Round s).a2 :=
      mul_halve _ _ _
    rw [hhalve]
    by_cases hz : s.a1 >>> 1 = 0#32
    · have hb := h.branch_not_taken (k := 7) rfl (r := (mulsi3Round s).put r) (m := m)
        (by simp [Cond.holds, mulsi3Round, hz])
      refine ⟨(mulsi3Round s).a2, (mulsi3Round s).a3, ?_⟩
      have hend : { s with
          a0 := (mulsi3Round s).a0 + (mulsi3Round s).a1 * (mulsi3Round s).a2
          a1 := 0#32
          a2 := (mulsi3Round s).a2
          a3 := (mulsi3Round s).a3 } = mulsi3Round s := by
        simp [mulsi3Round, hz]
      rw [hend]
      exact hround.trans hb
    · have hb := h.branch_taken (k := 7) (j := 2) rfl (r := (mulsi3Round s).put r) (m := m)
        (by simpa [Cond.holds, mulsi3Round] using hz) (by decide)
      have hlt : (mulsi3Round s).a1.toNat < n := by
        have hne : (s.a1 >>> 1).toNat ≠ 0 := fun h0 => hz (BitVec.eq_of_toNat_eq h0)
        rw [mulsi3Round]
        rw [BitVec.toNat_ushiftRight, Nat.shiftRight_eq_div_pow] at hne ⊢
        omega
      obtain ⟨x, b, hh⟩ := ih _ hlt (mulsi3Round s) rfl
      exact ⟨x, b, hround.trans (hb.trans hh)⟩

theorem mulsi3_run (h : CodeAt code base mulsi3) (s : Scratch) (hra : 4 ∣ s.ra.toNat) :
    ∃ s' : Scratch, Reaches code ⟨codePc base 0, s.put r, m⟩ ⟨s.ra, s'.put r, m⟩ ∧ s'.a0 = s.a0 * s.a1 := by
  have hstart := (h.mv (k := 0) rfl (r := s.put r) (m := m)).trans (h.li (k := 1) rfl)
  have hzero : (0#12).signExtend 32 = 0#32 := by decide
  simp only [Scratch.put_a0, Scratch.set_a2, Scratch.set_a0, hzero] at hstart
  obtain ⟨x, b, hloop⟩ := mulsi3_loop h { s with a0 := 0#32, a2 := s.a0 } (r := r) (m := m)
  rw [BitVec.zero_add] at hloop
  exact ⟨_, hstart.trans (hloop.trans (h.jr (k := 8) rfl hra)), BitVec.mul_comm _ _⟩

end Mul

end Npc
