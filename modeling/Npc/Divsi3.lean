import Npc.Mulsi3
import Npc.RestoringDivision

/-! The division routines of libgcc, `div.S`, with a `call` relaxed to a jal. All of them end in
`__udivsi3`, a restoring division. -/

namespace Npc

open Rv32i ByteMemory

/-- The text of `div.S` for rv32, whose routines fall into each other. -/
def divS : List Instr :=
  -- __divsi3
  [.bltz 10#5 (branchTo 0 24),
   .bltz 11#5 (branchTo 1 28),
   -- __udivsi3
   .mv 12#5 11#5,
   .mv 11#5 10#5,
   .li 10#5 (-1#12),
   .beqz 12#5 (branchTo 5 19),
   .li 13#5 1#12,
   .bgeu 12#5 11#5 (branchTo 7 12),
   -- .L1
   .blez 12#5 (branchTo 8 12),
   .shiftImm .slli 12#5 12#5 1#5,
   .shiftImm .slli 13#5 13#5 1#5,
   .bgtu 11#5 12#5 (branchTo 11 8),
   -- .L2
   .li 10#5 0#12,
   -- .L3
   .bltu 11#5 12#5 (branchTo 13 16),
   .op .sub 11#5 11#5 12#5,
   .op .or 10#5 10#5 13#5,
   -- .L4
   .shiftImm .srli 13#5 13#5 1#5,
   .shiftImm .srli 12#5 12#5 1#5,
   .bnez 13#5 (branchTo 18 13),
   -- .L5
   .ret,
   -- __umodsi3
   .mv 5#5 1#5,
   .call (jumpTo 21 2),
   .mv 10#5 11#5,
   .jr 5#5,
   -- .L10
   .neg 10#5 10#5,
   .bgtz 11#5 (branchTo 25 29),
   .neg 11#5 11#5,
   .j (jumpTo 27 2),
   -- .L11
   .neg 11#5 11#5,
   -- .L12
   .mv 5#5 1#5,
   .call (jumpTo 30 2),
   .neg 10#5 10#5,
   .jr 5#5,
   -- __modsi3
   .mv 5#5 1#5,
   .bltz 11#5 (branchTo 34 39),
   .bltz 10#5 (branchTo 35 41),
   -- .L30
   .call (jumpTo 36 2),
   .mv 10#5 11#5,
   .jr 5#5,
   -- .L31
   .neg 11#5 11#5,
   .bgez 10#5 (branchTo 40 36),
   -- .L32
   .neg 10#5 10#5,
   .call (jumpTo 42 2),
   .neg 10#5 11#5,
   .jr 5#5]

section Div

open RestoringDivision

variable {code : Mem 32} {base : Word} {r : RegFile} {m : Mem 32} {d k : Nat}

theorem toNat_shiftLeft_one {x : Word} {a : Nat} (h : x.toNat = a) (ha : 2 * a < 2 ^ 32) :
    (x <<< 1).toNat = 2 * a := by
  rw [BitVec.toNat_shiftLeft, h, Nat.shiftLeft_eq]
  omega

theorem toNat_shiftRight_one {x : Word} {a : Nat} (h : x.toNat = 2 * a) : (x >>> 1).toNat = a := by
  rw [BitVec.toNat_ushiftRight, h, Nat.shiftRight_eq_div_pow]
  omega

theorem toInt_nonpos_iff (x : Word) : x.toInt ≤ 0 ↔ x.toNat = 0 ∨ 2 ^ 31 ≤ x.toNat := by
  have hlt := x.isLt
  rw [BitVec.toInt_eq_toNat_cond]
  split_ifs <;> omega

/-- `.L1` moves the divisor up until the dividend is less than its double. -/
theorem udivsi3_align (h : CodeAt code base divS) (s : Scratch) (hd : 0 < d)
    (h2 : s.a2.toNat = d * 2 ^ k) (h3 : s.a3.toNat = 2 ^ k) :
    ∃ j x y, Reaches code ⟨codePc base 8, s.put r, m⟩ ⟨codePc base 12, { s with a2 := x, a3 := y }.put r, m⟩ ∧
      x.toNat = d * 2 ^ j ∧ y.toNat = 2 ^ j ∧ s.a1.toNat < d * 2 ^ (j + 1) := by
  induction hn : 2 ^ 32 - s.a2.toNat using Nat.strong_induction_on generalizing s k with
  | _ n ih =>
    have hlt := s.a2.isLt
    have hpos := Nat.two_pow_pos k
    have hle := Nat.le_mul_of_pos_left (2 ^ k) hd
    have hsucc : ∀ j, d * 2 ^ (j + 1) = 2 * (d * 2 ^ j) := fun j => by
      rw [Nat.pow_succ, ← Nat.mul_assoc, Nat.mul_comm]
    by_cases htop : 2 ^ 31 ≤ s.a2.toNat
    · have hb := h.branch_taken (k := 8) (j := 12) rfl (r := s.put r) (m := m)
        (by simpa [Cond.holds, toInt_nonpos_iff] using Or.inr htop) (by decide)
      have ha1 := s.a1.isLt
      exact ⟨k, s.a2, s.a3, hb, h2, h3, by rw [hsucc]; omega⟩
    · let s' : Scratch := { s with a2 := s.a2 <<< 1, a3 := s.a3 <<< 1 }
      have hx : s'.a2.toNat = d * 2 ^ (k + 1) := by
        rw [hsucc]
        exact toNat_shiftLeft_one h2 (by omega)
      have hy : s'.a3.toNat = 2 ^ (k + 1) := by
        rw [Nat.pow_succ, Nat.mul_comm]
        exact toNat_shiftLeft_one h3 (by omega)
      have hshift : Reaches code ⟨codePc base 8, s.put r, m⟩ ⟨codePc base 11, s'.put r, m⟩ := by
        have hb := h.branch_not_taken (k := 8) rfl (r := s.put r) (m := m)
          (by simp [Cond.holds, toInt_nonpos_iff]; omega)
        have hs := (h.shiftImm (k := 9) rfl (r := s.put r) (m := m)).trans (h.shiftImm (k := 10) rfl)
        simp only [ShiftImm.eval, Scratch.put_a2, Scratch.put_a3, Scratch.set_a2, Scratch.set_a3] at hs
        exact hb.trans hs
      by_cases hgt : s'.a2.toNat < s.a1.toNat
      · have hb := h.branch_taken (k := 11) (j := 8) rfl (r := s'.put r) (m := m)
          (decide_eq_true hgt) (by decide)
        obtain ⟨j, x, y, hr, hxj, hyj, hj⟩ := ih _ (by rw [hx, hsucc]; omega) s' hx hy rfl
        exact ⟨j, x, y, hshift.trans (hb.trans hr), hxj, hyj, hj⟩
      · have hb := h.branch_not_taken (k := 11) rfl (r := s'.put r) (m := m)
          (decide_eq_false hgt)
        have hk := hsucc k
        exact ⟨k + 1, _, _, hshift.trans hb, hx, hy, by rw [hsucc]; omega⟩

/-- One round of `.L3`, up to its last branch, decides bit `k` of the quotient. -/
theorem udivsi3_bit (h : CodeAt code base divS) (s : Scratch) {n : Nat}
    (h2 : s.a2.toNat = d * 2 ^ k) (h3 : s.a3.toNat = 2 ^ k)
    (hp : Partial n d (k + 1) s.a0.toNat s.a1.toNat) :
    ∃ q rem, Reaches code ⟨codePc base 13, s.put r, m⟩
        ⟨codePc base 18, { s with a0 := q, a1 := rem, a2 := s.a2 >>> 1, a3 := s.a3 >>> 1 }.put r, m⟩ ∧
      Partial n d k q.toNat rem.toNat := by
  have hshift : ∀ q rem, Reaches code ⟨codePc base 16, { s with a0 := q, a1 := rem }.put r, m⟩
      ⟨codePc base 18, { s with a0 := q, a1 := rem, a2 := s.a2 >>> 1, a3 := s.a3 >>> 1 }.put r, m⟩ := by
    intro q rem
    have hs := (h.shiftImm (k := 16) rfl (r := { s with a0 := q, a1 := rem }.put r) (m := m)).trans
      (h.shiftImm (k := 17) rfl)
    simp only [ShiftImm.eval, Scratch.put_a2, Scratch.put_a3, Scratch.set_a2, Scratch.set_a3] at hs
    exact hs
  by_cases hlt : s.a1.toNat < s.a2.toNat
  · have hb := h.branch_taken (k := 13) (j := 16) rfl (r := s.put r) (m := m) (decide_eq_true hlt) (by decide)
    exact ⟨s.a0, s.a1, hb.trans (hshift _ _), hp.skip (by omega)⟩
  · have hb := h.branch_not_taken (k := 13) rfl (r := s.put r) (m := m) (decide_eq_false hlt)
    have hs := (h.op (k := 14) rfl (r := s.put r) (m := m)).trans (h.op (k := 15) rfl)
    simp only [Op.eval, Scratch.put_a0, Scratch.put_a1, Scratch.put_a2, Scratch.put_a3, Scratch.set_a0,
      Scratch.set_a1] at hs
    have hsub := hp.subtract (by omega)
    have hq : (s.a0 ||| s.a3).toNat = s.a0.toNat + 2 ^ k := by
      rw [BitVec.toNat_or, h3, hp.or_eq]
    have hr : (s.a1 - s.a2).toNat = s.a1.toNat - d * 2 ^ k := by
      have ha1 := s.a1.isLt
      rw [BitVec.toNat_sub, h2]
      omega
    exact ⟨_, _, hb.trans (hs.trans (hshift _ _)), by rwa [hq, hr]⟩

/-- `.L3` finds the quotient from bit `k` down. -/
theorem udivsi3_divide (h : CodeAt code base divS) (s : Scratch) {n : Nat}
    (h2 : s.a2.toNat = d * 2 ^ k) (h3 : s.a3.toNat = 2 ^ k)
    (hp : Partial n d (k + 1) s.a0.toNat s.a1.toNat) :
    ∃ q rem x, Reaches code ⟨codePc base 13, s.put r, m⟩
        ⟨codePc base 19, { s with a0 := q, a1 := rem, a2 := x, a3 := 0#32 }.put r, m⟩ ∧
      q.toNat = n / d ∧ rem.toNat = n % d := by
  induction k generalizing s with
  | zero =>
    obtain ⟨q, rem, hbit, hp'⟩ := udivsi3_bit h s h2 h3 hp (r := r) (m := m)
    have hz : s.a3 >>> 1 = 0#32 := by
      have h1 : s.a3 = 1#32 := BitVec.eq_of_toNat_eq h3
      rw [h1]
      decide
    rw [hz] at hbit
    have hb := h.branch_not_taken (k := 18) rfl (m := m)
      (r := { s with a0 := q, a1 := rem, a2 := s.a2 >>> 1, a3 := 0#32 }.put r) (by simp [Cond.holds])
    exact ⟨q, rem, _, hbit.trans hb, hp'.done⟩
  | succ k ih =>
    obtain ⟨q, rem, hbit, hp'⟩ := udivsi3_bit h s h2 h3 hp (r := r) (m := m)
    have hx : (s.a2 >>> 1).toNat = d * 2 ^ k := by
      apply toNat_shiftRight_one
      rw [h2, Nat.pow_succ, ← Nat.mul_assoc, Nat.mul_comm]
    have hy : (s.a3 >>> 1).toNat = 2 ^ k := by
      apply toNat_shiftRight_one
      rw [h3, Nat.pow_succ, Nat.mul_comm]
    have hpos := Nat.two_pow_pos k
    have hne : s.a3 >>> 1 ≠ 0#32 := fun h0 => by
      rw [h0] at hy
      exact absurd hy.symm (by simp)
    have hb := h.branch_taken (k := 18) (j := 13) rfl (m := m)
      (r := { s with a0 := q, a1 := rem, a2 := s.a2 >>> 1, a3 := s.a3 >>> 1 }.put r)
      (by simpa [Cond.holds] using hne) (by decide)
    obtain ⟨q', rem', x, hr, hq⟩ := ih { s with a0 := q, a1 := rem, a2 := s.a2 >>> 1, a3 := s.a3 >>> 1 } hx hy hp'
    exact ⟨q', rem', x, hbit.trans (hb.trans hr), hq⟩

/-- The quotient DIVU leaves. -/
def divu (n d : Word) : Word := if d = 0#32 then -1#32 else n / d

/-- From the entry of `__udivsi3` to its `ret`. -/
theorem udivsi3_run (h : CodeAt code base divS) (s : Scratch) :
    ∃ x y, Reaches code ⟨codePc base 2, s.put r, m⟩
      ⟨codePc base 19, { s with a0 := divu s.a0 s.a1, a1 := s.a0 % s.a1, a2 := x, a3 := y }.put r, m⟩ := by
  have hminus : (-1#12).signExtend 32 = -1#32 := by decide
  have hone : (1#12).signExtend 32 = 1#32 := by decide
  have hzero : (0#12).signExtend 32 = 0#32 := by decide
  have hstart := ((h.mv (k := 2) rfl (r := s.put r) (m := m)).trans (h.mv (k := 3) rfl)).trans
    (h.li (k := 4) rfl)
  simp only [Scratch.put_a0, Scratch.put_a1, Scratch.set_a0, Scratch.set_a1, Scratch.set_a2, hminus] at hstart
  by_cases hd : s.a1 = 0#32
  · have hb := h.branch_taken (k := 5) (j := 19) rfl (m := m)
      (r := { s with a0 := -1#32, a1 := s.a0, a2 := s.a1 }.put r) (by simp [Cond.holds, hd]) (by decide)
    refine ⟨s.a1, s.a3, ?_⟩
    have hrem : s.a0 % s.a1 = s.a0 := by rw [hd, BitVec.umod_zero]
    rw [divu, if_pos hd, hrem]
    exact hstart.trans hb
  · have hpos : 0 < s.a1.toNat := by
      by_contra h0
      exact hd (BitVec.eq_of_toNat_eq (by simpa using h0))
    let s' : Scratch := { s with a0 := -1#32, a1 := s.a0, a2 := s.a1, a3 := 1#32 }
    have hone' : Reaches code ⟨codePc base 5, { s with a0 := -1#32, a1 := s.a0, a2 := s.a1 }.put r, m⟩
        ⟨codePc base 7, s'.put r, m⟩ := by
      have hb := h.branch_not_taken (k := 5) rfl (m := m)
        (r := { s with a0 := -1#32, a1 := s.a0, a2 := s.a1 }.put r) (by simpa [Cond.holds] using hd)
      have hl := h.li (k := 6) rfl (r := { s with a0 := -1#32, a1 := s.a0, a2 := s.a1 }.put r) (m := m)
      simp only [Scratch.set_a3, hone] at hl
      exact hb.trans hl
    -- the shifted divisor, whichever way `.L2` is reached
    obtain ⟨j, x, y, hL2, hx, hy, hj⟩ : ∃ j x y, Reaches code ⟨codePc base 7, s'.put r, m⟩
        ⟨codePc base 12, { s' with a2 := x, a3 := y }.put r, m⟩ ∧
        x.toNat = s.a1.toNat * 2 ^ j ∧ y.toNat = 2 ^ j ∧ s.a0.toNat < s.a1.toNat * 2 ^ (j + 1) := by
      by_cases hle : s.a0.toNat ≤ s.a1.toNat
      · have hb := h.branch_taken (k := 7) (j := 12) rfl (r := s'.put r) (m := m) (decide_eq_true hle) (by decide)
        exact ⟨0, s.a1, 1#32, hb, by simp, rfl, by omega⟩
      · have hb := h.branch_not_taken (k := 7) rfl (r := s'.put r) (m := m) (decide_eq_false hle)
        obtain ⟨j, x, y, hr, hxj, hyj, hj⟩ :=
          udivsi3_align h s' hpos (k := 0) (by simp [s']) rfl (r := r) (m := m)
        exact ⟨j, x, y, hb.trans hr, hxj, hyj, hj⟩
    have hl := h.li (k := 12) rfl (r := { s' with a2 := x, a3 := y }.put r) (m := m)
    simp only [Scratch.set_a0, hzero] at hl
    obtain ⟨q, rem, x', hdiv, hq, hrem⟩ := udivsi3_divide h { s' with a0 := 0#32, a2 := x, a3 := y }
      hx hy (start hj) (r := r) (m := m)
    have hq' : q = divu s.a0 s.a1 := by
      rw [divu, if_neg hd]
      exact BitVec.eq_of_toNat_eq (by rw [hq, BitVec.toNat_udiv])
    have hrem' : rem = s.a0 % s.a1 := BitVec.eq_of_toNat_eq (by rw [hrem, BitVec.toNat_umod])
    rw [← hq', ← hrem']
    exact ⟨x', 0#32, hstart.trans (hone'.trans (hL2.trans (hl.trans hdiv)))⟩

theorem udivsi3_ret (h : CodeAt code base divS) (s : Scratch) (hra : 4 ∣ s.ra.toNat) :
    ∃ x y, Reaches code ⟨codePc base 2, s.put r, m⟩
      ⟨s.ra, { s with a0 := divu s.a0 s.a1, a1 := s.a0 % s.a1, a2 := x, a3 := y }.put r, m⟩ := by
  obtain ⟨x, y, hrun⟩ := udivsi3_run h s (r := r) (m := m)
  exact ⟨x, y, hrun.trans (h.jr (k := 19) rfl hra)⟩

/-- A `call` of `__udivsi3` from place `k`. -/
theorem udivsi3_call (h : CodeAt code base divS) (s : Scratch) {k : Nat}
    (hk : divS[k]? = some (.call (jumpTo k 2)))
    (hj : BitVec.ofNat 32 (4 * k) + (jumpTo k 2 ++ 0#1).signExtend 32 = BitVec.ofNat 32 (4 * 2)) :
    ∃ x y, Reaches code ⟨codePc base k, s.put r, m⟩
      ⟨codePc base (k + 1), { s with
        ra := codePc base (k + 1)
        a0 := divu s.a0 s.a1
        a1 := s.a0 % s.a1
        a2 := x
        a3 := y }.put r, m⟩ := by
  have hcall := h.jal hk hj (r := s.put r) (m := m)
  rw [Scratch.set_ra] at hcall
  obtain ⟨x, y, hret⟩ := udivsi3_ret h { s with ra := codePc base (k + 1) } (codePc_aligned _ h.aligned)
    (r := r) (m := m)
  exact ⟨x, y, hcall.trans hret⟩

/-- From a `call` of `__udivsi3` at place `k`, one instruction that puts `g` of the quotient and the
remainder into a0, and the return by t0. -/
theorem udivsi3_tail (h : CodeAt code base divS) (s : Scratch) {k : Nat}
    (hk : divS[k]? = some (.call (jumpTo k 2)))
    (hj : BitVec.ofNat 32 (4 * k) + (jumpTo k 2 ++ 0#1).signExtend 32 = BitVec.ofNat 32 (4 * 2))
    (g : Word → Word → Word)
    (hg : ∀ s : Scratch, Reaches code ⟨codePc base (k + 1), s.put r, m⟩
      ⟨codePc base (k + 2), { s with a0 := g s.a0 s.a1 }.put r, m⟩)
    (hjr : divS[k + 2]? = some (.jr 5#5)) (ht0 : 4 ∣ s.t0.toNat) :
    ∃ s' : Scratch, Reaches code ⟨codePc base k, s.put r, m⟩ ⟨s.t0, s'.put r, m⟩ ∧
      s'.a0 = g (divu s.a0 s.a1) (s.a0 % s.a1) := by
  obtain ⟨x, y, hcall⟩ := udivsi3_call h s hk hj (r := r) (m := m)
  let s' : Scratch := ⟨codePc base (k + 1), s.t0, divu s.a0 s.a1, s.a0 % s.a1, x, y⟩
  have hret := h.jr hjr (r := { s' with a0 := g s'.a0 s'.a1 }.put r) (m := m) ht0
  exact ⟨_, hcall.trans ((hg s').trans hret), rfl⟩

theorem mv_remainder (h : CodeAt code base divS) {k : Nat} (hk : divS[k]? = some (.mv 10#5 11#5))
    (s : Scratch) : Reaches code ⟨codePc base k, s.put r, m⟩
      ⟨codePc base (k + 1), { s with a0 := s.a1 }.put r, m⟩ := by
  have hmove := h.mv hk (r := s.put r) (m := m)
  rwa [Scratch.set_a0, Scratch.put_a1] at hmove

theorem umodsi3_run (h : CodeAt code base divS) (s : Scratch) (hra : 4 ∣ s.ra.toNat) :
    ∃ s' : Scratch, Reaches code ⟨codePc base 20, s.put r, m⟩ ⟨s.ra, s'.put r, m⟩ ∧ s'.a0 = s.a0 % s.a1 := by
  have hsave := h.mv (k := 20) rfl (r := s.put r) (m := m)
  simp only [Scratch.put_ra, Scratch.set_t0] at hsave
  obtain ⟨s', hr, ha⟩ := udivsi3_tail h { s with t0 := s.ra } (k := 21) rfl (by decide) (fun _ rem => rem)
    (mv_remainder h rfl) rfl hra (r := r) (m := m)
  exact ⟨s', hsave.trans hr, ha⟩

/-- `.L12`: divide, then negate the quotient. -/
theorem divsi3_negate (h : CodeAt code base divS) (s : Scratch) (hra : 4 ∣ s.ra.toNat) :
    ∃ s' : Scratch, Reaches code ⟨codePc base 29, s.put r, m⟩ ⟨s.ra, s'.put r, m⟩ ∧ s'.a0 = -divu s.a0 s.a1 := by
  have hsave := h.mv (k := 29) rfl (r := s.put r) (m := m)
  simp only [Scratch.put_ra, Scratch.set_t0] at hsave
  have hneg : ∀ s : Scratch, Reaches code ⟨codePc base 31, s.put r, m⟩
      ⟨codePc base 32, { s with a0 := -s.a0 }.put r, m⟩ := by
    intro s
    have hh := h.neg (k := 31) rfl (r := s.put r) (m := m)
    rwa [Scratch.set_a0, Scratch.put_a0] at hh
  obtain ⟨s', hr, ha⟩ := udivsi3_tail h { s with t0 := s.ra } (k := 30) rfl (by decide) (fun q _ => -q)
    hneg rfl hra (r := r) (m := m)
  exact ⟨s', hsave.trans hr, ha⟩

/-- The quotient DIV leaves. -/
def divs (n d : Word) : Word := if d = 0#32 then -1#32 else n.sdiv d

theorem divs_eq (n d : Word) : divs n d =
    if n.toInt < 0 then if 0 < d.toInt then -divu (-n) d else divu (-n) (-d)
    else if d.toInt < 0 then -divu n (-d) else divu n d := by
  have hneg : ∀ x : Word, x.toInt < 0 ↔ x.msb = true := fun x => by simp [BitVec.msb_eq_toInt]
  by_cases hd : d = 0#32
  · subst hd
    simp [divs, divu]
  · have hd' : -d ≠ 0#32 := by simpa using hd
    have hpos : 0 < d.toInt ↔ d.msb = false := by
      have hne : d.toInt ≠ 0 := fun h0 => hd (BitVec.eq_of_toInt_eq (by simpa using h0))
      rw [← Bool.not_eq_true, ← hneg]
      omega
    rw [divs, if_neg hd, BitVec.sdiv]
    simp only [hneg, hpos, divu, if_neg hd, if_neg hd']
    cases n.msb <;> cases d.msb <;> rfl

theorem divsi3_run (h : CodeAt code base divS) (s : Scratch) (hra : 4 ∣ s.ra.toNat) :
    ∃ s' : Scratch, Reaches code ⟨codePc base 0, s.put r, m⟩ ⟨s.ra, s'.put r, m⟩ ∧ s'.a0 = divs s.a0 s.a1 := by
  rw [divs_eq]
  by_cases hn : s.a0.toInt < 0
  · have hb := h.branch_taken (k := 0) (j := 24) rfl (r := s.put r) (m := m)
      (by simpa [Cond.holds] using hn) (by decide)
    have hneg := h.neg (k := 24) rfl (r := s.put r) (m := m)
    rw [Scratch.set_a0, Scratch.put_a0] at hneg
    rw [if_pos hn]
    by_cases hd : 0 < s.a1.toInt
    · have hb' := h.branch_taken (k := 25) (j := 29) rfl (r := { s with a0 := -s.a0 }.put r) (m := m)
        (by simpa [Cond.holds] using hd) (by decide)
      obtain ⟨s', hr, ha⟩ := divsi3_negate h { s with a0 := -s.a0 } hra (r := r) (m := m)
      exact ⟨s', hb.trans (hneg.trans (hb'.trans hr)), by rw [ha, if_pos hd]⟩
    · have hb' := h.branch_not_taken (k := 25) rfl (r := { s with a0 := -s.a0 }.put r) (m := m)
        (by simpa [Cond.holds] using hd)
      have hneg' := h.neg (k := 26) rfl (r := { s with a0 := -s.a0 }.put r) (m := m)
      rw [Scratch.set_a1, Scratch.put_a1] at hneg'
      have hjump := h.jal (k := 27) (j := 2) rfl (r := { s with a0 := -s.a0, a1 := -s.a1 }.put r) (m := m)
        (by decide)
      rw [RegFile.set_zero] at hjump
      obtain ⟨x, y, hr⟩ := udivsi3_ret h { s with a0 := -s.a0, a1 := -s.a1 } hra (r := r) (m := m)
      exact ⟨_, hb.trans (hneg.trans (hb'.trans (hneg'.trans (hjump.trans hr)))), by rw [if_neg hd]⟩
  · have hb := h.branch_not_taken (k := 0) rfl (r := s.put r) (m := m) (by simpa [Cond.holds] using hn)
    rw [if_neg hn]
    by_cases hd : s.a1.toInt < 0
    · have hb' := h.branch_taken (k := 1) (j := 28) rfl (r := s.put r) (m := m)
        (by simpa [Cond.holds] using hd) (by decide)
      have hneg := h.neg (k := 28) rfl (r := s.put r) (m := m)
      rw [Scratch.set_a1, Scratch.put_a1] at hneg
      obtain ⟨s', hr, ha⟩ := divsi3_negate h { s with a1 := -s.a1 } hra (r := r) (m := m)
      exact ⟨s', hb.trans (hb'.trans (hneg.trans hr)), by rw [ha, if_pos hd]⟩
    · have hb' := h.branch_not_taken (k := 1) rfl (r := s.put r) (m := m) (by simpa [Cond.holds] using hd)
      obtain ⟨x, y, hr⟩ := udivsi3_ret h s hra (r := r) (m := m)
      exact ⟨_, hb.trans (hb'.trans hr), by rw [if_neg hd]⟩

theorem srem_eq (n d : Word) : n.srem d =
    if n.toInt < 0 then if d.toInt < 0 then -((-n) % (-d)) else -((-n) % d)
    else if d.toInt < 0 then n % (-d) else n % d := by
  have hneg : ∀ x : Word, x.toInt < 0 ↔ x.msb = true := fun x => by simp [BitVec.msb_eq_toInt]
  rw [BitVec.srem]
  simp only [hneg]
  cases n.msb <;> cases d.msb <;> rfl

/-- `.L30`: the remainder of a dividend that is not negative. -/
theorem modsi3_positive (h : CodeAt code base divS) (s : Scratch) (ht0 : 4 ∣ s.t0.toNat) :
    ∃ s' : Scratch, Reaches code ⟨codePc base 36, s.put r, m⟩ ⟨s.t0, s'.put r, m⟩ ∧ s'.a0 = s.a0 % s.a1 :=
  udivsi3_tail h s rfl (by decide) (fun _ rem => rem) (mv_remainder h rfl) rfl ht0

/-- `.L32`: that of a negative one. -/
theorem modsi3_negative (h : CodeAt code base divS) (s : Scratch) (ht0 : 4 ∣ s.t0.toNat) :
    ∃ s' : Scratch, Reaches code ⟨codePc base 41, s.put r, m⟩ ⟨s.t0, s'.put r, m⟩ ∧
      s'.a0 = -(-s.a0 % s.a1) := by
  have hneg := h.neg (k := 41) rfl (r := s.put r) (m := m)
  rw [Scratch.set_a0, Scratch.put_a0] at hneg
  have hneg' : ∀ s : Scratch, Reaches code ⟨codePc base 43, s.put r, m⟩
      ⟨codePc base 44, { s with a0 := -s.a1 }.put r, m⟩ := by
    intro s
    have hh := h.neg (k := 43) rfl (r := s.put r) (m := m)
    rwa [Scratch.set_a0, Scratch.put_a1] at hh
  obtain ⟨s', hr, ha⟩ := udivsi3_tail h { s with a0 := -s.a0 } (k := 42) rfl (by decide) (fun _ rem => -rem)
    hneg' rfl ht0 (r := r) (m := m)
  exact ⟨s', hneg.trans hr, ha⟩

theorem modsi3_run (h : CodeAt code base divS) (s : Scratch) (hra : 4 ∣ s.ra.toNat) :
    ∃ s' : Scratch, Reaches code ⟨codePc base 33, s.put r, m⟩ ⟨s.ra, s'.put r, m⟩ ∧ s'.a0 = s.a0.srem s.a1 := by
  have hsave := h.mv (k := 33) rfl (r := s.put r) (m := m)
  simp only [Scratch.put_ra, Scratch.set_t0] at hsave
  rw [srem_eq]
  by_cases hd : s.a1.toInt < 0
  · have hb := h.branch_taken (k := 34) (j := 39) rfl (r := { s with t0 := s.ra }.put r) (m := m)
      (by simpa [Cond.holds] using hd) (by decide)
    have hneg := h.neg (k := 39) rfl (r := { s with t0 := s.ra }.put r) (m := m)
    rw [Scratch.set_a1, Scratch.put_a1] at hneg
    by_cases hn : s.a0.toInt < 0
    · have hb' := h.branch_not_taken (k := 40) rfl (r := { s with t0 := s.ra, a1 := -s.a1 }.put r) (m := m)
        (by simpa [Cond.holds] using hn)
      obtain ⟨s', hr, ha⟩ := modsi3_negative h { s with t0 := s.ra, a1 := -s.a1 } hra (r := r) (m := m)
      exact ⟨s', hsave.trans (hb.trans (hneg.trans (hb'.trans hr))), by rw [ha, if_pos hn, if_pos hd]⟩
    · have hb' := h.branch_taken (k := 40) (j := 36) rfl (r := { s with t0 := s.ra, a1 := -s.a1 }.put r) (m := m)
        (by simpa [Cond.holds] using hn) (by decide)
      obtain ⟨s', hr, ha⟩ := modsi3_positive h { s with t0 := s.ra, a1 := -s.a1 } hra (r := r) (m := m)
      exact ⟨s', hsave.trans (hb.trans (hneg.trans (hb'.trans hr))), by rw [ha, if_neg hn, if_pos hd]⟩
  · have hb := h.branch_not_taken (k := 34) rfl (r := { s with t0 := s.ra }.put r) (m := m)
      (by simpa [Cond.holds] using hd)
    by_cases hn : s.a0.toInt < 0
    · have hb' := h.branch_taken (k := 35) (j := 41) rfl (r := { s with t0 := s.ra }.put r) (m := m)
        (by simpa [Cond.holds] using hn) (by decide)
      obtain ⟨s', hr, ha⟩ := modsi3_negative h { s with t0 := s.ra } hra (r := r) (m := m)
      exact ⟨s', hsave.trans (hb.trans (hb'.trans hr)), by rw [ha, if_pos hn, if_neg hd]⟩
    · have hb' := h.branch_not_taken (k := 35) rfl (r := { s with t0 := s.ra }.put r) (m := m)
        (by simpa [Cond.holds] using hn)
      obtain ⟨s', hr, ha⟩ := modsi3_positive h { s with t0 := s.ra } hra (r := r) (m := m)
      exact ⟨s', hsave.trans (hb.trans (hb'.trans hr)), by rw [ha, if_neg hn, if_neg hd]⟩

end Div

end Npc
