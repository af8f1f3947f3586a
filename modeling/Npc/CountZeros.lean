import Npc.BinarySearchZeros

/-! Counting zero bits in klib's `int64.c`, which the compiler's `__builtin_clz` and
`__builtin_ctz` call on a core without the instructions. -/

namespace Npc

abbrev SuInt := BitVec 32
abbrev DuInt := BitVec 64

theorem toNat_widen (x : SuInt) : (x.setWidth 64).toNat = x.toNat := by
  rw [BitVec.toNat_setWidth]
  omega

structure Udwords where
  high : SuInt
  low : SuInt

namespace Udwords

def all (x : Udwords) : DuInt := x.high ++ x.low

def ofAll (a : DuInt) : Udwords := ⟨a.extractLsb' 32 32, a.extractLsb' 0 32⟩

theorem getLsbD_all (x : Udwords) (i : Nat) :
    x.all.getLsbD i = if i < 32 then x.low.getLsbD i else x.high.getLsbD (i - 32) := by
  rw [all, BitVec.getLsbD_append]

@[simp] theorem all_ofAll (a : DuInt) : (ofAll a).all = a := by
  apply BitVec.eq_of_getLsbD_eq
  intro i hi
  simp only [getLsbD_all, ofAll, BitVec.getLsbD_extractLsb']
  by_cases h : i < 32
  · simp [h]
  · simp [h, show i - 32 < 32 by omega, show 32 + (i - 32) = i by omega]

@[simp] theorem ofAll_all (x : Udwords) : ofAll x.all = x := by
  have hhigh : x.all.extractLsb' 32 32 = x.high := by
    apply BitVec.eq_of_getLsbD_eq
    intro i hi
    rw [BitVec.getLsbD_extractLsb', getLsbD_all]
    simp [hi]
  have hlow : x.all.extractLsb' 0 32 = x.low := by
    apply BitVec.eq_of_getLsbD_eq
    intro i hi
    rw [BitVec.getLsbD_extractLsb', getLsbD_all]
    simp [hi]
  rw [ofAll, hhigh, hlow]

theorem toNat_all (x : Udwords) : x.all.toNat = x.high.toNat * 2 ^ 32 + x.low.toNat := by
  rw [all, BitVec.toNat_append, ← Nat.shiftLeft_add_eq_or_of_lt x.low.isLt, Nat.shiftLeft_eq]

end Udwords

/-- The test `(x & mask) == 0` as the C value 1 or 0. -/
def isZero (x mask : SuInt) : SuInt := if x &&& mask = 0#32 then 1#32 else 0#32

/-- One of the four steps of `__clzsi2`, on `x` and `r`. -/
def clzStep (mask : SuInt) (j : Nat) (p : SuInt × SuInt) : SuInt × SuInt :=
  let t := isZero p.1 mask <<< j
  (p.1 >>> ((1#32 <<< j) - t), p.2 + t)

def clzsi2 (a : SuInt) : SuInt :=
  let p := clzStep 0xC#32 1 (clzStep 0xF0#32 2 (clzStep 0xFF00#32 3 (clzStep 0xFFFF0000#32 4 (a, 0#32))))
  p.2 + ((2#32 - p.1) &&& -isZero p.1 2#32)

/-- One of the four steps of `__ctzsi2`, on `x` and `r`. -/
def ctzStep (mask : SuInt) (j : Nat) (p : SuInt × SuInt) : SuInt × SuInt :=
  let t := isZero p.1 mask <<< j
  (p.1 >>> t, p.2 + t)

def ctzsi2 (a : SuInt) : SuInt :=
  let p := ctzStep 0x3#32 1 (ctzStep 0xF#32 2 (ctzStep 0xFF#32 3 (ctzStep 0xFFFF#32 4 (a, 0#32))))
  let x := p.1 &&& 3#32
  p.2 + ((2#32 - (x >>> 1)) &&& -isZero x 1#32)

def ctzdi2 (a : DuInt) : SuInt :=
  let x := Udwords.ofAll a
  let f := -(if x.low = 0#32 then 1#32 else 0#32)
  ctzsi2 ((x.high &&& f) ||| (x.low &&& ~~~f)) + (f &&& 32#32)

def clzdi2 (a : DuInt) : SuInt :=
  let x := Udwords.ofAll a
  let f := -(if x.high = 0#32 then 1#32 else 0#32)
  clzsi2 ((x.high &&& ~~~f) ||| (x.low &&& f)) + (f &&& 32#32)

open BinarySearchZeros

theorem and_upper_eq_zero_iff {x mask : SuInt} {m : Nat} (hmask : mask.toNat = (2 ^ m - 1) * 2 ^ m)
    (hx : x.toNat < 2 ^ (m + m)) : x &&& mask = 0#32 ↔ x.toNat < 2 ^ m := by
  have hand : (x &&& mask).toNat = x.toNat / 2 ^ m * 2 ^ m := by
    rw [BitVec.toNat_and, hmask]
    apply Nat.eq_of_testBit_eq
    intro i
    simp only [Nat.testBit_and, Nat.testBit_mul_two_pow, Nat.testBit_div_two_pow, Nat.testBit_two_pow_sub_one]
    by_cases hi : m ≤ i
    · by_cases hi' : i - m < m
      · simp [hi, hi', Nat.sub_add_cancel hi]
      · have hh : x.toNat.testBit i = false :=
          Nat.testBit_lt_two_pow (hx.trans_le (Nat.pow_le_pow_right (by omega) (by omega)))
        simp [hi, hh, Nat.sub_add_cancel hi]
    · simp [hi]
  rw [← BitVec.toNat_inj, hand, BitVec.toNat_zero, Nat.mul_eq_zero, Nat.div_eq_zero_iff]
  have hpos := Nat.two_pow_pos m
  omega

theorem and_lower_eq_zero_iff {x mask : SuInt} {m : Nat} (hmask : mask.toNat = 2 ^ m - 1) :
    x &&& mask = 0#32 ↔ x.toNat % 2 ^ m = 0 := by
  rw [← BitVec.toNat_inj, BitVec.toNat_and, hmask, Nat.and_two_pow_sub_one_eq_mod, BitVec.toNat_zero]

theorem toNat_one_shiftLeft {j : Nat} (hj : j < 5) : (1#32 <<< j).toNat = 2 ^ j := by
  rw [BitVec.toNat_shiftLeft, BitVec.toNat_ofNat, Nat.shiftLeft_eq, Nat.mod_eq_of_lt]
  all_goals
    have hpow := Nat.pow_lt_pow_right (a := 2) (by omega) (show j < 32 by omega)
    omega

theorem clzStep_leading {a j : Nat} {p : SuInt × SuInt} (mask : SuInt) (hj : j < 5)
    (hmask : mask.toNat = (2 ^ 2 ^ j - 1) * 2 ^ 2 ^ j) (h : Leading 32 a (j + 1) p.2.toNat p.1.toNat) :
    Leading 32 a j (clzStep mask j p).2.toNat (clzStep mask j p).1.toNat := by
  have hbound := h.bound
  have hfits := h.fits
  rw [Nat.pow_succ, Nat.mul_two] at hbound hfits
  have hzero := and_upper_eq_zero_iff hmask hbound
  have ht := toNat_one_shiftLeft hj
  simp only [clzStep, isZero]
  by_cases hx : p.1.toNat < 2 ^ 2 ^ j
  · rw [if_pos (hzero.mpr hx), BitVec.sub_self, BitVec.toNat_add, ht, Nat.mod_eq_of_lt (by omega)]
    simpa using h.lower hx
  · rw [if_neg (fun hz => hx (hzero.mp hz)), BitVec.zero_shiftLeft, BitVec.sub_zero, BitVec.add_zero,
      BitVec.ushiftRight_eq', BitVec.toNat_ushiftRight, ht, Nat.shiftRight_eq_div_pow]
    exact h.upper (by omega)

theorem ctzStep_trailing {a j : Nat} {p : SuInt × SuInt} (mask : SuInt) (hj : j < 5)
    (hmask : mask.toNat = 2 ^ 2 ^ j - 1) (hr : p.2.toNat + 2 ^ (j + 1) ≤ 32)
    (h : Trailing a (j + 1) p.2.toNat p.1.toNat) :
    (ctzStep mask j p).2.toNat + 2 ^ j ≤ 32 ∧
      Trailing a j (ctzStep mask j p).2.toNat (ctzStep mask j p).1.toNat := by
  rw [Nat.pow_succ, Nat.mul_two] at hr
  have hzero := and_lower_eq_zero_iff (x := p.1) hmask
  have ht := toNat_one_shiftLeft hj
  simp only [ctzStep, isZero]
  by_cases hx : p.1.toNat % 2 ^ 2 ^ j = 0
  · rw [if_pos (hzero.mpr hx), BitVec.toNat_add, ht, Nat.mod_eq_of_lt (by omega), BitVec.ushiftRight_eq',
      BitVec.toNat_ushiftRight, ht, Nat.shiftRight_eq_div_pow]
    exact ⟨by omega, h.upper hx⟩
  · rw [if_neg (fun hz => hx (hzero.mp hz)), BitVec.zero_shiftLeft, BitVec.add_zero]
    exact ⟨by omega, by simpa using h.lower hx⟩

/-- What `__clzsi2` returns for a window of two bits. -/
theorem clz_last {a r x : SuInt} (h : Leading 32 a.toNat 1 r.toNat x.toNat) :
    r + ((2#32 - x) &&& -isZero x 2#32) = a.clz := by
  have hfits := h.fits
  have hbound := h.bound
  have hpos := h.pos
  apply BitVec.eq_of_toNat_eq
  have hx : x = 1#32 ∨ x = 2#32 ∨ x = 3#32 := by bv_omega
  rcases hx with rfl | rfl | rfl
  · rw [(h.lower (by decide)).clz, show (2#32 - 1#32) &&& -isZero 1#32 2#32 = 1#32 by decide, BitVec.toNat_add]
    exact Nat.mod_eq_of_lt (by simp; omega)
  · rw [(h.upper (by decide)).clz, show (2#32 - 2#32) &&& -isZero 2#32 2#32 = 0#32 by decide, BitVec.add_zero]
  · rw [(h.upper (by decide)).clz, show (2#32 - 3#32) &&& -isZero 3#32 2#32 = 0#32 by decide, BitVec.add_zero]

/-- What `__ctzsi2` returns for a window of two bits. -/
theorem ctz_last {a r x : SuInt} (hr : r.toNat + 2 ≤ 32) (h : Trailing a.toNat 1 r.toNat x.toNat) :
    r + ((2#32 - ((x &&& 3#32) >>> 1)) &&& -isZero (x &&& 3#32) 1#32) = a.ctz := by
  have hfound := h.found
  have hlow : (x &&& 3#32).toNat = x.toNat % 4 :=
    (BitVec.toNat_and _ _).trans (Nat.and_two_pow_sub_one_eq_mod x.toNat 2)
  apply BitVec.eq_of_toNat_eq
  have hx : x &&& 3#32 = 1#32 ∨ x &&& 3#32 = 2#32 ∨ x &&& 3#32 = 3#32 := by bv_omega
  rcases hx with hx | hx | hx <;> rw [hx] at hlow ⊢
  · have hodd : x.toNat % 2 ^ 2 ^ 0 ≠ 0 := by
      rw [BitVec.toNat_ofNat] at hlow
      omega
    rw [(h.lower hodd).ctz, show (2#32 - (1#32 >>> 1)) &&& -isZero 1#32 1#32 = 0#32 by decide, BitVec.add_zero]
  · have heven : x.toNat % 2 ^ 2 ^ 0 = 0 := by
      rw [BitVec.toNat_ofNat] at hlow
      omega
    rw [(h.upper heven).ctz, show (2#32 - (2#32 >>> 1)) &&& -isZero 2#32 1#32 = 1#32 by decide, BitVec.toNat_add]
    exact Nat.mod_eq_of_lt (by simp; omega)
  · have hodd : x.toNat % 2 ^ 2 ^ 0 ≠ 0 := by
      rw [BitVec.toNat_ofNat] at hlow
      omega
    rw [(h.lower hodd).ctz, show (2#32 - (3#32 >>> 1)) &&& -isZero 3#32 1#32 = 0#32 by decide, BitVec.add_zero]

theorem clzsi2_eq (a : SuInt) : clzsi2 a = a.clz := by
  by_cases ha : a = 0#32
  · subst ha
    exact BitVec.eq_of_toNat_eq toNat_clz_zero.symm
  have hpos : 0 < a.toNat := Nat.pos_of_ne_zero fun hz => ha (BitVec.eq_of_toNat_eq hz)
  have h₅ : Leading 32 a.toNat 5 (0#32).toNat a.toNat := ⟨by decide, by simp, a.isLt, hpos⟩
  have h₄ := clzStep_leading 0xFFFF0000#32 (p := (a, 0#32)) (by decide) (by decide) h₅
  have h₃ := clzStep_leading 0xFF00#32 (by decide) (by decide) h₄
  have h₂ := clzStep_leading 0xF0#32 (by decide) (by decide) h₃
  exact clz_last (clzStep_leading 0xC#32 (by decide) (by decide) h₂)

theorem ctzsi2_eq (a : SuInt) : ctzsi2 a = a.ctz := by
  by_cases ha : a = 0#32
  · subst ha
    exact BitVec.eq_of_toNat_eq toNat_ctz_zero.symm
  have hne : a.toNat ≠ 0 := fun hz => ha (BitVec.eq_of_toNat_eq hz)
  have h₅ : Trailing a.toNat 5 (0#32).toNat a.toNat :=
    ⟨by simp, Nat.one_dvd _, fun hz => hne ((Nat.mod_eq_of_lt a.isLt).symm.trans hz)⟩
  obtain ⟨hr₄, h₄⟩ := ctzStep_trailing 0xFFFF#32 (p := (a, 0#32)) (by decide) (by decide) (by simp) h₅
  obtain ⟨hr₃, h₃⟩ := ctzStep_trailing 0xFF#32 (by decide) (by decide) hr₄ h₄
  obtain ⟨hr₂, h₂⟩ := ctzStep_trailing 0xF#32 (by decide) (by decide) hr₃ h₃
  obtain ⟨hr₁, h₁⟩ := ctzStep_trailing 0x3#32 (by decide) (by decide) hr₂ h₂
  exact ctz_last hr₁ h₁

theorem Udwords.toNat_ofAll (a : DuInt) :
    (ofAll a).high.toNat = a.toNat / 2 ^ 32 ∧ (ofAll a).low.toNat = a.toNat % 2 ^ 32 := by
  have ha := a.isLt
  simp only [ofAll, BitVec.extractLsb'_toNat, Nat.shiftRight_eq_div_pow, Nat.pow_zero, Nat.div_one, and_true]
  exact Nat.mod_eq_of_lt (by omega)

/-- The choice of a word by a mask. -/
theorem select_word (x y : SuInt) (c : Prop) [Decidable c] :
    (x &&& -(if c then 1#32 else 0#32)) ||| (y &&& ~~~(-(if c then 1#32 else 0#32))) = if c then x else y := by
  by_cases hc : c
  · simp only [hc, if_true, show -1#32 = BitVec.allOnes 32 by decide, BitVec.and_allOnes, BitVec.not_allOnes,
      BitVec.and_zero, BitVec.or_zero]
  · simp only [hc, if_false, BitVec.neg_zero, BitVec.and_zero, BitVec.not_zero, BitVec.and_allOnes,
      BitVec.zero_or]

theorem select_addend (c : Prop) [Decidable c] :
    -(if c then 1#32 else 0#32) &&& 32#32 = if c then 32#32 else 0#32 := by
  by_cases hc : c <;> simp [hc]

theorem clzdi2_eq (a : DuInt) : (clzdi2 a).toNat = a.clz.toNat := by
  obtain ⟨hhigh, hlow⟩ := Udwords.toNat_ofAll a
  simp only [clzdi2, clzsi2_eq, BitVec.or_comm (_ &&& ~~~_), select_word, select_addend]
  generalize Udwords.ofAll a = x at hhigh hlow
  by_cases hx : x.high = 0#32
  · rw [hx, BitVec.toNat_zero] at hhigh
    rw [if_pos hx, if_pos hx]
    by_cases hz : x.low = 0#32
    · have ha : a = 0#64 := by
        rw [hz, BitVec.toNat_zero] at hlow
        bv_omega
      rw [ha, hz, BitVec.toNat_add, toNat_clz_zero, toNat_clz_zero]
      rfl
    · have hlead := leading_clz hz
      have hfits := hlead.fits
      have hclz : Leading 64 a.toNat 0 (x.low.clz.toNat + 32) 1 := by
        constructor
        case window =>
          rw [show a.toNat = x.low.toNat by omega,
            show 64 - 2 ^ 0 - (x.low.clz.toNat + 32) = 32 - 2 ^ 0 - x.low.clz.toNat by omega]
          exact hlead.window
        case fits => omega
        case bound => decide
        case pos => decide
      rw [hclz.clz, BitVec.toNat_add]
      exact Nat.mod_eq_of_lt (by simp; omega)
  · have hlead := leading_clz hx
    have hfits := hlead.fits
    have hclz : Leading 64 a.toNat 0 x.high.clz.toNat 1 := by
      constructor
      case window =>
        rw [show 64 - 2 ^ 0 - x.high.clz.toNat = 32 + (32 - 2 ^ 0 - x.high.clz.toNat) by omega, Nat.pow_add,
          ← Nat.div_div_eq_div_mul, ← hhigh]
        exact hlead.window
      case fits => omega
      case bound => decide
      case pos => decide
    rw [hclz.clz, if_neg hx, if_neg hx, BitVec.add_zero]

theorem ctz_lt {x : SuInt} (hx : x ≠ 0#32) : x.ctz.toNat < 32 :=
  (Nat.pow_lt_pow_iff_right (by omega)).mp (Nat.lt_of_le_of_lt (BitVec.two_pow_ctz_le_toNat_of_ne_zero hx) x.isLt)

theorem ctzdi2_eq (a : DuInt) : (ctzdi2 a).toNat = a.ctz.toNat := by
  obtain ⟨hhigh, hlow⟩ := Udwords.toNat_ofAll a
  simp only [ctzdi2, ctzsi2_eq, select_word, select_addend]
  generalize Udwords.ofAll a = x at hhigh hlow
  by_cases hx : x.low = 0#32
  · rw [hx, BitVec.toNat_zero] at hlow
    rw [if_pos hx, if_pos hx]
    by_cases hz : x.high = 0#32
    · have ha : a = 0#64 := by
        rw [hz, BitVec.toNat_zero] at hhigh
        bv_omega
      rw [ha, hz, BitVec.toNat_add, toNat_ctz_zero, toNat_ctz_zero]
      rfl
    · have htrail := trailing_ctz hz
      have hlt := ctz_lt hz
      have hctz : Trailing a.toNat 0 (x.high.ctz.toNat + 32) (x.high.toNat / 2 ^ x.high.ctz.toNat) := by
        constructor
        case window => rw [hhigh, Nat.div_div_eq_div_mul, ← Nat.pow_add, Nat.add_comm 32]
        case dvd =>
          rw [show a.toNat = x.high.toNat * 2 ^ 32 by omega, Nat.pow_add]
          exact Nat.mul_dvd_mul_right htrail.dvd _
        case found => exact htrail.found
      rw [hctz.ctz, BitVec.toNat_add]
      exact Nat.mod_eq_of_lt (by simp; omega)
  · have htrail := trailing_ctz hx
    have hlt := ctz_lt hx
    have hctz : Trailing a.toNat 0 x.low.ctz.toNat (a.toNat / 2 ^ x.low.ctz.toNat) := by
      constructor
      case window => rfl
      case dvd =>
        rw [← Nat.div_add_mod a.toNat (2 ^ 32), ← hlow]
        exact Nat.dvd_add (Nat.dvd_mul_right_of_dvd (Nat.pow_dvd_pow 2 hlt.le) _) htrail.dvd
      case found =>
        have hfound := htrail.found
        have hbit : a.toNat.testBit x.low.ctz.toNat = x.low.toNat.testBit x.low.ctz.toNat := by
          rw [hlow, Nat.testBit_mod_two_pow]
          simp [hlt]
        rw [Nat.testBit_eq_decide_div_mod_eq, Nat.testBit_eq_decide_div_mod_eq, decide_eq_decide] at hbit
        simp only [Nat.pow_zero, Nat.pow_one] at hfound ⊢
        omega
    rw [hctz.ctz, if_neg hx, if_neg hx, BitVec.add_zero]

/-- The four counts, also of 0, which the source's comments leave out. -/
theorem count_zeros (a : SuInt) (x : DuInt) : clzsi2 a = a.clz ∧ ctzsi2 a = a.ctz ∧
    (clzdi2 x).toNat = x.clz.toNat ∧ (ctzdi2 x).toNat = x.ctz.toNat :=
  ⟨clzsi2_eq a, ctzsi2_eq a, clzdi2_eq x, ctzdi2_eq x⟩

end Npc
