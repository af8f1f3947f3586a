import Npc.CountZeros
import Npc.Mulsi3
import Mathlib.Tactic.Ring

/-! `multi3.c` and `ashldi3.c` of libgcc for rv32: the 64-bit product and left shift from
operations on words. -/

namespace Npc

/-- The variables of the loop of `__multi3`. -/
structure Multi3 where
  u_low : SuInt
  v_low : SuInt
  w_low : SuInt
  w_high : SuInt
  w_high_tmp : SuInt

namespace Multi3

def round (x : Multi3) : Multi3 :=
  let new_w_low := x.w_low + x.u_low
  let w_high_tmp2x := x.w_high_tmp <<< 1
  let w_high_tmp := x.w_high_tmp + x.w_high
  let add := x.v_low &&& 1#32 ≠ 0#32
  let carry := if new_w_low < x.w_low then 1#32 else 0#32
  { u_low := x.u_low <<< 1
    v_low := x.v_low >>> 1
    w_low := if add then new_w_low else x.w_low
    w_high := if add then carry + w_high_tmp else x.w_high
    w_high_tmp := (x.u_low >>> 31) ||| w_high_tmp2x }

/-- The `do` loop of `__multi3`. -/
def loop (x : Multi3) : Multi3 :=
  if x.round.v_low = 0#32 then x.round else loop x.round
termination_by x.v_low.toNat
decreasing_by
  rename_i hne
  have hpos : x.round.v_low.toNat ≠ 0 := fun hz => hne (BitVec.eq_of_toNat_eq hz)
  simp only [round, BitVec.toNat_ushiftRight, Nat.shiftRight_eq_div_pow] at hpos ⊢
  omega

/-- The sum so far. -/
def sum (x : Multi3) : DuInt := Udwords.all ⟨x.w_high, x.w_low⟩

/-- The shifted multiplicand. -/
def shifted (x : Multi3) : DuInt := Udwords.all ⟨x.w_high_tmp, x.u_low⟩

end Multi3

/-- `__muluw3` calls `__mulsi3`. -/
def muluw3 (a b : SuInt) : SuInt := a * b

def multi3 (u v : DuInt) : DuInt :=
  let uu := Udwords.ofAll u
  let vv := Udwords.ofAll v
  let w := Multi3.loop ⟨uu.low, vv.low, 0#32, 0#32, 0#32⟩
  let high := if uu.high ≠ 0#32 then w.w_high + muluw3 vv.low uu.high else w.w_high
  let high := if vv.high ≠ 0#32 then high + muluw3 uu.low vv.high else high
  Udwords.all ⟨high, w.w_low⟩

def ashldi3 (u : DuInt) (b : Int) : DuInt :=
  if b = 0 then u
  else
    let uu := Udwords.ofAll u
    let bm := 32 - b
    if bm ≤ 0 then Udwords.all ⟨uu.low <<< (-bm).toNat, 0#32⟩
    else
      let carries := uu.low >>> bm.toNat
      Udwords.all ⟨(uu.high <<< b.toNat) ||| carries, uu.low <<< b.toNat⟩

namespace Multi3

theorem shifted_round (x : Multi3) : x.round.shifted = x.shifted <<< 1 := by
  apply BitVec.eq_of_getLsbD_eq
  intro i hi
  simp only [shifted, round, Udwords.getLsbD_all, BitVec.getLsbD_shiftLeft, BitVec.getLsbD_or,
    BitVec.getLsbD_ushiftRight]
  grind

/-- A round adds the multiplicand when the last bit of `v_low` is set. -/
theorem sum_round (x : Multi3) : x.round.sum = x.sum + (x.v_low &&& 1#32).setWidth 64 * x.shifted := by
  apply BitVec.eq_of_toNat_eq
  have hw := x.w_low.isLt
  have hh := x.w_high.isLt
  have hu := x.u_low.isLt
  have ht := x.w_high_tmp.isLt
  rcases and_one_cases x.v_low with h0 | h1
  · simp [sum, round, h0]
  · rw [h1, show (1#32).setWidth 64 = 1#64 by decide, BitVec.one_mul]
    simp only [sum, shifted, round, h1, BitVec.lt_def, BitVec.toNat_add, Udwords.toNat_all, ne_eq,
      show ¬ (1#32 : SuInt) = 0#32 by decide, not_false_eq_true, if_true]
    by_cases hc : (x.w_low.toNat + x.u_low.toNat) % 2 ^ 32 < x.w_low.toNat
    · rw [if_pos hc, BitVec.toNat_ofNat]
      omega
    · rw [if_neg hc, BitVec.toNat_zero]
      omega

theorem sum_halve (x : Multi3) : x.sum + x.v_low.setWidth 64 * x.shifted =
    x.round.sum + x.round.v_low.setWidth 64 * x.round.shifted := by
  have hand : (x.v_low.setWidth 64) &&& 1#64 = (x.v_low &&& 1#32).setWidth 64 := by
    rw [BitVec.setWidth_and]
    rfl
  have hshift : (x.v_low.setWidth 64) >>> 1 = x.round.v_low.setWidth 64 := by
    apply BitVec.eq_of_toNat_eq
    have hv := x.v_low.isLt
    simp only [round, BitVec.toNat_ushiftRight, BitVec.toNat_setWidth, Nat.shiftRight_eq_div_pow]
    omega
  rw [mul_halve, hand, hshift, ← sum_round, ← shifted_round]

/-- The loop adds the product of `v_low` and the multiplicand. -/
theorem sum_loop (x : Multi3) : x.loop.sum = x.sum + x.v_low.setWidth 64 * x.shifted := by
  fun_induction loop x with
  | case1 x hz => simp [sum_halve, hz]
  | case2 x hz ih => rw [ih, sum_halve x]

end Multi3

theorem Udwords.all_eq (x : Udwords) : x.all = x.high.setWidth 64 * 0x100000000#64 + x.low.setWidth 64 := by
  apply BitVec.eq_of_toNat_eq
  have hh := x.high.isLt
  have hl := x.low.isLt
  rw [toNat_all, BitVec.toNat_add, BitVec.toNat_mul, toNat_widen, toNat_widen, BitVec.toNat_ofNat]
  omega

/-- Of what is added to the high word only the last word counts. -/
theorem Udwords.all_add_mul (h l x y : SuInt) : Udwords.all ⟨h + x * y, l⟩ =
    Udwords.all ⟨h, l⟩ + x.setWidth 64 * y.setWidth 64 * 0x100000000#64 := by
  apply BitVec.eq_of_toNat_eq
  rw [BitVec.toNat_add, BitVec.toNat_mul, BitVec.toNat_mul, toNat_widen, toNat_widen, toNat_all, toNat_all]
  simp only [BitVec.toNat_add, BitVec.toNat_mul, BitVec.toNat_ofNat]
  have hl := l.isLt
  generalize x.toNat * y.toNat = z
  omega

theorem multi3_eq (u v : DuInt) : multi3 u v = u * v := by
  have hu := (Udwords.ofAll u).all_eq
  have hv := (Udwords.ofAll v).all_eq
  rw [Udwords.all_ofAll] at hu hv
  simp only [multi3, muluw3]
  generalize Udwords.ofAll u = uu at hu
  generalize Udwords.ofAll v = vv at hv
  have hloop := Multi3.sum_loop ⟨uu.low, vv.low, 0#32, 0#32, 0#32⟩
  generalize Multi3.loop ⟨uu.low, vv.low, 0#32, 0#32, 0#32⟩ = w at hloop
  have hskip : ∀ h x y : SuInt, (if y ≠ 0#32 then h + x * y else h) = h + x * y := by
    intro h x y
    by_cases hz : y = 0#32 <;> simp [hz]
  have hsquare : (0x100000000#64 * 0x100000000#64 : DuInt) = 0#64 := by decide
  have hsum : Udwords.all ⟨w.w_high, w.w_low⟩ = vv.low.setWidth 64 * uu.low.setWidth 64 := by
    rw [← Multi3.sum, hloop]
    simp [Multi3.sum, Multi3.shifted, Udwords.all_eq]
  rw [hskip, hskip, Udwords.all_add_mul, Udwords.all_add_mul, hsum, hu, hv]
  generalize (0x100000000#64 : DuInt) = e at hsquare
  calc vv.low.setWidth 64 * uu.low.setWidth 64 + vv.low.setWidth 64 * uu.high.setWidth 64 * e +
        uu.low.setWidth 64 * vv.high.setWidth 64 * e
      = (uu.high.setWidth 64 * e + uu.low.setWidth 64) * (vv.high.setWidth 64 * e + vv.low.setWidth 64) -
        uu.high.setWidth 64 * vv.high.setWidth 64 * (e * e) := by ring
    _ = (uu.high.setWidth 64 * e + uu.low.setWidth 64) * (vv.high.setWidth 64 * e + vv.low.setWidth 64) := by
      rw [hsquare, BitVec.mul_zero, BitVec.sub_zero]

theorem ashldi3_eq (u : DuInt) (b : Fin 64) : ashldi3 u b.val = u <<< b.val := by
  have hb := b.isLt
  have hu := Udwords.all_ofAll u
  simp only [ashldi3]
  generalize Udwords.ofAll u = x at hu
  subst hu
  by_cases h0 : b.val = 0
  · simp [h0]
  rw [if_neg (by omega)]
  apply BitVec.eq_of_getLsbD_eq
  intro i hi
  by_cases hbm : 32 ≤ b.val
  · rw [if_pos (by omega), show (-(32 - (b.val : Int))).toNat = b.val - 32 by omega]
    simp only [Udwords.getLsbD_all, BitVec.getLsbD_shiftLeft, BitVec.getLsbD_zero]
    grind
  · rw [if_neg (by omega), show (32 - (b.val : Int)).toNat = 32 - b.val by omega, Int.toNat_natCast]
    simp only [Udwords.getLsbD_all, BitVec.getLsbD_shiftLeft, BitVec.getLsbD_or, BitVec.getLsbD_ushiftRight]
    grind

/-- The products and left shifts of double words. -/
theorem double_word_arithmetic (u v : DuInt) (b : Fin 64) :
    multi3 u v = u * v ∧ ashldi3 u b.val = u <<< b.val :=
  ⟨multi3_eq u v, ashldi3_eq u b⟩

end Npc
