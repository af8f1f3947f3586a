import Npc.CountZeros
import Npc.RestoringDivision
import Mathlib.Tactic.Ring

/-! 64-bit division in klib's `int64.c`, built from operations on 32-bit halves, for a core
without a divider. -/

namespace Npc

abbrev DiInt := BitVec 64

namespace Udwords

/-- The double word a place up, with `c` shifted in, a half after the other. -/
def shiftIn (x : Udwords) (c : SuInt) : Udwords :=
  ⟨(x.high <<< 1) ||| (x.low >>> 31), (x.low <<< 1) ||| c⟩

end Udwords

/-- The variables of the loop of `__udivmoddi4`. -/
structure DivLoop where
  q : Udwords
  r : Udwords
  carry : SuInt

def divStep (d : DuInt) (x : DivLoop) : DivLoop :=
  let r := x.r.shiftIn (x.q.high >>> 31)
  let q := x.q.shiftIn x.carry
  let s : DiInt := (d - r.all - 1#64).sshiftRight 63
  ⟨q, .ofAll (r.all - (d &&& s)), (s &&& 1#64).setWidth 32⟩

/-- The end of `__udivmoddi4`: the quotient, and the remainder for `*rem`. -/
def divLoop (d : DuInt) (sr : SuInt) (q r : Udwords) : DuInt × DuInt :=
  let x := (divStep d)^[sr.toNat] ⟨q, r, 0#32⟩
  ((x.q.all <<< 1) ||| x.carry.setWidth 64, x.r.all)

/-- `q` and `r` for a count `sr` below the word size. -/
def startLow (n : Udwords) (sr : SuInt) : Udwords × Udwords :=
  (⟨n.low <<< (32#32 - sr), 0#32⟩, ⟨n.high >>> sr, (n.high <<< (32#32 - sr)) ||| (n.low >>> sr)⟩)

/-- `q` and `r` for a count of the word size. -/
def startWord (n : Udwords) : Udwords × Udwords := (⟨n.low, 0#32⟩, ⟨0#32, n.high⟩)

/-- `q` and `r` for a count `sr` above the word size. -/
def startHigh (n : Udwords) (sr : SuInt) : Udwords × Udwords :=
  (⟨(n.high <<< (64#32 - sr)) ||| (n.low >>> (sr - 32#32)), n.low <<< (64#32 - sr)⟩,
    ⟨0#32, n.high >>> (sr - 32#32)⟩)

/-- The branch of a dividend with a high word and a divisor without a low one. -/
def divByHigh (n d : Udwords) : DuInt × DuInt :=
  if d.high = 0#32 then ((n.high / d.low).setWidth 64, (n.high % d.low).setWidth 64)
  else if n.low = 0#32 then ((n.high / d.high).setWidth 64, Udwords.all ⟨n.high % d.high, 0#32⟩)
  else if d.high &&& (d.high - 1#32) = 0#32 then
    ((n.high >>> ctzsi2 d.high).setWidth 64, Udwords.all ⟨n.high &&& (d.high - 1#32), n.low⟩)
  else
    let sr := clzsi2 d.high - clzsi2 n.high
    if 30#32 < sr then (0#64, n.all)
    else
      let sr := sr + 1#32
      let (q, r) := startLow n sr
      divLoop d.all sr q r

/-- The branch of a dividend with a high word and a divisor without one. -/
def divByLow (n d : Udwords) : DuInt × DuInt :=
  if d.low &&& (d.low - 1#32) = 0#32 then
    let rem := (n.low &&& (d.low - 1#32)).setWidth 64
    if d.low = 1#32 then (n.all, rem)
    else
      let sr := ctzsi2 d.low
      (Udwords.all ⟨n.high >>> sr, (n.high <<< (32#32 - sr)) ||| (n.low >>> sr)⟩, rem)
  else
    let sr := 1#32 + 32#32 + clzsi2 d.low - clzsi2 n.high
    let (q, r) := if sr = 32#32 then startWord n else if sr < 32#32 then startLow n sr else startHigh n sr
    divLoop d.all sr q r

/-- The branch of a dividend with a high word and a divisor with both. -/
def divByBoth (n d : Udwords) : DuInt × DuInt :=
  let sr := clzsi2 d.high - clzsi2 n.high
  if 31#32 < sr then (0#64, n.all)
  else
    let sr := sr + 1#32
    let (q, r) := if sr = 32#32 then startWord n else startLow n sr
    divLoop d.all sr q r

def udivmoddi4 (a b : DuInt) : DuInt × DuInt :=
  let n := Udwords.ofAll a
  let d := Udwords.ofAll b
  if n.high = 0#32 then
    if d.high = 0#32 then ((n.low / d.low).setWidth 64, (n.low % d.low).setWidth 64)
    else (0#64, n.low.setWidth 64)
  else if d.low = 0#32 then divByHigh n d
  else if d.high = 0#32 then divByLow n d
  else divByBoth n d

def udivdi3 (a b : DuInt) : DuInt := (udivmoddi4 a b).1

def umoddi3 (a b : DuInt) : DuInt := (udivmoddi4 a b).2

def divdi3 (a b : DiInt) : DiInt :=
  let s_a := a.sshiftRight 63
  let s_b := b.sshiftRight 63
  let a := (a ^^^ s_a) - s_a
  let b := (b ^^^ s_b) - s_b
  let s_a := s_a ^^^ s_b
  ((udivmoddi4 a b).1 ^^^ s_a) - s_a

/-- The quotient, and `*rem`. -/
def divmoddi4 (a b : DiInt) : DiInt × DiInt :=
  let d := divdi3 a b
  (d, a - d * b)

def moddi3 (a b : DiInt) : DiInt :=
  let s := b.sshiftRight 63
  let b := (b ^^^ s) - s
  let s := a.sshiftRight 63
  let a := (a ^^^ s) - s
  ((udivmoddi4 a b).2 ^^^ s) - s

open RestoringDivision BinarySearchZeros

theorem toNat_shiftLeft_or {w : Nat} (x c : BitVec (w + 1)) (hc : c.toNat ≤ 1) :
    ((x <<< 1) ||| c).toNat = 2 * (x.toNat % 2 ^ w) + c.toNat := by
  rw [BitVec.toNat_or, BitVec.toNat_shiftLeft, Nat.shiftLeft_eq, Nat.mul_comm, Nat.pow_one, Nat.pow_succ',
    Nat.mul_mod_mul_left]
  exact (Nat.two_pow_add_eq_or_of_lt (i := 1) (by omega) _).symm

theorem Udwords.toNat_shiftIn (x : Udwords) {c : SuInt} (hc : c.toNat ≤ 1) :
    (x.shiftIn c).all.toNat = 2 * x.all.toNat % 2 ^ 64 + c.toNat := by
  have hl := x.low.isLt
  have hcarry : (x.low >>> 31).toNat = x.low.toNat / 2 ^ 31 := by
    rw [BitVec.toNat_ushiftRight, Nat.shiftRight_eq_div_pow]
  have hhigh := toNat_shiftLeft_or x.high (x.low >>> 31) (by omega)
  have hlow := toNat_shiftLeft_or x.low c hc
  rw [toNat_all, toNat_all, shiftIn, hhigh, hlow, hcarry]
  omega

/-- The sign word of the comparison in the loop. -/
theorem sshiftRight_sign (v : DiInt) :
    v.sshiftRight 63 = if 2 ^ 63 ≤ v.toNat then BitVec.allOnes 64 else 0#64 := by
  have hv := v.isLt
  apply BitVec.eq_of_toInt_eq
  rw [BitVec.toInt_sshiftRight, Int.shiftRight_eq_div_pow, BitVec.toInt_eq_toNat_cond]
  by_cases hs : 2 ^ 63 ≤ v.toNat
  · rw [if_pos hs, if_neg (by omega), BitVec.toInt_allOnes]
    simp only [Nat.cast_ofNat, Nat.reducePow]
    omega
  · rw [if_neg hs, if_pos (by omega), BitVec.toInt_zero]
    omega

/-- The loop of `__udivmoddi4` with `k` rounds to go: the places of `q` above `k` are divided, the quotient
so far in `q` and `carry`, and a divisor of 64 bits is compared with one of 64 bits. -/
structure Dividing (n d : DuInt) (k c : Nat) (x : DivLoop) : Prop where
  divided : Prefix n.toNat d.toNat k c x.r.all.toNat
  register : x.q.all.toNat = n.toNat % 2 ^ k * 2 ^ (64 - k) + c / 2
  carry : x.carry.toNat = c % 2
  wide : 2 ^ 63 < d.toNat → k = 0 ∨ k = 1 ∧ 2 ^ 63 ≤ 2 * x.r.all.toNat + n.toNat % 2

theorem Dividing.shifted {n d : DuInt} {k c : Nat} {x : DivLoop} (h : Dividing n d (k + 1) c x) (hk : k < 64) :
    (x.r.shiftIn (x.q.high >>> 31)).all.toNat = 2 * x.r.all.toNat + n.toNat / 2 ^ k % 2 ∧
      (x.q.shiftIn x.carry).all.toNat = n.toNat % 2 ^ k * 2 ^ (64 - k) + c := by
  have hpow : 2 ^ k * 2 ^ (63 - k) = 2 ^ 63 := by
    rw [← Nat.pow_add]
    congr 1
    omega
  have hpow' : 2 ^ (64 - k) = 2 * 2 ^ (63 - k) := by
    rw [← Nat.pow_succ']
    congr 1
    omega
  have hc : c < 2 ^ (63 - k) := by
    have hle := h.divided.quotient_le
    have hn : n.toNat / 2 ^ (k + 1) < 2 ^ (63 - k) := by
      apply Nat.div_lt_of_lt_mul
      have hlt := n.isLt
      rw [Nat.pow_succ, Nat.mul_right_comm, hpow]
      omega
    omega
  have hlow : n.toNat % 2 ^ k * 2 ^ (63 - k) + 2 ^ (63 - k) ≤ 2 ^ 63 := by
    rw [← Nat.succ_mul, ← hpow]
    exact Nat.mul_le_mul_right _ (Nat.mod_lt _ (Nat.two_pow_pos k))
  have hq : x.q.all.toNat = n.toNat / 2 ^ k % 2 * 2 ^ 63 + n.toNat % 2 ^ k * 2 ^ (63 - k) + c / 2 := by
    rw [h.register, Nat.mod_pow_succ, Nat.add_mul, show 64 - (k + 1) = 63 - k by omega, ← hpow]
    ring
  have hbit : (x.q.high >>> 31).toNat = n.toNat / 2 ^ k % 2 := by
    have hhigh := x.q.high.isLt
    have hword := x.q.low.isLt
    rw [Udwords.toNat_all] at hq
    rw [BitVec.toNat_ushiftRight, Nat.shiftRight_eq_div_pow]
    omega
  have hcarry := h.carry
  constructor
  · have hr := h.divided.value_next
    have hn := (Nat.div_le_self n.toNat (2 ^ k)).trans_lt n.isLt
    rw [Udwords.toNat_shiftIn _ (by omega), hbit]
    omega
  · rw [Udwords.toNat_shiftIn _ (by omega), hq, hpow', hcarry, Nat.mul_left_comm _ 2]
    omega

theorem Dividing.step {n d : DuInt} {k c : Nat} {x : DivLoop} (h : Dividing n d (k + 1) c x) (hk : k < 64) :
    ∃ c', Dividing n d k c' (divStep d x) := by
  obtain ⟨hr, hq⟩ := h.shifted hk
  have hd := d.isLt
  have hwide := h.wide
  have hbound := h.divided.bound
  generalize hx : (x.r.shiftIn (x.q.high >>> 31)).all = r at hr
  have hs : 2 ^ 63 ≤ (d - r - 1#64).toNat ↔ d.toNat ≤ r.toNat := by
    have hlt := r.isLt
    by_cases hw : 2 ^ 63 < d.toNat
    · obtain ⟨h1, hw'⟩ := (hwide hw).resolve_left (by omega)
      obtain rfl : k = 0 := by omega
      rw [Nat.pow_zero, Nat.div_one] at hr
      simp only [BitVec.toNat_sub, BitVec.toNat_ofNat]
      omega
    · simp only [BitVec.toNat_sub, BitVec.toNat_ofNat]
      omega
  by_cases hdr : d.toNat ≤ r.toNat
  · have hsign : (d - r - 1#64).sshiftRight 63 = BitVec.allOnes 64 := by
      rw [sshiftRight_sign, if_pos (hs.mpr hdr)]
    refine ⟨2 * c + 1, ?_⟩
    constructor
    case divided =>
      simp only [divStep, hx, hsign, BitVec.and_allOnes, Udwords.all_ofAll]
      rw [BitVec.toNat_sub_of_le hdr, hr]
      rw [hr] at hdr
      exact h.divided.subtract hdr
    case register =>
      simp only [divStep, hq]
      omega
    case carry =>
      simp only [divStep, hx, hsign]
      rw [show (BitVec.allOnes 64 &&& 1#64).setWidth 32 = 1#32 by decide]
      simp
    case wide =>
      intro hw
      have hh := hwide hw
      omega
  · have hsign : (d - r - 1#64).sshiftRight 63 = 0#64 := by
      rw [sshiftRight_sign, if_neg (fun hz => hdr (hs.mp hz))]
    refine ⟨2 * c, ?_⟩
    constructor
    case divided =>
      simp only [divStep, hx, hsign, BitVec.and_zero, BitVec.sub_zero, Udwords.all_ofAll]
      rw [hr]
      exact h.divided.skip (by omega)
    case register =>
      simp only [divStep, hq]
      omega
    case carry =>
      simp only [divStep, hx, hsign, BitVec.zero_and]
      simp
    case wide =>
      intro hw
      have hh := hwide hw
      omega

theorem Dividing.loop {n d : DuInt} {k c : Nat} {x : DivLoop} (h : Dividing n d k c x) (hk : k ≤ 64) :
    ∃ c', Dividing n d 0 c' ((divStep d)^[k] x) := by
  induction k generalizing c x with
  | zero => exact ⟨c, h⟩
  | succ k ih =>
    obtain ⟨c', hstep⟩ := h.step (by omega)
    exact ih hstep (by omega)

theorem divLoop_eq {n d : DuInt} {sr : SuInt} {q r : Udwords} (hsr : sr.toNat ≤ 64)
    (hq : q.all = n <<< (64 - sr.toNat)) (hr : r.all = n >>> sr.toNat) (hlt : n.toNat / 2 ^ sr.toNat < d.toNat)
    (hwide : 2 ^ 63 < d.toNat → sr.toNat = 1 ∧ 2 ^ 63 ≤ n.toNat) : divLoop d sr q r = (n / d, n % d) := by
  rw [← BitVec.toNat_inj, BitVec.toNat_shiftLeft, Nat.shiftLeft_eq] at hq
  rw [← BitVec.toNat_inj, BitVec.toNat_ushiftRight, Nat.shiftRight_eq_div_pow] at hr
  have hstart : Dividing n d sr.toNat 0 ⟨q, r, 0#32⟩ := by
    constructor
    case divided => exact ⟨by rw [hr, Nat.zero_mul, Nat.zero_add], by rwa [hr]⟩
    case register =>
      have hpow : 2 ^ 64 = 2 ^ sr.toNat * 2 ^ (64 - sr.toNat) := by
        rw [← Nat.pow_add]
        congr 1
        omega
      rw [hq, hpow, Nat.mul_mod_mul_right]
      rfl
    case carry => rfl
    case wide =>
      intro hw
      obtain ⟨h1, hn⟩ := hwide hw
      rw [h1] at hr ⊢
      refine .inr ⟨rfl, ?_⟩
      dsimp only
      omega
  obtain ⟨c, h⟩ := hstart.loop hsr
  obtain ⟨hquot, hrem⟩ := h.divided.done
  have hn := n.isLt
  have hle := h.divided.quotient_le
  have hreg := h.register
  have hcarry := h.carry
  simp only [divLoop]
  generalize (divStep d)^[sr.toNat] ⟨q, r, 0#32⟩ = x at hrem hreg hcarry
  have hword : (x.carry.setWidth 64).toNat = c % 2 := by
    rw [BitVec.toNat_setWidth, hcarry]
    omega
  ext1
  · apply BitVec.eq_of_toNat_eq
    rw [toNat_shiftLeft_or _ _ (by omega), hword, BitVec.toNat_udiv, ← hquot, hreg]
    simp only [Nat.pow_zero, Nat.mod_one, Nat.zero_mul, Nat.div_one] at hle ⊢
    omega
  · apply BitVec.eq_of_toNat_eq
    rw [BitVec.toNat_umod, ← hrem]

theorem startLow_all (n : Udwords) {sr : SuInt} (h1 : 1 ≤ sr.toNat) (h2 : sr.toNat < 32) :
    (startLow n sr).1.all = n.all <<< (64 - sr.toNat) ∧ (startLow n sr).2.all = n.all >>> sr.toNat := by
  have hsub : (32#32 - sr).toNat = 32 - sr.toNat := by
    rw [BitVec.toNat_sub, BitVec.toNat_ofNat]
    omega
  constructor
  all_goals
    apply BitVec.eq_of_getLsbD_eq
    intro i hi
    simp only [startLow, Udwords.getLsbD_all, BitVec.shiftLeft_eq', BitVec.ushiftRight_eq', hsub,
      BitVec.getLsbD_shiftLeft, BitVec.getLsbD_ushiftRight, BitVec.getLsbD_or, BitVec.getLsbD_zero]
    grind

theorem startWord_all (n : Udwords) :
    (startWord n).1.all = n.all <<< 32 ∧ (startWord n).2.all = n.all >>> 32 := by
  constructor
  all_goals
    apply BitVec.eq_of_getLsbD_eq
    intro i hi
    simp only [startWord, Udwords.getLsbD_all, BitVec.getLsbD_shiftLeft, BitVec.getLsbD_ushiftRight,
      BitVec.getLsbD_zero]
    grind

theorem startHigh_all (n : Udwords) {sr : SuInt} (h1 : 32 < sr.toNat) (h2 : sr.toNat < 64) :
    (startHigh n sr).1.all = n.all <<< (64 - sr.toNat) ∧ (startHigh n sr).2.all = n.all >>> sr.toNat := by
  have hsub : (64#32 - sr).toNat = 64 - sr.toNat := by
    rw [BitVec.toNat_sub, BitVec.toNat_ofNat]
    omega
  have hsub' : (sr - 32#32).toNat = sr.toNat - 32 := by
    rw [BitVec.toNat_sub, BitVec.toNat_ofNat]
    omega
  constructor
  all_goals
    apply BitVec.eq_of_getLsbD_eq
    intro i hi
    simp only [startHigh, Udwords.getLsbD_all, BitVec.shiftLeft_eq', BitVec.ushiftRight_eq', hsub, hsub',
      BitVec.getLsbD_shiftLeft, BitVec.getLsbD_ushiftRight, BitVec.getLsbD_or, BitVec.getLsbD_zero]
    grind

/-- The branch of a divisor of one word. -/
theorem start_of_lt (n : Udwords) {sr : SuInt} (h1 : 1 ≤ sr.toNat) (h2 : sr.toNat < 64) :
    let p := if sr = 32#32 then startWord n else if sr < 32#32 then startLow n sr else startHigh n sr
    p.1.all = n.all <<< (64 - sr.toNat) ∧ p.2.all = n.all >>> sr.toNat := by
  by_cases hw : sr = 32#32
  · subst hw
    exact startWord_all n
  have hne : sr.toNat ≠ 32 := fun hz => hw (BitVec.eq_of_toNat_eq hz)
  rw [if_neg hw]
  by_cases hl : sr < 32#32
  · rw [if_pos hl]
    exact startLow_all n h1 hl
  · rw [if_neg hl]
    exact startHigh_all n (by bv_omega) h2

theorem clz_bounds {x : SuInt} (hx : x ≠ 0#32) :
    x.clz.toNat < 32 ∧ 2 ^ (31 - x.clz.toNat) ≤ x.toNat ∧ x.toNat < 2 ^ (32 - x.clz.toNat) :=
  ⟨(leading_clz hx).fits, BitVec.two_pow_sub_clz_le_toNat_of_ne_zero (by decide) hx,
    BitVec.toNat_lt_two_pow_sub_clz⟩

theorem eq_two_pow_ctz {x : SuInt} (hx : x ≠ 0#32) (h : x &&& (x - 1#32) = 0#32) :
    x.toNat = 2 ^ x.ctz.toNat ∧ ∀ y : SuInt, (y &&& (x - 1#32)).toNat = y.toNat % 2 ^ x.ctz.toNat := by
  have hne : x.toNat ≠ 0 := fun hz => hx (BitVec.eq_of_toNat_eq hz)
  have hsub : (x - 1#32).toNat = x.toNat - 1 := by bv_omega
  have hand : x.toNat &&& (x.toNat - 1) = 0 := by
    rw [← hsub, ← BitVec.toNat_and, h, BitVec.toNat_zero]
  obtain ⟨k, hk⟩ := (Nat.and_sub_one_eq_zero_iff_isPowerOfTwo hne).mp hand
  have hctz : x.ctz.toNat = k :=
    Trailing.ctz (x := 1) ⟨by rw [hk, Nat.div_self (Nat.two_pow_pos k)], by rw [hk], by decide⟩
  rw [hctz]
  refine ⟨hk, fun y => ?_⟩
  rw [BitVec.toNat_and, hsub, hk, Nat.and_two_pow_sub_one_eq_mod]

theorem clz_ne_of_not_pow {x : SuInt} (hx : x ≠ 0#32) (h : x &&& (x - 1#32) ≠ 0#32) : x.clz.toNat ≠ 31 := by
  intro hz
  obtain ⟨-, hlow, hhigh⟩ := clz_bounds hx
  rw [hz] at hlow hhigh
  have h1 : x = 1#32 := BitVec.eq_of_toNat_eq (by simp at hlow hhigh ⊢; omega)
  exact h (by rw [h1]; decide)

theorem shift_lt {n d e k : Nat} (hn : n < 2 ^ (k + e)) (hd : 2 ^ e ≤ d) : n / 2 ^ k < d := by
  rw [Nat.pow_add] at hn
  exact (Nat.div_lt_of_lt_mul hn).trans_le hd

/-- The branches of a divisor with a high word. -/
theorem divLoop_high {n d : Udwords} (hn : n.high ≠ 0#32) (hd : d.high ≠ 0#32)
    (hle : n.high.clz.toNat ≤ d.high.clz.toNat) {sr : SuInt}
    (hsr : sr.toNat = d.high.clz.toNat - n.high.clz.toNat + 1) {p : Udwords × Udwords}
    (hp : p.1.all = n.all <<< (64 - sr.toNat) ∧ p.2.all = n.all >>> sr.toNat) :
    divLoop d.all sr p.1 p.2 = (n.all / d.all, n.all % d.all) := by
  obtain ⟨hcn, hlown, hhighn⟩ := clz_bounds hn
  obtain ⟨hcd, hlowd, hhighd⟩ := clz_bounds hd
  have hn' := n.low.isLt
  have hd' := d.low.isLt
  apply divLoop_eq (by omega) hp.1 hp.2
  · apply shift_lt (e := 63 - d.high.clz.toNat)
    · rw [Udwords.toNat_all, show sr.toNat + (63 - d.high.clz.toNat) = 32 - n.high.clz.toNat + 32 by omega,
        Nat.pow_add]
      omega
    · rw [Udwords.toNat_all, show 63 - d.high.clz.toNat = 31 - d.high.clz.toNat + 32 by omega, Nat.pow_add]
      omega
  · intro hw
    have hz : d.high.clz.toNat = 0 := by
      rw [BitVec.clz_eq_zero_iff (by decide)]
      rw [Udwords.toNat_all] at hw
      omega
    have hz' : n.high.clz.toNat = 0 := by omega
    rw [hz'] at hlown
    refine ⟨by omega, ?_⟩
    rw [Udwords.toNat_all]
    omega

/-- The dividend is below the divisor when it has more zeros on top. -/
theorem lt_of_clz {n d : Udwords} (hn : n.high ≠ 0#32) (hd : d.high ≠ 0#32)
    (hlt : d.high.clz.toNat < n.high.clz.toNat) : n.all.toNat < d.all.toNat := by
  obtain ⟨hcn, hlown, hhighn⟩ := clz_bounds hn
  obtain ⟨hcd, hlowd, hhighd⟩ := clz_bounds hd
  have hpow := Nat.pow_le_pow_right (n := 2) (by omega)
    (show 32 - n.high.clz.toNat ≤ 31 - d.high.clz.toNat by omega)
  have hn' := n.low.isLt
  rw [Udwords.toNat_all, Udwords.toNat_all]
  omega

/-- The branch of a divisor of one word that is no power of two. -/
theorem divLoop_low {n d : Udwords} (hn : n.high ≠ 0#32) (hd : d.high = 0#32) (hl : d.low ≠ 0#32) {sr : SuInt}
    (hsr : sr.toNat + n.high.clz.toNat = 33 + d.low.clz.toNat) {p : Udwords × Udwords}
    (hp : p.1.all = n.all <<< (64 - sr.toNat) ∧ p.2.all = n.all >>> sr.toNat) :
    divLoop d.all sr p.1 p.2 = (n.all / d.all, n.all % d.all) := by
  obtain ⟨hcn, hlown, hhighn⟩ := clz_bounds hn
  obtain ⟨hcd, hlowd, hhighd⟩ := clz_bounds hl
  have hn' := n.low.isLt
  have hd' := d.low.isLt
  have hall : d.all.toNat = d.low.toNat := by
    rw [Udwords.toNat_all, hd, BitVec.toNat_zero, Nat.zero_mul, Nat.zero_add]
  apply divLoop_eq (by omega) hp.1 hp.2
  · rw [hall]
    apply shift_lt (e := 31 - d.low.clz.toNat) _ hlowd
    rw [Udwords.toNat_all, show sr.toNat + (31 - d.low.clz.toNat) = 32 - n.high.clz.toNat + 32 by omega,
      Nat.pow_add]
    omega
  · omega

theorem pair_eq {x y q r : DuInt} (hq : q.toNat = x.toNat / y.toNat) (hr : r.toNat = x.toNat % y.toNat) :
    (q, r) = (x / y, x % y) := by
  rw [← BitVec.toNat_udiv] at hq
  rw [← BitVec.toNat_umod] at hr
  rw [BitVec.eq_of_toNat_eq hq, BitVec.eq_of_toNat_eq hr]

theorem div_high {h l : Nat} (k : Nat) (hl : l < 2 ^ 32) : (h * 2 ^ 32 + l) / (2 ^ k * 2 ^ 32) = h / 2 ^ k := by
  have hdiv : (h * 2 ^ 32 + l) / 2 ^ 32 = h := by omega
  rw [Nat.mul_comm (2 ^ k), ← Nat.div_div_eq_div_mul, hdiv]

theorem mod_high {h l : Nat} (k : Nat) (hl : l < 2 ^ 32) :
    (h * 2 ^ 32 + l) % (2 ^ k * 2 ^ 32) = h % 2 ^ k * 2 ^ 32 + l := by
  have hdiv : (h * 2 ^ 32 + l) / 2 ^ 32 = h := by omega
  have hmod : (h * 2 ^ 32 + l) % 2 ^ 32 = l := by omega
  rw [Nat.mul_comm (2 ^ k), Nat.mod_mul, hdiv, hmod, Nat.mul_comm, Nat.add_comm]

theorem divByHigh_eq {n d : Udwords} (hn : n.high ≠ 0#32) (hd : d.high ≠ 0#32) (hl : d.low = 0#32) :
    divByHigh n d = (n.all / d.all, n.all % d.all) := by
  have hn' := n.low.isLt
  have hnall := n.toNat_all
  have hdall := d.toNat_all
  rw [hl, BitVec.toNat_zero, Nat.add_zero] at hdall
  simp only [divByHigh, clzsi2_eq, ctzsi2_eq]
  rw [if_neg hd]
  by_cases hnl : n.low = 0#32
  · rw [if_pos hnl]
    rw [hnl, BitVec.toNat_zero, Nat.add_zero] at hnall
    apply pair_eq
    · rw [toNat_widen, BitVec.toNat_udiv, hnall, hdall, Nat.mul_div_mul_right _ _ (Nat.two_pow_pos 32)]
    · rw [Udwords.toNat_all, BitVec.toNat_umod, hnall, hdall, Nat.mul_mod_mul_right, BitVec.toNat_zero,
        Nat.add_zero]
  rw [if_neg hnl]
  by_cases hpow : d.high &&& (d.high - 1#32) = 0#32
  · rw [if_pos hpow]
    obtain ⟨hk, hmask⟩ := eq_two_pow_ctz hd hpow
    rw [hk] at hdall
    apply pair_eq
    · rw [toNat_widen, BitVec.ushiftRight_eq', BitVec.toNat_ushiftRight, Nat.shiftRight_eq_div_pow, hnall, hdall,
        div_high _ hn']
    · rw [Udwords.toNat_all, hmask, hnall, hdall, mod_high _ hn']
  rw [if_neg hpow]
  obtain ⟨hcn, -, -⟩ := clz_bounds hn
  obtain ⟨hcd, -, -⟩ := clz_bounds hd
  rcases Nat.lt_or_ge d.high.clz.toNat n.high.clz.toNat with hlt | hge
  · rw [if_pos (by bv_omega)]
    have hlt' := lt_of_clz hn hd hlt
    exact pair_eq (Nat.div_eq_of_lt hlt').symm (Nat.mod_eq_of_lt hlt').symm
  · have hone := clz_ne_of_not_pow hd hpow
    have hsub : (d.high.clz - n.high.clz).toNat = d.high.clz.toNat - n.high.clz.toNat :=
      BitVec.toNat_sub_of_le hge
    rw [if_neg (by bv_omega)]
    have hsr : (d.high.clz - n.high.clz + 1#32).toNat = d.high.clz.toNat - n.high.clz.toNat + 1 := by bv_omega
    exact divLoop_high hn hd hge hsr (startLow_all n (by omega) (by omega))

theorem divByLow_eq {n d : Udwords} (hn : n.high ≠ 0#32) (hd : d.high = 0#32) (hl : d.low ≠ 0#32) :
    divByLow n d = (n.all / d.all, n.all % d.all) := by
  have hnall := n.toNat_all
  have hdall := d.toNat_all
  rw [hd, BitVec.toNat_zero, Nat.zero_mul, Nat.zero_add] at hdall
  simp only [divByLow, clzsi2_eq, ctzsi2_eq]
  by_cases hpow : d.low &&& (d.low - 1#32) = 0#32
  · rw [if_pos hpow]
    obtain ⟨hk, hmask⟩ := eq_two_pow_ctz hl hpow
    have hctz := ctz_lt hl
    have hrem : ((n.low &&& (d.low - 1#32)).setWidth 64).toNat = n.all.toNat % d.all.toNat := by
      have hdvd : 2 ^ d.low.ctz.toNat ∣ n.high.toNat * 2 ^ 32 :=
        Nat.dvd_mul_left_of_dvd (Nat.pow_dvd_pow 2 hctz.le) _
      rw [toNat_widen, hmask, hdall, hnall, hk, Nat.add_mod, Nat.mod_eq_zero_of_dvd hdvd, Nat.zero_add,
        Nat.mod_mod]
    by_cases hone : d.low = 1#32
    · rw [if_pos hone]
      refine pair_eq ?_ hrem
      rw [hdall, hone, BitVec.toNat_ofNat, Nat.div_one]
    · rw [if_neg hone]
      have hpos : d.low.ctz.toNat ≠ 0 := by
        intro hz
        rw [hz] at hk
        exact hone (BitVec.eq_of_toNat_eq hk)
      refine pair_eq ?_ hrem
      have hshift := (startLow_all n (by omega) hctz).2
      rw [startLow] at hshift
      rw [hshift, BitVec.toNat_ushiftRight, Nat.shiftRight_eq_div_pow, hdall, hk]
  rw [if_neg hpow]
  obtain ⟨hcn, -, -⟩ := clz_bounds hn
  obtain ⟨hcd, -, -⟩ := clz_bounds hl
  have hone := clz_ne_of_not_pow hl hpow
  have hsr : (1#32 + 32#32 + d.low.clz - n.high.clz).toNat + n.high.clz.toNat = 33 + d.low.clz.toNat := by
    bv_omega
  exact divLoop_low hn hd hl hsr (start_of_lt n (by omega) (by omega))

theorem divByBoth_eq {n d : Udwords} (hn : n.high ≠ 0#32) (hd : d.high ≠ 0#32) :
    divByBoth n d = (n.all / d.all, n.all % d.all) := by
  simp only [divByBoth, clzsi2_eq]
  obtain ⟨hcn, -, -⟩ := clz_bounds hn
  obtain ⟨hcd, -, -⟩ := clz_bounds hd
  rcases Nat.lt_or_ge d.high.clz.toNat n.high.clz.toNat with hlt | hge
  · rw [if_pos (by bv_omega)]
    have hlt' := lt_of_clz hn hd hlt
    exact pair_eq (Nat.div_eq_of_lt hlt').symm (Nat.mod_eq_of_lt hlt').symm
  · have hsub : (d.high.clz - n.high.clz).toNat = d.high.clz.toNat - n.high.clz.toNat :=
      BitVec.toNat_sub_of_le hge
    rw [if_neg (by bv_omega)]
    have hsr : (d.high.clz - n.high.clz + 1#32).toNat = d.high.clz.toNat - n.high.clz.toNat + 1 := by bv_omega
    refine divLoop_high hn hd hge hsr ?_
    by_cases hw : d.high.clz - n.high.clz + 1#32 = 32#32
    · rw [if_pos hw, hw]
      exact startWord_all n
    · rw [if_neg hw]
      have hne : (d.high.clz - n.high.clz + 1#32).toNat ≠ 32 := fun hz => hw (BitVec.eq_of_toNat_eq hz)
      exact startLow_all n (by omega) (by omega)

theorem udivmoddi4_all (n d : Udwords) (hd : d.all ≠ 0#64) :
    udivmoddi4 n.all d.all = (n.all / d.all, n.all % d.all) := by
  have hd' := d.low.isLt
  have hnall := n.toNat_all
  have hdall := d.toNat_all
  simp only [udivmoddi4, Udwords.ofAll_all]
  by_cases hnh : n.high = 0#32
  · rw [if_pos hnh]
    rw [hnh, BitVec.toNat_zero, Nat.zero_mul, Nat.zero_add] at hnall
    by_cases hdh : d.high = 0#32
    · rw [if_pos hdh]
      rw [hdh, BitVec.toNat_zero, Nat.zero_mul, Nat.zero_add] at hdall
      apply pair_eq
      · rw [toNat_widen, BitVec.toNat_udiv, hnall, hdall]
      · rw [toNat_widen, BitVec.toNat_umod, hnall, hdall]
    · rw [if_neg hdh]
      have hlt : n.all.toNat < d.all.toNat := by
        have hpos : d.high.toNat ≠ 0 := fun hz => hdh (BitVec.eq_of_toNat_eq hz)
        have hn' := n.low.isLt
        omega
      apply pair_eq
      · rw [Nat.div_eq_of_lt hlt, BitVec.toNat_zero]
      · rw [Nat.mod_eq_of_lt hlt, toNat_widen, hnall]
  rw [if_neg hnh]
  by_cases hdl : d.low = 0#32
  · rw [if_pos hdl]
    refine divByHigh_eq hnh (fun hz => hd (BitVec.eq_of_toNat_eq ?_)) hdl
    rw [hdall, hz, hdl]
    rfl
  rw [if_neg hdl]
  by_cases hdh : d.high = 0#32
  · rw [if_pos hdh]
    exact divByLow_eq hnh hdh hdl
  · rw [if_neg hdh]
    exact divByBoth_eq hnh hdh

theorem udivmoddi4_eq (a : DuInt) {b : DuInt} (hb : b ≠ 0#64) : udivmoddi4 a b = (a / b, a % b) := by
  have hh := udivmoddi4_all (.ofAll a) (.ofAll b) (by rwa [Udwords.all_ofAll])
  rwa [Udwords.all_ofAll, Udwords.all_ofAll] at hh

theorem sshiftRight_msb (v : DiInt) : v.sshiftRight 63 = if v.msb then BitVec.allOnes 64 else 0#64 := by
  rw [sshiftRight_sign, BitVec.msb_eq_decide]
  simp

/-- The word `s` negates when it is all ones. -/
theorem negate_if (x : DiInt) (c : Bool) :
    (x ^^^ (if c then BitVec.allOnes 64 else 0#64)) - (if c then BitVec.allOnes 64 else 0#64) =
      if c then -x else x := by
  cases c with
  | false => simp
  | true => rw [if_pos rfl, if_pos rfl, BitVec.xor_allOnes, ← BitVec.neg_one_eq_allOnes, BitVec.sub_neg,
      BitVec.neg_eq_not_add]

theorem xor_sign (c d : Bool) :
    (if c then BitVec.allOnes 64 else 0#64) ^^^ (if d then BitVec.allOnes 64 else 0#64) =
      if (c ^^ d) then BitVec.allOnes 64 else 0#64 := by
  cases c <;> cases d <;> simp

theorem divdi3_eq (a : DiInt) {b : DiInt} (hb : b ≠ 0#64) : divdi3 a b = a.sdiv b := by
  have hneg : -b ≠ 0#64 := by simpa using hb
  simp only [divdi3, sshiftRight_msb, negate_if, xor_sign]
  rw [BitVec.sdiv_eq]
  cases a.msb <;> cases b.msb <;> simp [udivmoddi4_eq, hb, hneg]

theorem moddi3_eq (a : DiInt) {b : DiInt} (hb : b ≠ 0#64) : moddi3 a b = a.srem b := by
  have hneg : -b ≠ 0#64 := by simpa using hb
  simp only [moddi3, sshiftRight_msb, negate_if]
  rw [BitVec.srem_eq]
  cases a.msb <;> cases b.msb <;> simp [udivmoddi4_eq, hb, hneg]

theorem sub_udiv_mul (x y : DuInt) : x - x / y * y = x % y := by
  have hx : x / y * y + x % y = x := by
    apply BitVec.eq_of_toNat_eq
    rw [BitVec.toNat_add, BitVec.toNat_mul, BitVec.toNat_udiv, BitVec.toNat_umod, Nat.mod_add_mod,
      Nat.div_add_mod', Nat.mod_eq_of_lt x.isLt]
  rw [sub_eq_iff_eq_add, add_comm, hx]

theorem sub_sdiv_mul (x y : DiInt) : x - x.sdiv y * y = x.srem y := by
  have hft := sub_udiv_mul x (-y)
  have htf := sub_udiv_mul (-x) y
  have htt := sub_udiv_mul (-x) (-y)
  rw [BitVec.sdiv_eq, BitVec.srem_eq]
  cases x.msb <;> cases y.msb <;> simp only [BitVec.udiv_eq]
  · exact sub_udiv_mul x y
  · rw [← hft]
    ring
  · rw [← htf]
    ring
  · rw [← htt]
    ring

/-- Every division of `int64.c`, special cases and the overflow of the least quotient included. -/
theorem int64_division (a b : DuInt) (hb : b ≠ 0#64) :
    udivmoddi4 a b = (a / b, a % b) ∧ udivdi3 a b = a / b ∧ umoddi3 a b = a % b ∧ divdi3 a b = a.sdiv b ∧
      moddi3 a b = a.srem b ∧ divmoddi4 a b = (a.sdiv b, a.srem b) := by
  have hu := udivmoddi4_eq a hb
  refine ⟨hu, ?_, ?_, divdi3_eq a hb, moddi3_eq a hb, ?_⟩
  · rw [udivdi3, hu]
  · rw [umoddi3, hu]
  · rw [divmoddi4, divdi3_eq a hb, sub_sdiv_mul]

theorem int64_division_intMin :
    divdi3 (BitVec.intMin 64) (-1#64) = BitVec.intMin 64 ∧ moddi3 (BitVec.intMin 64) (-1#64) = 0#64 := by
  obtain ⟨-, -, -, hdiv, hmod, -⟩ := int64_division (BitVec.intMin 64) (-1#64) (by decide)
  exact ⟨hdiv.trans (by decide), hmod.trans (by decide)⟩

end Npc
