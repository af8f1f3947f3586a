import Npc.Format

/-! The conversions `%d` and `%ld` with the `0` flag and a field width. -/

namespace Npc

namespace Klib

/-- `%d` as the standard writes it, with the width before the `l`. -/
structure IntDirective where
  zero : Bool
  width : Nat
  long : Bool
  deriving DecidableEq, Repr

namespace IntDirective

def text (d : IntDirective) : List Char :=
  '%' :: (flagText d.zero ++ (widthText d.width ++ if d.long then ['l', 'd'] else ['d']))

/-- The standard's text of a 32-bit value; `int` and `long` have the same range. -/
def output (d : IntDirective) (v : Word) : List Char :=
  field d.zero d.width (if v.toInt < 0 then ['-'] else []) (Nat.toDigits 10 v.toInt.natAbs)

def Standard (d : IntDirective) (v : Word) : Prop :=
  ∃ ret, vsprintf d.text [.word v] = some (d.output v ++ [Char.ofNat 0], ret)

/-- No width stands before an `l`, the width is an `int`, and a negative value is not the least one
and not padded. -/
def Right (d : IntDirective) (v : Word) : Prop :=
  (d.long = true → d.width = 0) ∧ d.width < 2 ^ 31 ∧
    (v.toInt < 0 → v ≠ BitVec.intMin 32 ∧ d.width ≤ (Nat.toDigits 10 v.toInt.natAbs).length)

def spec (d : IntDirective) : Spec :=
  ⟨if d.zero then '0' else ' ', d.long, BitVec.ofNat 32 d.width⟩

end IntDirective

section Convert

variable {v : Word} {d : IntDirective} {width : Nat}

theorem decDigits_natAbs (h0 : 0 ≤ v.toInt) :
    decDigits bufferSize v = (Nat.toDigits 10 v.toInt.natAbs).reverse := by
  have hnat : v.toInt.natAbs = v.toNat := by
    rw [BitVec.toInt_eq_toNat_cond] at h0 ⊢
    have hlt := v.isLt
    split_ifs at h0 ⊢ <;> omega
  rw [decDigits_eq (by decide) h0 (v.isLt.trans (by decide)), hnat]

theorem decDigits_neg (hneg : v.toInt < 0) (hmin : v ≠ BitVec.intMin 32) :
    decDigits bufferSize (-v) = (Nat.toDigits 10 v.toInt.natAbs).reverse := by
  have hint : (-v).toInt = -v.toInt := BitVec.toInt_neg_of_ne_intMin hmin
  rw [decDigits_natAbs (by omega), hint, Int.natAbs_neg]

theorem decDigits_intMin : decDigits bufferSize (-BitVec.intMin 32) = ['('] := by decide

theorem length_toDigits_natAbs (v : Word) : (Nat.toDigits 10 v.toInt.natAbs).length ≤ 10 := by
  rw [Nat.length_toDigits_le_iff (by decide) (by decide)]
  have hl := BitVec.le_toInt v
  have hu := BitVec.toInt_lt (x := v)
  omega

theorem toInt_width (width : Nat) : -2 ^ 31 ≤ (BitVec.ofNat 32 width).toInt ∧
    (BitVec.ofNat 32 width).toInt < 2 ^ 31 ∧
    ((BitVec.ofNat 32 width).toInt = width ∨ (BitVec.ofNat 32 width).toInt + 2 ^ 32 ≤ width) := by
  rw [BitVec.toInt_eq_toNat_cond, BitVec.toNat_ofNat]
  split_ifs <;> omega

theorem length_emit (spec : Spec) (buffer : List Char) :
    (emit spec buffer).length = (spec.width.toInt - buffer.length).toNat + buffer.length := by
  simp [emit]

theorem length_field (zero : Bool) (width : Nat) (sign digits : List Char) :
    (field zero width sign digits).length = max width (sign.length + digits.length) := by
  unfold field
  split_ifs <;> simp <;> omega

theorem convD_nonneg (h0 : 0 ≤ v.toInt) : convD d.spec v = d.output v ↔ d.width < 2 ^ 31 := by
  have hneg : ¬ v.toInt < 0 := not_lt.mpr h0
  constructor
  · intro h
    have hlen := congrArg List.length h
    have hdigits := length_toDigits_natAbs v
    have hw := toInt_width d.width
    rw [convD, if_neg hneg, decDigits_natAbs h0, length_emit, IntDirective.output, length_field,
      if_neg hneg] at hlen
    simp only [IntDirective.spec, List.length_reverse, List.length_nil] at hlen
    omega
  · intro hw
    rw [convD, if_neg hneg, decDigits_natAbs h0, IntDirective.spec, emit_eq hw,
      IntDirective.output, if_neg hneg, field]
    cases d.zero <;> simp

/-- The sign is not counted in the width. -/
theorem convD_neg (hneg : v.toInt < 0) (hmin : v ≠ BitVec.intMin 32) :
    convD d.spec v = d.output v ↔ d.width ≤ (Nat.toDigits 10 v.toInt.natAbs).length := by
  have hdigits := length_toDigits_natAbs v
  rw [convD, if_pos hneg, decDigits_neg hneg hmin, IntDirective.output, if_pos hneg]
  constructor
  · intro h
    have hlen := congrArg List.length h
    have hw := toInt_width d.width
    rw [List.length_cons, length_emit, length_field] at hlen
    simp only [IntDirective.spec, List.length_reverse, List.length_singleton] at hlen
    omega
  · intro hw
    rw [IntDirective.spec, emit_eq (by omega), field, List.length_reverse, List.length_singleton,
      Nat.sub_eq_zero_of_le hw, Nat.sub_eq_zero_of_le (by omega)]
    cases d.zero <;> simp

/-- The least value is its own negative, and its only digit a `(`. -/
theorem convD_intMin : convD d.spec (BitVec.intMin 32) ≠ d.output (BitVec.intMin 32) := by
  intro h
  have hlast := congrArg (·.reverse.head?) h
  have hdigits : Nat.toDigits 10 (BitVec.intMin 32).toInt.natAbs =
      ['2', '1', '4', '7', '4', '8', '3', '6', '4', '8'] := by decide +kernel
  have hneg : (BitVec.intMin 32).toInt < 0 := by decide
  rw [convD, if_pos hneg, decDigits_intMin, emit, IntDirective.output, if_pos hneg, hdigits,
    field] at hlast
  split_ifs at hlast <;> simp at hlast

theorem convD_right (d : IntDirective) (v : Word) : convD d.spec v = d.output v ↔
    d.width < 2 ^ 31 ∧ (v.toInt < 0 → v ≠ BitVec.intMin 32 ∧
      d.width ≤ (Nat.toDigits 10 v.toInt.natAbs).length) := by
  by_cases hneg : v.toInt < 0
  · by_cases hmin : v = BitVec.intMin 32
    · subst hmin
      simp [convD_intMin, hneg]
    · have hdigits := length_toDigits_natAbs v
      rw [convD_neg hneg hmin]
      constructor
      · exact fun hw => ⟨by omega, fun _ => ⟨hmin, hw⟩⟩
      · exact fun hw => (hw.2 hneg).2
  · rw [convD_nonneg (not_lt.mp hneg)]
    simp [hneg]

end Convert

section Directive

variable {d : IntDirective} {v : Word}

/-- A width in front of the `l` leaves the `l` to the `switch`. -/
theorem parseSpec_int (d : IntDirective) : parseSpec d.text.tail =
    if d.long = true ∧ d.width ≠ 0 then
      (⟨if d.zero then '0' else ' ', false, BitVec.ofNat 32 d.width⟩, ['l', 'd'])
    else (d.spec, ['d']) := by
  obtain ⟨zero, width, long⟩ := d
  cases long with
  | false => exact @parseSpec_width [] 'd' width rfl (by simp) zero
  | true =>
    by_cases hw : width = 0
    · subst hw
      cases zero <;> rfl
    · rw [if_pos ⟨rfl, hw⟩]
      exact @parseSpec_width ['d'] 'l' width rfl (fun _ => hw) zero

theorem vsprintf_int (d : IntDirective) (v : Word) : vsprintf d.text [.word v] =
    if d.long = true ∧ d.width ≠ 0 then none
    else some (convD d.spec v ++ [Char.ofNat 0], BitVec.ofNat 32 (convD d.spec v).length) := by
  have hp := parseSpec_int d
  have htext : d.text = '%' :: d.text.tail := rfl
  rw [vsprintf, htext, List.length_cons, formatFrom, formatStep, if_pos rfl, hp]
  by_cases h : d.long = true ∧ d.width ≠ 0
  · rw [if_pos h, if_pos h]
    rfl
  · have hc : conversion d.spec 'd' [.word v] = some (convD d.spec v, []) := rfl
    have hend : ∀ n, formatFrom n [] [] = some [] := fun n => by cases n <;> rfl
    rw [if_neg h, if_neg h]
    simp [hc, hend]

/-- `%d` and `%ld` come out as the standard says on these inputs, and on no others. -/
theorem standard_iff_right (d : IntDirective) (v : Word) : d.Standard v ↔ d.Right v := by
  have hconv := convD_right d v
  rw [IntDirective.Standard, IntDirective.Right, vsprintf_int]
  split_ifs with h
  · simp [h.1, h.2]
  · have hlong : d.long = true → d.width = 0 := fun hh => by_contra fun hw => h ⟨hh, hw⟩
    rw [and_iff_right hlong, ← hconv]
    simp

/-- `%5d` of -5 gets a blank too many behind its sign, `%d` of the least value is `-(`, and `%5ld`
ends in the panic. -/
theorem standard_not : ¬ (IntDirective.mk false 5 false).Standard (-5#32) ∧
    ¬ (IntDirective.mk false 0 false).Standard (BitVec.intMin 32) ∧
    ¬ (IntDirective.mk false 5 true).Standard 5#32 := by
  have h5 : vsprintf ['%', '5', 'd'] [.word (-5#32)] =
      some (['-', ' ', ' ', ' ', ' ', '5', Char.ofNat 0], 6#32) := by decide +kernel
  have hmin : vsprintf ['%', 'd'] [.word (BitVec.intMin 32)] =
      some (['-', '(', Char.ofNat 0], 2#32) := by decide +kernel
  have hl : vsprintf ['%', '5', 'l', 'd'] [.word 5#32] = none := by decide +kernel
  have hout5 : (IntDirective.mk false 5 false).output (-5#32) = [' ', ' ', ' ', '-', '5'] := by
    decide +kernel
  have hout : (IntDirective.mk false 0 false).output (BitVec.intMin 32) =
      ['-', '2', '1', '4', '7', '4', '8', '3', '6', '4', '8'] := by decide +kernel
  refine ⟨?_, ?_, ?_⟩
  · rintro ⟨ret, h⟩
    have hh := h5.symm.trans h
    rw [hout5] at hh
    simp at hh
  · rintro ⟨ret, h⟩
    have hh := hmin.symm.trans h
    rw [hout] at hh
    simp at hh
  · rintro ⟨ret, h⟩
    have hh := hl.symm.trans h
    cases hh

end Directive

end Klib

end Npc
