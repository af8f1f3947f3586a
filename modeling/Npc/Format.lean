import Npc.Stdio

/-! The conversions `%c`, `%s`, `%%`, `%x` and `%X` of the C standard, and what `vsprintf` makes of a
format of them. -/

namespace Npc

namespace Klib

/-- A field width as it is written, 0 for none. -/
def widthText (width : Nat) : List Char := if width = 0 then [] else Nat.toDigits 10 width

def flagText (zero : Bool) : List Char := if zero then ['0'] else []

inductive Directive
  | lit (c : Char) (h : c ≠ '%')
  | chr
  | str
  | percent
  | hex (upper zero : Bool) (width : Nat)

/-- The standard's number field: blanks before the sign, or zeros behind it. -/
def field (zero : Bool) (width : Nat) (sign digits : List Char) : List Char :=
  let n := width - (sign.length + digits.length)
  if zero then sign ++ List.replicate n '0' ++ digits else List.replicate n ' ' ++ sign ++ digits

namespace Directive

def text : Directive → List Char
  | lit c _ => [c]
  | chr => ['%', 'c']
  | str => ['%', 's']
  | percent => ['%', '%']
  | hex upper zero width =>
    '%' :: (flagText zero ++ (widthText width ++ [if upper then 'X' else 'x']))

/-- The standard's text of a conversion, and the arguments behind the one it takes. -/
def output : Directive → List VaArg → Option (List Char × List VaArg)
  | lit c _, ap => some ([c], ap)
  | chr, .word w :: ap => some ([Char.ofNat (w.toNat % 256)], ap)
  | str, .str s :: ap => some (s, ap)
  | percent, ap => some (['%'], ap)
  | hex upper zero width, .word w :: ap =>
    some (field zero width []
      ((Nat.toDigits 16 w.toNat).map fun c => if upper then c.toUpper else c), ap)
  | _, _ => none

end Directive

/-- The standard's text of a format, if the arguments match it. -/
def expected : List Directive → List VaArg → Option (List Char)
  | [], _ => some []
  | d :: ds, ap => (d.output ap).bind fun r => (expected ds r.2).map (r.1 ++ ·)

section Parse

variable (fmt : List Char) {s : List Char} {letter : Char} (width : Nat)

theorem parseWidth_digits (hs : ∀ c ∈ s, c.isDigit = true) (hl : letter.isDigit = false)
    (acc : Nat) : parseWidth (s ++ letter :: fmt) (BitVec.ofNat 32 acc) =
      (BitVec.ofNat 32 (Nat.ofDigitChars 10 s acc), letter :: fmt) := by
  induction s generalizing acc with
  | nil => simp [parseWidth, hl]
  | cons c s ih =>
    have hacc : BitVec.ofNat 32 acc * 10#32 + BitVec.ofNat 32 (c.toNat - 48) =
        BitVec.ofNat 32 (10 * acc + (c.toNat - 48)) := by
      rw [Nat.mul_comm, BitVec.ofNat_add, BitVec.ofNat_mul]
    rw [List.cons_append, parseWidth, if_pos (hs c List.mem_cons_self), hacc,
      ih (fun c hc => hs c (List.mem_cons_of_mem _ hc)), Nat.ofDigitChars_cons]
    rfl

theorem widthText_digits : ∀ c ∈ widthText width, c.isDigit = true := by
  intro c hc
  unfold widthText at hc
  split_ifs at hc with h0
  · cases hc
  · exact Nat.isDigit_of_mem_toDigits (by decide) (by decide) hc

theorem ofDigitChars_widthText : Nat.ofDigitChars 10 (widthText width) 0 = width := by
  unfold widthText
  split_ifs with h0
  · rw [Nat.ofDigitChars_nil, h0]
  · exact Nat.ofDigitChars_ten_toDigits

/-- A width begins neither with the flag nor with `l`. -/
theorem head_widthText (h0 : letter ≠ '0') (hl : letter = 'l' → width ≠ 0) :
    (widthText width ++ letter :: fmt).head? ≠ some '0' ∧
      (widthText width ++ letter :: fmt).head? ≠ some 'l' := by
  by_cases hw : width = 0
  · have hl' : letter ≠ 'l' := fun h => hl h hw
    simp [widthText, hw, h0, hl']
  · have hne : Nat.toDigits 10 width ≠ [] := Nat.toDigits_ne_nil
    rw [widthText, if_neg hw, List.head?_append_of_ne_nil _ hne]
    refine ⟨DigitLoop.head_toDigits (by decide) (Nat.pos_of_ne_zero hw), fun hh => ?_⟩
    have hd := Nat.isDigit_of_mem_toDigits (b := 10) (by decide) (by decide)
      (List.mem_of_mem_head? hh)
    exact absurd hd (by decide)

theorem parseSpec_width (hd : letter.isDigit = false) (hl : letter = 'l' → width ≠ 0)
    (zero : Bool) :
    parseSpec (flagText zero ++ (widthText width ++ letter :: fmt)) =
      (⟨if zero then '0' else ' ', false, BitVec.ofNat 32 width⟩, letter :: fmt) := by
  have hl0 : letter ≠ '0' := by
    rintro rfl
    exact absurd hd (by decide)
  obtain ⟨h0, hl⟩ := head_widthText fmt width hl0 hl
  have hw := parseWidth_digits fmt (widthText_digits width) hd 0
  rw [ofDigitChars_widthText] at hw
  generalize widthText width ++ letter :: fmt = rest at h0 hl hw
  cases zero <;> simp [parseSpec, flagText, h0, hl, hw]

end Parse

section Output

variable (fmt : List Char) {out : List Char} {ap ap' : List VaArg} {width : Nat}

theorem emit_eq (hw : width < 2 ^ 31) (pad : Char) (long : Bool) (buffer : List Char) :
    emit ⟨pad, long, BitVec.ofNat 32 width⟩ buffer =
      List.replicate (width - buffer.length) pad ++ buffer.reverse := by
  have hint : (BitVec.ofNat 32 width).toInt = width := by
    rw [BitVec.toInt_eq_toNat_of_lt] <;> rw [BitVec.toNat_ofNat] <;> omega
  have hn : ((width : Int) - buffer.length).toNat = width - buffer.length := by omega
  rw [emit, hint, hn]

theorem convX_eq {base : Char} {f : Char → Char} (h : ∀ d < 16, hexDigit base d = f d.digitChar)
    (hw : width < 2 ^ 31) (zero : Bool) (w : Word) :
    convX ⟨if zero then '0' else ' ', false, BitVec.ofNat 32 width⟩ base w =
      field zero width [] ((Nat.toDigits 16 w.toNat).map f) := by
  have hlt : w.toNat < 16 ^ bufferSize := w.isLt.trans (by decide)
  rw [convX, hexDigits_eq h (by decide) hlt, emit_eq hw, field]
  cases zero <;> simp

theorem field_width_le {zero : Bool} {sign digits : List Char} :
    width ≤ (field zero width sign digits).length := by
  unfold field
  split_ifs <;> simp <;> omega

theorem formatStep_directive (d : Directive) (h : d.output ap = some (out, ap'))
    (hlen : out.length < 2 ^ 31) :
    ∃ c t, d.text ++ fmt = c :: t ∧ formatStep c t ap = some (out, fmt, ap') := by
  cases d with
  | lit c hc =>
    obtain ⟨rfl, rfl⟩ : [c] = out ∧ ap = ap' := by simpa [Directive.output] using h
    exact ⟨c, fmt, rfl, if_neg hc⟩
  | percent =>
    obtain ⟨rfl, rfl⟩ : ['%'] = out ∧ ap = ap' := by simpa [Directive.output] using h
    exact ⟨'%', '%' :: fmt, rfl, rfl⟩
  | chr =>
    match ap with
    | .word w :: ap =>
      obtain ⟨rfl, rfl⟩ : [Char.ofNat (w.toNat % 256)] = out ∧ ap = ap' := by
        simpa [Directive.output] using h
      exact ⟨'%', 'c' :: fmt, rfl, rfl⟩
    | [] | .str _ :: _ => cases h
  | str =>
    match ap with
    | .str s :: ap =>
      obtain ⟨rfl, rfl⟩ : s = out ∧ ap = ap' := by simpa [Directive.output] using h
      exact ⟨'%', 's' :: fmt, rfl, rfl⟩
    | [] | .word _ :: _ => cases h
  | hex upper zero width =>
    match ap with
    | .word w :: ap =>
      obtain ⟨rfl, rfl⟩ := Prod.mk.inj (Option.some.inj h)
      have hw : width < 2 ^ 31 := field_width_le.trans_lt hlen
      refine ⟨'%', flagText zero ++ (widthText width ++ (if upper then 'X' else 'x') :: fmt),
        by simp [Directive.text], ?_⟩
      cases upper with
      | false =>
        have hp := @parseSpec_width fmt 'x' width rfl (by simp) zero
        simp [formatStep, hp, conversion, vaWord, convX_eq hexDigit_lower hw]
      | true =>
        have hp := @parseSpec_width fmt 'X' width rfl (by simp) zero
        simp [formatStep, hp, conversion, vaWord, convX_eq hexDigit_upper hw]
    | [] | .str _ :: _ => cases h

theorem formatFrom_text {ds : List Directive} {n : Nat} (hn : (ds.flatMap Directive.text).length ≤ n)
    (h : expected ds ap = some out) (hlen : out.length < 2 ^ 31) :
    formatFrom n (ds.flatMap Directive.text) ap = some out := by
  induction ds generalizing ap out n with
  | nil =>
    obtain rfl : [] = out := Option.some.inj h
    cases n <;> rfl
  | cons d ds ih =>
    obtain ⟨⟨out₁, ap₁⟩, hd, h⟩ := Option.bind_eq_some_iff.mp h
    obtain ⟨out₂, hds, rfl⟩ := Option.map_eq_some_iff.mp h
    simp only [List.length_append] at hlen
    obtain ⟨c, t, ht, hstep⟩ := formatStep_directive (ds.flatMap Directive.text) d hd (by omega)
    have hpos : 1 ≤ d.text.length := by cases d <;> simp [Directive.text]
    have hlength := congrArg List.length ht
    rw [List.flatMap_cons, ht] at hn ⊢
    rw [List.length_append, List.length_cons] at hlength
    rw [List.length_cons] at hn
    obtain ⟨m, rfl⟩ : ∃ m, n = m + 1 := ⟨n - 1, by omega⟩
    rw [formatFrom, hstep, Option.bind_some, ih (by omega) hds (by omega), Option.map_some]

/-- `vsprintf` renders these conversions as the standard does. -/
theorem vsprintf_expected (ds : List Directive) (ap : List VaArg) (text : List Char)
    (h : expected ds ap = some text) (hlen : text.length < 2 ^ 31) :
    ∃ ret, vsprintf (ds.flatMap Directive.text) ap = some (text ++ [Char.ofNat 0], ret) ∧
      ret.toInt = text.length := by
  refine ⟨BitVec.ofNat 32 text.length, ?_, ?_⟩
  · rw [vsprintf, formatFrom_text le_rfl h hlen]
    rfl
  · rw [BitVec.toInt_eq_toNat_of_lt] <;> rw [BitVec.toNat_ofNat] <;> omega

/-- `%s=%08X%%` -/
theorem vsprintf_expected_word : vsprintf ['%', 's', '=', '%', '0', '8', 'X', '%', '%']
    [.str ['p', 'c'], .word 0x80000abc#32] =
      some (['p', 'c', '=', '8', '0', '0', '0', '0', 'A', 'B', 'C', '%', Char.ofNat 0], 12#32) := by
  obtain ⟨ret, h, hret⟩ := vsprintf_expected [.str, .lit '=' (by decide), .hex true true 8, .percent]
    [.str ['p', 'c'], .word 0x80000abc#32]
    ['p', 'c', '=', '8', '0', '0', '0', '0', 'A', 'B', 'C', '%'] (by decide +kernel) (by decide)
  obtain rfl : ret = 12#32 := BitVec.eq_of_toInt_eq hret
  exact h

end Output

end Klib

end Npc
