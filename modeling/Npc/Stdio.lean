import Npc.DigitLoop
import Npc.Macro

/-! `vsprintf` and `sprintf` of `klib/src/stdio.c`. A C string is the list of its characters, and a
missing head of it the final NUL. -/

namespace Npc

namespace Klib

/-- An argument of a variadic call: a 32-bit value, or a pointer to a string. -/
inductive VaArg
  | word (w : Word)
  | str (s : List Char)
  deriving DecidableEq, Repr

def vaWord : List VaArg → Option (Word × List VaArg)
  | .word w :: ap => some (w, ap)
  | _ => none

def vaStr : List VaArg → Option (List Char × List VaArg)
  | .str s :: ap => some (s, ap)
  | _ => none

/-- What stands between `%` and the letter of a conversion. -/
structure Spec where
  pad : Char
  longFlag : Bool
  width : BitVec 32
  deriving DecidableEq, Repr

/-- `while (*fmt >= '0' && *fmt <= '9')`; `width` is an `int`. -/
def parseWidth : List Char → BitVec 32 → BitVec 32 × List Char
  | [], width => (width, [])
  | c :: fmt, width =>
    if c.isDigit then parseWidth fmt (width * 10#32 + BitVec.ofNat 32 (c.toNat - 48))
    else (width, c :: fmt)

def parseSpec (fmt : List Char) : Spec × List Char :=
  let zero := fmt.head? = some '0'
  let fmt := if zero then fmt.tail else fmt
  let long := fmt.head? = some 'l'
  let fmt := if long then fmt.tail else fmt
  let r := parseWidth fmt 0#32
  (⟨if zero then '0' else ' ', long, r.1⟩, r.2)

/-- The entries of `buffer`, which bound the rounds of the digit loops. -/
def bufferSize : Nat := 32

/-- `'0' + (value % 10)` and on, least significant first; `long` has 32 bits. -/
def decDigits : Nat → BitVec 32 → List Char
  | 0, _ => []
  | n + 1, value =>
    Char.ofNat (48 + (value.srem 10#32).toInt).toNat ::
      if (value.sdiv 10#32).toInt > 0 then decDigits n (value.sdiv 10#32) else []

def hexDigit (base : Char) (d : Nat) : Char :=
  if d < 10 then Char.ofNat (48 + d) else Char.ofNat (base.toNat + d - 10)

def hexDigits (base : Char) : Nat → Word → List Char
  | 0, _ => []
  | n + 1, valuex =>
    hexDigit base (valuex &&& 0xf#32).toNat ::
      if valuex >>> 4 = 0#32 then [] else hexDigits base n (valuex >>> 4)

/-- The loop that pads up to the width, and the one that empties the buffer. -/
def emit (spec : Spec) (buffer : List Char) : List Char :=
  List.replicate (spec.width.toInt - buffer.length).toNat spec.pad ++ buffer.reverse

def convD (spec : Spec) (value : BitVec 32) : List Char :=
  if value.toInt < 0 then '-' :: emit spec (decDigits bufferSize (-value))
  else emit spec (decDigits bufferSize value)

def convX (spec : Spec) (base : Char) (valuex : Word) : List Char :=
  emit spec (hexDigits base bufferSize valuex)

/-- The `switch`: what is written, and the arguments left. -/
def conversion (spec : Spec) (letter : Char) (ap : List VaArg) : Option (List Char × List VaArg) :=
  match letter with
  | 'c' => (vaWord ap).map fun r => ([Char.ofNat (r.1.toNat % 256)], r.2)
  | 's' => vaStr ap
  | 'd' => (vaWord ap).map fun r => (convD spec r.1, r.2)
  | 'x' => (vaWord ap).map fun r => (convX spec 'a' r.1, r.2)
  | 'X' => (vaWord ap).map fun r => (convX spec 'A' r.1, r.2)
  | '%' => some (['%'], ap)
  | _ => none

/-- One round of the loop over the format, which is not at its end: what is written, the format and
the arguments left. It is `none` where the code panics or an argument is missing. -/
def formatStep (c : Char) (fmt : List Char) (ap : List VaArg) :
    Option (List Char × List Char × List VaArg) :=
  if c = '%' then
    match parseSpec fmt with
    | (_, []) => none
    | (spec, letter :: fmt) => (conversion spec letter ap).map fun r => (r.1, fmt, r.2)
  else some ([c], fmt, ap)

/-- The loop over the format; each round consumes a character at least. -/
def formatFrom : Nat → List Char → List VaArg → Option (List Char)
  | _, [], _ => some []
  | 0, _ :: _, _ => none
  | n + 1, c :: fmt, ap =>
    (formatStep c fmt ap).bind fun r => (formatFrom n r.2.1 r.2.2).map (r.1 ++ ·)

/-- `vsprintf`: the characters it writes from `out` on, and its result. -/
def vsprintf (fmt : List Char) (ap : List VaArg) : Option (List Char × BitVec 32) :=
  (formatFrom fmt.length fmt ap).map fun text =>
    (text ++ [Char.ofNat 0], BitVec.ofNat 32 text.length)

def sprintf (fmt : List Char) (ap : List VaArg) : Option (List Char × BitVec 32) := vsprintf fmt ap

example : vsprintf ['%', '0', '5', 'd', '%', 'X'] [.word 42#32, .word 0xab#32] =
    some (['0', '0', '0', '4', '2', 'A', 'B', Char.ofNat 0], 7#32) := by decide +kernel

section Digits

variable {v : Word} {n : Nat}

theorem hexDigits_eq {base : Char} {f : Char → Char}
    (h : ∀ d < 16, hexDigit base d = f d.digitChar) (hn : 0 < n) (hv : v.toNat < 16 ^ n) :
    hexDigits base n v = ((Nat.toDigits 16 v.toNat).map f).reverse := by
  rw [← DigitLoop.digits_eq f (by decide) hn hv]
  clear hn hv
  induction n generalizing v with
  | zero => rfl
  | succ n ih =>
    have hlow : (v &&& 0xf#32).toNat = v.toNat % 16 := by
      rw [BitVec.toNat_and]
      exact Nat.and_two_pow_sub_one_eq_mod v.toNat 4
    have hhigh : (v >>> 4).toNat = v.toNat / 16 := by
      rw [BitVec.toNat_ushiftRight, Nat.shiftRight_eq_div_pow]
    have hzero : v >>> 4 = 0#32 ↔ v.toNat / 16 = 0 := by
      rw [← hhigh, ← BitVec.toNat_inj]
      rfl
    simp only [hexDigits, DigitLoop.digits, hzero, hlow, ih, hhigh, h _ (Nat.mod_lt _ (by decide))]

theorem hexDigit_lower : ∀ d < 16, hexDigit 'a' d = id d.digitChar := by decide

theorem hexDigit_upper : ∀ d < 16, hexDigit 'A' d = d.digitChar.toUpper := by decide

theorem digitChar_eq : ∀ d < 10, Char.ofNat (48 + d) = d.digitChar := by decide

theorem decDigits_eq (hn : 0 < n) (h0 : 0 ≤ v.toInt) (hv : v.toNat < 10 ^ n) :
    decDigits n v = (Nat.toDigits 10 v.toNat).reverse := by
  have hloop : decDigits n v = DigitLoop.digits 10 (fun d => id d.digitChar) n v.toNat := by
    clear hn hv
    induction n generalizing v with
    | zero => rfl
    | succ n ih =>
      have hmsb : v.msb = false := by simpa [BitVec.msb_eq_toInt] using h0
      have hdiv : v.sdiv 10#32 = v / 10#32 := by
        rw [BitVec.sdiv_eq, hmsb]
        rfl
      have hrem : v.srem 10#32 = v % 10#32 := by
        rw [BitVec.srem_eq, hmsb]
        rfl
      have hdivNat : (v / 10#32).toNat = v.toNat / 10 := rfl
      have hremNat : (v % 10#32).toNat = v.toNat % 10 := rfl
      have hdivInt : (v / 10#32).toInt = (v.toNat / 10 : Nat) :=
        BitVec.toInt_eq_toNat_of_lt (by omega)
      have hremInt : (v % 10#32).toInt = (v.toNat % 10 : Nat) :=
        BitVec.toInt_eq_toNat_of_lt (by omega)
      have hchar : Char.ofNat (48 + (v % 10#32).toInt).toNat = (v.toNat % 10).digitChar := by
        rw [hremInt, ← digitChar_eq _ (Nat.mod_lt _ (by decide))]
        rfl
      have hpos : (v / 10#32).toInt > 0 ↔ ¬ v.toNat / 10 = 0 := by omega
      rw [decDigits, DigitLoop.digits, hdiv, hrem, ih (by omega), hchar, hdivNat]
      by_cases hz : v.toNat / 10 = 0 <;> simp [hpos, hz]
  rw [hloop, DigitLoop.digits_eq id (by decide) hn hv, List.map_id]

end Digits

end Klib

end Npc
