import Npc.FormatInt

/-! `printf` of `klib/src/stdio.c`: `vsprintf` writes into a local array, whose size it does not
know. -/

namespace Npc

namespace Klib

section Size

def Spec.padded (spec : Spec) (digits : Nat) : Nat := max spec.width.toInt.toNat digits

/-- `%d` with its sign; the digit loop ends after one round on the least value. -/
def intSize (spec : Spec) (v : Word) : Nat :=
  if v = BitVec.intMin 32 then 1 + spec.padded 1
  else (if v.toInt < 0 then 1 else 0) + spec.padded (Nat.toDigits 10 v.toInt.natAbs).length

def hexSize (spec : Spec) (v : Word) : Nat := spec.padded (Nat.toDigits 16 v.toNat).length

def conversionSize (spec : Spec) (letter : Char) (ap : List VaArg) : Option (Nat × List VaArg) :=
  match letter with
  | 'c' => (vaWord ap).map fun r => (1, r.2)
  | 's' => (vaStr ap).map fun r => (r.1.length, r.2)
  | 'd' => (vaWord ap).map fun r => (intSize spec r.1, r.2)
  | 'x' | 'X' => (vaWord ap).map fun r => (hexSize spec r.1, r.2)
  | '%' => some (1, ap)
  | _ => none

def sizeStep (c : Char) (fmt : List Char) (ap : List VaArg) :
    Option (Nat × List Char × List VaArg) :=
  if c = '%' then
    match parseSpec fmt with
    | (_, []) => none
    | (spec, letter :: fmt) => (conversionSize spec letter ap).map fun r => (r.1, fmt, r.2)
  else some (1, fmt, ap)

def sizeFrom : Nat → List Char → List VaArg → Option Nat
  | _, [], _ => some 0
  | 0, _ :: _, _ => none
  | n + 1, c :: fmt, ap =>
    (sizeStep c fmt ap).bind fun r => (sizeFrom n r.2.1 r.2.2).map (r.1 + ·)

/-- The length of the text of a format: 1 for a literal character, `%c` and `%%`, the length of a
string, and for a number its digits or the width, whichever is more, and the sign. -/
def textSize (fmt : List Char) (ap : List VaArg) : Option Nat := sizeFrom fmt.length fmt ap

variable {spec : Spec} {v : Word} {c letter : Char} {fmt : List Char} {ap : List VaArg}

theorem length_emit_padded (spec : Spec) (buffer : List Char) :
    (emit spec buffer).length = spec.padded buffer.length := by
  rw [length_emit, Spec.padded]
  omega

theorem length_convD : (convD spec v).length = intSize spec v := by
  rw [convD, intSize]
  by_cases hmin : v = BitVec.intMin 32
  · have hneg : (BitVec.intMin 32).toInt < 0 := by decide
    rw [hmin, if_pos hneg, if_pos rfl, decDigits_intMin, List.length_cons, length_emit_padded,
      Nat.add_comm]
    rfl
  · rw [if_neg hmin]
    by_cases hneg : v.toInt < 0
    · rw [if_pos hneg, if_pos hneg, decDigits_neg hneg hmin, List.length_cons, length_emit_padded,
        List.length_reverse, Nat.add_comm]
    · rw [if_neg hneg, if_neg hneg, decDigits_natAbs (not_lt.mp hneg), length_emit_padded,
        List.length_reverse, Nat.zero_add]

theorem length_convX {base : Char} {f : Char → Char}
    (h : ∀ d < 16, hexDigit base d = f d.digitChar) : (convX spec base v).length = hexSize spec v := by
  rw [convX, length_emit_padded, hexDigits_eq h (by decide) (v.isLt.trans (by decide)),
    List.length_reverse, List.length_map, hexSize]

theorem conversionSize_eq : conversionSize spec letter ap =
    (conversion spec letter ap).map fun r => (r.1.length, r.2) := by
  unfold conversionSize conversion
  split <;> simp [Function.comp_def, length_convD, length_convX hexDigit_lower,
    length_convX hexDigit_upper]

theorem sizeStep_eq : sizeStep c fmt ap =
    (formatStep c fmt ap).map fun r => (r.1.length, r.2) := by
  unfold sizeStep formatStep
  split_ifs with hc
  · obtain ⟨spec, rest⟩ := parseSpec fmt
    cases rest with
    | nil => rfl
    | cons letter fmt => simp [conversionSize_eq, Function.comp_def]
  · rfl

theorem sizeFrom_eq {n : Nat} : sizeFrom n fmt ap = (formatFrom n fmt ap).map List.length := by
  induction n generalizing fmt ap with
  | zero => cases fmt <;> rfl
  | succ n ih =>
    cases fmt with
    | nil => rfl
    | cons c fmt =>
      rw [sizeFrom, formatFrom, sizeStep_eq]
      cases formatStep c fmt ap with
      | none => rfl
      | some r =>
        simp only [Option.map_some, Option.bind_some, ih, Option.map_map]
        congr 1
        funext text
        simp

end Size

section Array

/-- The entries of the array `out`. -/
def outSize : Nat := 128

/-- `*out++ = c` for the characters of a text, each with the index it goes to. -/
def writesFrom : Nat → List Char → List (Nat × Char)
  | _, [] => []
  | out, c :: text => (out, c) :: writesFrom (out + 1) text

def outWrites (fmt : List Char) (ap : List VaArg) : Option (List (Nat × Char)) :=
  (vsprintf fmt ap).map fun r => writesFrom 0 r.1

def store (out : Nat → Char) (w : Nat × Char) : Nat → Char := Function.update out w.1 w.2

/-- `for (const char *p = out; *p; p++) putch(*p);` up to the end of the array. -/
def putchFrom (out : Nat → Char) : Nat → Nat → List Char
  | 0, _ => []
  | n + 1, p => if out p = Char.ofNat 0 then [] else out p :: putchFrom out n (p + 1)

inductive PrintfFault
  | panic
  | outOfBounds (index : Nat)
  deriving DecidableEq, Repr

/-- `printf`: what `putch` gets, and the result. `stack` is what the array holds at first. -/
def printf (stack : Nat → Char) (fmt : List Char) (ap : List VaArg) :
    Except PrintfFault (List Char × BitVec 32) :=
  match vsprintf fmt ap with
  | none => .error .panic
  | some (text, ret) =>
    match (writesFrom 0 text).find? fun w => outSize ≤ w.1 with
    | some w => .error (.outOfBounds w.1)
    | none => .ok (putchFrom ((writesFrom 0 text).foldl store stack) outSize 0, ret)

def InBounds (fmt : List Char) (ap : List VaArg) : Prop :=
  ∀ writes ∈ outWrites fmt ap, ∀ w ∈ writes, w.1 < outSize

variable {text : List Char} {out : Nat → Char} {ret : BitVec 32} {fmt : List Char}
  {ap : List VaArg} {i j p n : Nat} {c : Char}

theorem writesFrom_index (text : List Char) (p : Nat) :
    (writesFrom p text).map Prod.fst = List.range' p text.length := by
  induction text generalizing p with
  | nil => rfl
  | cons c text ih => simp [writesFrom, List.range'_succ, ih]

theorem writes_inBounds_iff : (∀ w ∈ writesFrom 0 text, w.1 < n) ↔ text.length ≤ n := by
  have hindex : (∀ w ∈ writesFrom 0 text, w.1 < n) ↔ ∀ i < text.length, i < n := by
    rw [← List.forall_mem_map (f := Prod.fst) (P := (· < n)), writesFrom_index]
    simp
  rw [hindex]
  constructor
  · intro h
    by_contra hlen
    exact absurd (h n (not_le.mp hlen)) (lt_irrefl n)
  · exact fun hlen i hi => hi.trans_le hlen

theorem foldl_store_of_lt (h : i < p) : (writesFrom p text).foldl store out i = out i := by
  induction text generalizing p out with
  | nil => rfl
  | cons c text ih =>
    rw [writesFrom, List.foldl_cons, ih (h.trans (Nat.lt_succ_self p)), store,
      Function.update_of_ne (Nat.ne_of_lt h)]

theorem foldl_store (h : text[j]? = some c) : (writesFrom p text).foldl store out (p + j) = c := by
  induction text generalizing p j out with
  | nil => cases h
  | cons d text ih =>
    rw [writesFrom, List.foldl_cons]
    cases j with
    | zero =>
      obtain rfl : d = c := by simpa using h
      exact (foldl_store_of_lt (Nat.lt_succ_self p)).trans (by simp [store])
    | succ j =>
      have hj : text[j]? = some c := by simpa using h
      have hindex : p + (j + 1) = p + 1 + j := by omega
      rw [hindex]
      exact ih hj

/-- The loop prints the text that stands in the array, up to its first NUL. -/
theorem putchFrom_eq (h : ∀ j c, text[j]? = some c → out (p + j) = c)
    (hnul : Char.ofNat 0 ∈ text) (hlen : text.length ≤ n) :
    putchFrom out n p = text.takeWhile (· ≠ Char.ofNat 0) := by
  induction text generalizing p n with
  | nil => cases hnul
  | cons c text ih =>
    obtain ⟨k, rfl⟩ := Nat.exists_eq_succ_of_ne_zero (Nat.ne_of_gt (Nat.zero_lt_of_lt hlen))
    have hc : out p = c := h 0 c rfl
    rw [putchFrom, hc]
    by_cases h0 : c = Char.ofNat 0
    · simp [h0]
    · have hrest : ∀ j d, text[j]? = some d → out (p + 1 + j) = d := by
        intro j d hd
        rw [Nat.add_assoc, Nat.add_comm 1]
        exact h (j + 1) d (by simpa using hd)
      have hmem : Char.ofNat 0 ∈ text := (List.mem_cons.mp hnul).resolve_left (Ne.symm h0)
      rw [if_neg h0, ih hrest hmem (Nat.le_of_succ_le_succ hlen)]
      simp [h0]

theorem inBounds_of_vsprintf (h : vsprintf fmt ap = some (text, ret)) :
    InBounds fmt ap ↔ text.length ≤ outSize := by
  rw [InBounds, outWrites, h, ← writes_inBounds_iff]
  simp

theorem nul_mem_vsprintf (h : vsprintf fmt ap = some (text, ret)) : Char.ofNat 0 ∈ text := by
  obtain ⟨t, -, ht⟩ := Option.map_eq_some_iff.mp h
  obtain ⟨rfl, -⟩ := Prod.mk.inj ht
  exact List.mem_append_right t List.mem_cons_self

/-- Within its bounds the array holds the text, and `printf` prints it up to its first NUL. -/
theorem printf_of_inBounds (stack : Nat → Char) (h : vsprintf fmt ap = some (text, ret))
    (hin : InBounds fmt ap) :
    printf stack fmt ap = .ok (text.takeWhile (· ≠ Char.ofNat 0), ret) := by
  have hlen := (inBounds_of_vsprintf h).mp hin
  have hfind : (writesFrom 0 text).find? (fun w => outSize ≤ w.1) = none := by
    rw [List.find?_eq_none]
    intro w hw
    simpa using writes_inBounds_iff.mpr hlen w hw
  rw [printf, h]
  simp only [hfind]
  rw [putchFrom_eq (fun j c hj => ?_) (nul_mem_vsprintf h) hlen]
  exact foldl_store hj

/-- `printf` stays inside its array just when the text leaves room for the NUL. -/
theorem printf_inBounds_iff (fmt : List Char) (ap : List VaArg) :
    InBounds fmt ap ↔ ∀ size ∈ textSize fmt ap, size < outSize := by
  rw [textSize, sizeFrom_eq]
  cases htext : formatFrom fmt.length fmt ap with
  | none => simp [InBounds, outWrites, vsprintf, htext]
  | some text =>
    have h : vsprintf fmt ap = some (text ++ [Char.ofNat 0], BitVec.ofNat 32 text.length) := by
      rw [vsprintf, htext]
      rfl
    rw [inBounds_of_vsprintf h, List.length_append, List.length_singleton]
    simp only [Option.map_some, Option.mem_some_iff, forall_eq']
    exact Nat.succ_le_iff

/-- `%128d` of 0 puts the NUL behind the array. -/
theorem printf_not_inBounds : ¬ InBounds ['%', '1', '2', '8', 'd'] [.word 0#32] := by
  intro h
  exact absurd (h _ rfl (128, Char.ofNat 0) (by decide +kernel)) (by decide)

end Array

end Klib

end Npc
