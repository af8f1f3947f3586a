import Npc.Memmove

/-! `strcmp`, `strncmp` and `memcmp` of `klib/src/string.c`. They compare characters for equality
only, so that it does not matter whether `char` has a sign. -/

namespace Npc

namespace Klib

section Loops

variable (pmem : Pmem)

/-- `*(const unsigned char *)s1 - *(const unsigned char *)s2`, an `int`. -/
def difference (s1 s2 : Word) : BitVec 32 := (pmem s1).setWidth 32 - (pmem s2).setWidth 32

/-- The loop of `strcmp`; `none` is a budget used up. -/
def strcmpFrom : Nat → Word → Word → Option (BitVec 32)
  | 0, _, _ => none
  | n + 1, s1, s2 =>
    if pmem s1 ≠ 0#8 ∧ pmem s1 = pmem s2 then strcmpFrom n (s1 + 1#32) (s2 + 1#32)
    else some (difference pmem s1 s2)

/-- After 2^32 rounds `s1` has been through all addresses, and the loop goes on for ever. -/
def strcmp (s1 s2 : Word) : Option (BitVec 32) := strcmpFrom pmem (2 ^ 32) s1 s2

def strncmpFrom : Nat → Word → Word → BitVec 32
  | 0, _, _ => 0#32
  | n + 1, s1, s2 =>
    if pmem s1 ≠ pmem s2 then difference pmem s1 s2
    else if pmem s1 = 0#8 then 0#32
    else strncmpFrom n (s1 + 1#32) (s2 + 1#32)

def strncmp (s1 s2 n : Word) : BitVec 32 := if n = 0#32 then 0#32 else strncmpFrom pmem n.toNat s1 s2

def memcmpFrom : Nat → Word → Word → BitVec 32
  | 0, _, _ => 0#32
  | n + 1, s1, s2 =>
    if pmem s1 ≠ pmem s2 then difference pmem s1 s2 else memcmpFrom n (s1 + 1#32) (s2 + 1#32)

def memcmp (s1 s2 n : Word) : BitVec 32 := memcmpFrom pmem n.toNat s1 s2

/-- A NUL-terminated string. -/
def CString : Word → List (BitVec 8) → Prop
  | p, [] => pmem p = 0#8
  | p, c :: s => pmem p = c ∧ c ≠ 0#8 ∧ CString (p + 1#32) s

instance decidableCString : ∀ p s, Decidable (CString pmem p s)
  | p, [] => inferInstanceAs (Decidable (pmem p = 0#8))
  | p, c :: s =>
    have := decidableCString (p + 1#32) s
    inferInstanceAs (Decidable (pmem p = c ∧ c ≠ 0#8 ∧ CString pmem (p + 1#32) s))

end Loops

/-- The sign of an `int`. -/
def sign (r : BitVec 32) : Ordering := compare r.toInt 0

/-- Lexicographic order of the bytes as unsigned values; a proper prefix is smaller. -/
def lexCompare : List (BitVec 8) → List (BitVec 8) → Ordering :=
  List.compareLex fun x y => compare x.toNat y.toNat

section Compare

variable {pmem : Pmem} {s1 s2 p : Word} {a b s : List (BitVec 8)} {n : Nat}

theorem byteAt_succ (p : Word) (i : Nat) : byteAt (p + 1#32) i = byteAt p (i + 1) := by
  rw [byteAt, byteAt, BitVec.ofNat_add, BitVec.add_assoc, BitVec.add_comm 1#32]

theorem sign_difference : sign (difference pmem s1 s2) = compare (pmem s1).toNat (pmem s2).toNat := by
  have h1 := (pmem s1).isLt
  have h2 := (pmem s2).isLt
  have hint : (difference pmem s1 s2).toInt = (pmem s1).toNat - (pmem s2).toNat := by
    rw [difference, BitVec.toInt_sub, BitVec.toInt_setWidth, BitVec.toInt_setWidth,
      Int.bmod_eq_of_le_mul_two (x := ((pmem s1).toNat : Int)) (by omega) (by omega),
      Int.bmod_eq_of_le_mul_two (x := ((pmem s2).toNat : Int)) (by omega) (by omega),
      Int.bmod_eq_of_le_mul_two (by omega) (by omega)]
  rw [sign, hint]
  rcases Nat.lt_trichotomy (pmem s1).toNat (pmem s2).toNat with h | h | h
  · rw [Nat.compare_eq_lt.mpr h, Int.compare_eq_lt]
    omega
  · rw [Nat.compare_eq_eq.mpr h, Int.compare_eq_eq]
    omega
  · rw [Nat.compare_eq_gt.mpr h, Int.compare_eq_gt]
    omega

theorem lexCompare_cons {c d : BitVec 8} :
    lexCompare (c :: a) (d :: b) = if c = d then lexCompare a b else compare c.toNat d.toNat := by
  rw [lexCompare, List.compareLex_cons_cons]
  split_ifs with h
  · rw [h, Nat.compare_eq_eq.mpr rfl, Ordering.eq_then]
  · have hne : compare c.toNat d.toNat ≠ .eq := fun he =>
      h (BitVec.eq_of_toNat_eq (Nat.compare_eq_eq.mp he))
    cases hc : compare c.toNat d.toNat with
    | lt => rfl
    | eq => exact absurd hc hne
    | gt => rfl

theorem compare_zero_left {c : BitVec 8} (h : c ≠ 0#8) : compare (0#8).toNat c.toNat = .lt :=
  Nat.compare_eq_lt.mpr (BitVec.toNat_pos_of_ne_zero h)

theorem compare_zero_right {c : BitVec 8} (h : c ≠ 0#8) : compare c.toNat (0#8).toNat = .gt :=
  Nat.compare_eq_gt.mpr (BitVec.toNat_pos_of_ne_zero h)

/-- Induction on the rounds left, with the two strings from the pointers on. -/
theorem sign_strncmpFrom (h1 : CString pmem s1 a) (h2 : CString pmem s2 b) :
    sign (strncmpFrom pmem n s1 s2) = lexCompare (a.take n) (b.take n) := by
  induction n generalizing s1 s2 a b with
  | zero => rfl
  | succ n ih =>
    rw [strncmpFrom]
    cases a with
    | nil =>
      cases b with
      | nil =>
        rw [CString] at h1 h2
        rw [if_neg (by simp [h1, h2]), if_pos h1]
        rfl
      | cons d b =>
        obtain ⟨hd, hne, -⟩ := h2
        rw [CString] at h1
        rw [if_pos (by rw [h1, hd]; exact hne.symm), sign_difference, h1, hd]
        exact compare_zero_left hne
    | cons c a =>
      obtain ⟨hc, hne, h1⟩ := h1
      cases b with
      | nil =>
        rw [CString] at h2
        rw [if_pos (by rw [h2, hc]; exact hne), sign_difference, h2, hc]
        exact compare_zero_right hne
      | cons d b =>
        obtain ⟨hd, -, h2⟩ := h2
        rw [List.take_succ_cons, List.take_succ_cons, lexCompare_cons, hc, hd]
        by_cases hcd : c = d
        · rw [if_neg (not_not.mpr hcd), if_neg hne, if_pos hcd]
          exact ih h1 h2
        · rw [if_pos hcd, if_neg hcd, sign_difference, hc, hd]

/-- Where `strcmp` returns, it returns what `strncmp` does with as many rounds. -/
theorem strncmpFrom_of_strcmpFrom {r : BitVec 32} (h : strcmpFrom pmem n s1 s2 = some r) :
    strncmpFrom pmem n s1 s2 = r := by
  induction n generalizing s1 s2 with
  | zero => cases h
  | succ n ih =>
    rw [strcmpFrom] at h
    rw [strncmpFrom]
    split_ifs at h with hloop
    · rw [if_neg (not_not.mpr hloop.2), if_neg hloop.1]
      exact ih h
    · obtain rfl := Option.some.inj h
      by_cases heq : pmem s1 = pmem s2
      · have h0 : pmem s1 = 0#8 := by_contra fun hne => hloop ⟨hne, heq⟩
        rw [if_neg (not_not.mpr heq), if_pos h0, difference, heq, BitVec.sub_self]
      · rw [if_pos heq]

theorem memcmpFrom_eq (h : ∀ i < n, pmem (byteAt s1 i) ≠ 0#8) :
    memcmpFrom pmem n s1 s2 = strncmpFrom pmem n s1 s2 := by
  induction n generalizing s1 s2 with
  | zero => rfl
  | succ n ih =>
    have h0 : pmem s1 ≠ 0#8 := by simpa [byteAt] using h 0 (Nat.succ_pos n)
    rw [memcmpFrom, strncmpFrom, if_neg h0, ih]
    intro i hi
    rw [byteAt_succ]
    exact h (i + 1) (Nat.succ_lt_succ hi)

theorem strcmpFrom_isSome (h : CString pmem s1 a) (hn : a.length < n) :
    (strcmpFrom pmem n s1 s2).isSome = true := by
  induction a generalizing s1 s2 n with
  | nil =>
    obtain ⟨k, rfl⟩ := Nat.exists_eq_succ_of_ne_zero (Nat.ne_of_gt hn)
    rw [CString] at h
    simp [strcmpFrom, h]
  | cons c a ih =>
    obtain ⟨hc, hne, h⟩ := h
    obtain ⟨k, rfl⟩ := Nat.exists_eq_succ_of_ne_zero (Nat.ne_of_gt (Nat.zero_lt_of_lt hn))
    rw [strcmpFrom]
    split_ifs
    · exact ih h (Nat.lt_of_succ_lt_succ hn)
    · rfl

theorem CString.ne_nul (h : CString pmem p s) {i : Nat} (hi : i < s.length) :
    pmem (byteAt p i) ≠ 0#8 := by
  induction s generalizing p i with
  | nil => exact absurd hi (Nat.not_lt_zero i)
  | cons c s ih =>
    obtain ⟨hc, hne, h⟩ := h
    cases i with
    | zero => simpa [byteAt, hc] using hne
    | succ i =>
      rw [← byteAt_succ]
      exact ih h (Nat.lt_of_succ_lt_succ hi)

theorem CString.nul (h : CString pmem p s) : pmem (byteAt p s.length) = 0#8 := by
  induction s generalizing p with
  | nil => simpa [byteAt, CString] using h
  | cons c s ih =>
    rw [List.length_cons, ← byteAt_succ]
    exact ih h.2.2

/-- A longer string would meet its own NUL. -/
theorem CString.length_lt (h : CString pmem p s) : s.length < 2 ^ 32 := by
  by_contra hlen
  obtain ⟨k, hk⟩ := Nat.exists_eq_add_of_le' (not_lt.mp hlen)
  have haddr : byteAt p k = byteAt p s.length := by
    rw [byteAt, byteAt, hk, BitVec.ofNat_add]
    exact congrArg (p + ·) (BitVec.add_zero _).symm
  have hne := h.ne_nul (i := k) (by omega)
  rw [haddr] at hne
  exact hne h.nul

theorem strcmp_spec (h1 : CString pmem s1 a) (h2 : CString pmem s2 b) :
    ∃ r, strcmp pmem s1 s2 = some r ∧ sign r = lexCompare a b := by
  have hreturns : (strcmpFrom pmem (2 ^ 32) s1 s2).isSome = true :=
    strcmpFrom_isSome h1 h1.length_lt
  obtain ⟨r, hr⟩ := Option.isSome_iff_exists.mp hreturns
  have hsign := sign_strncmpFrom (n := 2 ^ 32) h1 h2
  rw [strncmpFrom_of_strcmpFrom hr, List.take_of_length_le h1.length_lt.le,
    List.take_of_length_le h2.length_lt.le] at hsign
  exact ⟨r, hr, hsign⟩

theorem strncmp_eq (n : Word) : strncmp pmem s1 s2 n = strncmpFrom pmem n.toNat s1 s2 := by
  unfold strncmp
  split_ifs with h0
  · rw [h0]
    rfl
  · rfl

end Compare

/-- The three functions compare by one order, the lexicographic one. -/
theorem comparisons_agree (pmem : Pmem) (s1 s2 : Word) :
    (∀ a b, CString pmem s1 a → CString pmem s2 b →
      (∃ r, strcmp pmem s1 s2 = some r ∧ sign r = lexCompare a b) ∧
        ∀ (n : Word) (cut : Pmem) (t1 t2 : Word), CString cut t1 (a.take n.toNat) →
          CString cut t2 (b.take n.toNat) →
            ∃ r, strcmp cut t1 t2 = some r ∧ sign (strncmp pmem s1 s2 n) = sign r) ∧
      ∀ n : Word, (∀ i < n.toNat, pmem (byteAt s1 i) ≠ 0#8 ∧ pmem (byteAt s2 i) ≠ 0#8) →
        sign (memcmp pmem s1 s2 n) = sign (strncmp pmem s1 s2 n) := by
  refine ⟨fun a b h1 h2 => ⟨strcmp_spec h1 h2, fun n cut t1 t2 hc1 hc2 => ?_⟩, fun n hn => ?_⟩
  · obtain ⟨r, hr, hsign⟩ := strcmp_spec hc1 hc2
    refine ⟨r, hr, ?_⟩
    rw [strncmp_eq, sign_strncmpFrom h1 h2, hsign]
  · rw [strncmp_eq, memcmp, memcmpFrom_eq fun i hi => (hn i hi).1]

/-- `"ab"` and `"abc"` -/
theorem comparisons_agree_prefix :
    ∃ r, strcmp (image [0x00006261#32, 0x00636261#32]) 0x80000000#32 0x80000004#32 = some r ∧
      sign r = .lt :=
  ((comparisons_agree (image [0x00006261#32, 0x00636261#32]) 0x80000000#32 0x80000004#32).1
    [0x61#8, 0x62#8] [0x61#8, 0x62#8, 0x63#8] (by decide +kernel) (by decide +kernel)).1

end Klib

end Npc
