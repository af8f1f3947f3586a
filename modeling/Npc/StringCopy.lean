import Npc.Strcmp

/-! `strlen`, `strcpy` and `strcat` of `klib/src/string.c`. A loop that a NUL ends has a
budget of rounds; of 2^32 rounds without a NUL none leaves one in memory, and the loop goes on. -/

namespace Npc

namespace Klib

section Loops

variable (pmem : Pmem)

def strlenFrom : Nat → Word → Word → Option Word
  | 0, _, _ => none
  | n + 1, s, len => if pmem s ≠ 0#8 then strlenFrom n (s + 1#32) (len + 1#32) else some len

def strlen (s : Word) : Option Word := strlenFrom pmem (2 ^ 32) s 0#32

/-- The first loop of `strcat`. -/
def strendFrom : Nat → Word → Option Word
  | 0, _ => none
  | n + 1, dest => if pmem dest ≠ 0#8 then strendFrom n (dest + 1#32) else some dest

end Loops

/-- The loop of `strcpy`, and the second one of `strcat`, with the NUL written behind it. -/
def strcpyFrom : Nat → Word → Word → Pmem → Option Pmem
  | 0, _, _, _ => none
  | n + 1, dest, src, m =>
    if m src ≠ 0#8 then strcpyFrom n (dest + 1#32) (src + 1#32) (Function.update m dest (m src))
    else some (Function.update m dest (m src))

def strcpy (dst src : Word) (pmem : Pmem) : Option (Word × Pmem) :=
  (strcpyFrom (2 ^ 32) dst src pmem).map fun m => (dst, m)

def strcat (dst src : Word) (pmem : Pmem) : Option (Word × Pmem) :=
  (strendFrom pmem (2 ^ 32) dst).bind fun dest =>
    (strcpyFrom (2 ^ 32) dest src pmem).map fun m => (dst, m)

section Copy

variable {pmem m : Pmem} {dst src p : Word} {d s : List (BitVec 8)} {n k : Nat}

theorem strlenFrom_eq (h : CString pmem p s) (hn : s.length < n) (len : Word) :
    strlenFrom pmem n p len = some (len + BitVec.ofNat 32 s.length) := by
  induction s generalizing p n len with
  | nil =>
    obtain ⟨k, rfl⟩ := Nat.exists_eq_succ_of_ne_zero (Nat.ne_of_gt hn)
    rw [CString] at h
    simp [strlenFrom, h]
  | cons c s ih =>
    obtain ⟨hc, hne, h⟩ := h
    obtain ⟨k, rfl⟩ := Nat.exists_eq_succ_of_ne_zero (Nat.ne_of_gt (Nat.zero_lt_of_lt hn))
    rw [strlenFrom, if_pos (by rwa [hc]), ih h (Nat.lt_of_succ_lt_succ hn), List.length_cons, BitVec.ofNat_add,
      BitVec.add_assoc, BitVec.add_comm 1#32]

theorem strendFrom_eq (h : CString pmem p s) (hn : s.length < n) :
    strendFrom pmem n p = some (byteAt p s.length) := by
  induction s generalizing p n with
  | nil =>
    obtain ⟨k, rfl⟩ := Nat.exists_eq_succ_of_ne_zero (Nat.ne_of_gt hn)
    rw [CString] at h
    simp [strendFrom, h, byteAt]
  | cons c s ih =>
    obtain ⟨hc, hne, h⟩ := h
    obtain ⟨k, rfl⟩ := Nat.exists_eq_succ_of_ne_zero (Nat.ne_of_gt (Nat.zero_lt_of_lt hn))
    rw [strendFrom, if_pos (by rwa [hc]), ih h (Nat.lt_of_succ_lt_succ hn), List.length_cons, byteAt_succ]

theorem byteAt_add_one (p : Word) (k : Nat) : byteAt p k + 1#32 = byteAt (p + 1#32) k := by
  rw [byteAt_succ, byteAt, byteAt, BitVec.ofNat_add, BitVec.add_assoc]

theorem byteAt_byteAt (p : Word) (i j : Nat) : byteAt (byteAt p i) j = byteAt p (i + j) := by
  rw [byteAt, byteAt, byteAt, BitVec.ofNat_add, BitVec.add_assoc]

theorem byteAt_ne_of_lt {i j : Nat} (hi : i < 2 ^ 32) (hj : j < 2 ^ 32) (hne : i ≠ j) :
    byteAt p i ≠ byteAt p j := by
  intro he
  have hh := congrArg BitVec.toNat (BitVec.add_right_inj p |>.mp he)
  rw [BitVec.toNat_ofNat, BitVec.toNat_ofNat, Nat.mod_eq_of_lt hi, Nat.mod_eq_of_lt hj] at hh
  exact hne hh

/-- A string read behind the writes: from a distance of at most its length every NUL is overwritten before it
is read. -/
theorem strcpyFrom_none (hk : 0 < k) (h : ∀ j < k, m (byteAt p j) ≠ 0#8) (n : Nat) :
    strcpyFrom n (byteAt p k) p m = none := by
  induction n generalizing p m with
  | zero => rfl
  | succ n ih =>
    have h0 : m p ≠ 0#8 := by simpa [byteAt] using h 0 hk
    rw [strcpyFrom, if_pos h0, byteAt_add_one]
    apply ih
    intro j hj
    rw [byteAt_succ]
    by_cases hw : byteAt p (j + 1) = byteAt p k
    · rwa [hw, Function.update_self]
    · rw [Function.update_of_ne hw]
      exact h (j + 1) (by
        by_contra hge
        exact hw (by rw [show j + 1 = k by omega]))

/-- A write `k` behind the pointer does not touch the string ahead of it. -/
theorem CString.update (h : CString pmem p s) {x : Word} (hx : ∀ i ≤ s.length, byteAt p i ≠ x) (b : BitVec 8) :
    CString (Function.update pmem x b) p s := by
  have h0 : p ≠ x := by simpa [byteAt] using hx 0 (Nat.zero_le _)
  induction s generalizing p with
  | nil =>
    rw [CString] at h ⊢
    rwa [Function.update_of_ne h0]
  | cons c s ih =>
    obtain ⟨hc, hne, h⟩ := h
    have hx' : ∀ i ≤ s.length, byteAt (p + 1#32) i ≠ x := by
      intro i hi
      rw [byteAt_succ]
      exact hx (i + 1) (Nat.succ_le_succ hi)
    exact ⟨by rwa [Function.update_of_ne h0], hne, ih h hx' (by simpa [byteAt] using hx' 0 (Nat.zero_le _))⟩

/-- The pointer of the writes is where the pointer of the reads has been, or beyond the NUL. -/
theorem strcpyFrom_copied (h : CString m src s) (hn : s.length < n) (hk : k = 0 ∨ s.length < k)
    (hk' : k < 2 ^ 32) :
    ∃ m', strcpyFrom n (byteAt src k) src m = some m' ∧ Copied (byteAt src k) src (s.length + 1) m m' := by
  induction s generalizing src n m with
  | nil =>
    obtain ⟨n, rfl⟩ := Nat.exists_eq_succ_of_ne_zero (Nat.ne_of_gt hn)
    rw [CString] at h
    refine ⟨_, by rw [strcpyFrom, if_neg (by simpa using h)], ?_⟩
    constructor
    case inside =>
      intro i hi
      obtain rfl : i = 0 := by simpa using hi
      simp [byteAt]
    case outside =>
      intro x hx
      exact Function.update_of_ne (by simpa [byteAt] using hx 0 (by simp)) _ _
  | cons c s ih =>
    have hlen := h.length_lt
    obtain ⟨hc, hne, h⟩ := h
    obtain ⟨n, rfl⟩ := Nat.exists_eq_succ_of_ne_zero (Nat.ne_of_gt (Nat.zero_lt_of_lt hn))
    rw [List.length_cons] at hn hk hlen
    have hahead : ∀ i ≤ s.length, byteAt src (i + 1) ≠ byteAt src k := by
      intro i hi
      exact byteAt_ne_of_lt (by omega) hk' (by omega)
    have hrest := h.update (x := byteAt src k) (by simpa only [byteAt_succ] using hahead) c
    obtain ⟨m', hm', hcopied⟩ := ih (n := n) hrest (by omega) (by omega)
    refine ⟨m', by rw [strcpyFrom, if_pos (by rwa [hc]), hc, byteAt_add_one, hm'], ?_⟩
    constructor
    case inside =>
      intro i hi
      cases i with
      | zero =>
        have hkeep : ∀ i < s.length + 1, byteAt (byteAt src k) 0 ≠ byteAt (byteAt (src + 1#32) k) i := by
          intro i hi
          rw [← byteAt_add_one, byteAt_succ]
          exact byteAt_ne_of_lt (by omega) (by omega) (by omega)
        rw [hcopied.outside _ hkeep]
        simp [byteAt, hc]
      | succ i =>
        have hh := hcopied.inside i (by simpa using hi)
        rw [← byteAt_add_one, byteAt_succ, byteAt_succ] at hh
        rw [hh, Function.update_of_ne (hahead i (by simp at hi; omega))]
    case outside =>
      intro x hx
      have hx0 : x ≠ byteAt src k := by simpa [byteAt] using hx 0 (by simp)
      rw [hcopied.outside x, Function.update_of_ne hx0]
      intro i hi
      rw [← byteAt_add_one, byteAt_succ]
      exact hx (i + 1) (by simpa using hi)

theorem byteAt_sub (dst src : Word) : byteAt src (dst - src).toNat = dst := by
  rw [byteAt, BitVec.ofNat_toNat, BitVec.setWidth_eq, BitVec.add_comm, BitVec.sub_add_cancel]

theorem CString.congr (h : CString pmem src s) (hcopy : ∀ i ≤ s.length, m (byteAt dst i) = pmem (byteAt src i)) :
    CString m dst s := by
  have h0 := hcopy 0 (Nat.zero_le _)
  simp only [byteAt, BitVec.add_zero] at h0
  induction s generalizing dst src with
  | nil => exact h0.trans h
  | cons c s ih =>
    obtain ⟨hc, hne, h⟩ := h
    have hcopy' : ∀ i ≤ s.length, m (byteAt (dst + 1#32) i) = pmem (byteAt (src + 1#32) i) := by
      intro i hi
      rw [byteAt_succ, byteAt_succ]
      exact hcopy (i + 1) (Nat.succ_le_succ hi)
    exact ⟨h0.trans hc, hne, ih h hcopy' (by simpa [byteAt] using hcopy' 0 (Nat.zero_le _))⟩

/-- A string that keeps its characters, followed by another one. -/
theorem CString.append (h : CString pmem p d) (hkeep : ∀ i < d.length, m (byteAt p i) = pmem (byteAt p i))
    (hs : CString m (byteAt p d.length) s) : CString m p (d ++ s) := by
  induction d generalizing p with
  | nil => simpa [byteAt] using hs
  | cons c d ih =>
    obtain ⟨hc, hne, h⟩ := h
    have h0 := hkeep 0 (by simp)
    simp only [byteAt, BitVec.add_zero] at h0
    refine ⟨h0.trans hc, hne, ih h ?_ (by rwa [byteAt_succ])⟩
    intro i hi
    rw [byteAt_succ]
    exact hkeep (i + 1) (by simpa using hi)

theorem strcpyFrom_spec (dst : Word) (h : CString pmem src s) :
    ((strcpyFrom (2 ^ 32) dst src pmem).isSome = true ↔ dst = src ∨ s.length < (dst - src).toNat) ∧
      ∀ m', strcpyFrom (2 ^ 32) dst src pmem = some m' → Copied dst src (s.length + 1) pmem m' := by
  have hdst := byteAt_sub dst src
  have hzero : dst = src ↔ (dst - src).toNat = 0 := by bv_omega
  rw [hzero]
  by_cases hk : (dst - src).toNat = 0 ∨ s.length < (dst - src).toNat
  · obtain ⟨m', hm', hcopied⟩ := strcpyFrom_copied (n := 2 ^ 32) h h.length_lt hk (dst - src).isLt
    rw [hdst] at hm' hcopied
    refine ⟨by simp only [hm', hk, Option.isSome_some], fun m'' hm'' => ?_⟩
    rw [hm'] at hm''
    rwa [← Option.some.inj hm'']
  · have hnone := strcpyFrom_none (p := src) (k := (dst - src).toNat) (by omega)
      (fun j hj => h.ne_nul (by omega)) (2 ^ 32)
    rw [hdst] at hnone
    refine ⟨by simp only [hnone, hk, Option.isSome_none, Bool.false_eq_true], fun m'' hm'' => ?_⟩
    rw [hnone] at hm''
    cases hm''

end Copy

section Results

variable (pmem : Pmem) (dst src : Word)

/-- `strcpy` comes back exactly when the copy does not start inside the string, and then the string is at
`dst` and all other bytes are unchanged. From a `dst` inside the string it writes for ever. -/
theorem strcpy_returns_iff (s : List (BitVec 8)) (h : CString pmem src s) :
    ((strcpy dst src pmem).isSome = true ↔ dst = src ∨ s.length < (dst - src).toNat) ∧
      ∀ p pmem', strcpy dst src pmem = some (p, pmem') →
        p = dst ∧ CString pmem' dst s ∧ Copied dst src (s.length + 1) pmem pmem' := by
  obtain ⟨hiff, hcopied⟩ := strcpyFrom_spec dst h
  refine ⟨by rw [strcpy, Option.isSome_map, hiff], fun p pmem' hp => ?_⟩
  obtain ⟨m', hm', he⟩ := Option.map_eq_some_iff.mp hp
  obtain ⟨rfl, rfl⟩ := Prod.mk.inj he
  have hc := hcopied m' hm'
  exact ⟨rfl, h.congr fun i hi => hc.inside i (by omega), hc⟩

/-- `"ab"` is copied behind its NUL. -/
theorem strcpy_returns_iff_behind :
    (strcpy 0x80000004#32 0x80000000#32 (image [0x00006261#32])).isSome = true :=
  (strcpy_returns_iff (image [0x00006261#32]) 0x80000004#32 0x80000000#32 [0x61#8, 0x62#8]
    (by decide +kernel)).1.mpr (.inr (by decide))

/-- The same of `strcat`, whose copy starts at the NUL of `dst`. The two strings together are at `dst` when they
fit the address space, and `strlen` adds up. -/
theorem strcat_returns_iff (d s : List (BitVec 8)) (hd : CString pmem dst d) (hs : CString pmem src s) :
    ((strcat dst src pmem).isSome = true ↔
        byteAt dst d.length = src ∨ s.length < (byteAt dst d.length - src).toNat) ∧
      ∀ p pmem', strcat dst src pmem = some (p, pmem') →
        p = dst ∧ Copied (byteAt dst d.length) src (s.length + 1) pmem pmem' ∧
          (d.length + s.length < 2 ^ 32 → CString pmem' dst (d ++ s) ∧
            strlen pmem' dst = some (BitVec.ofNat 32 (d.length + s.length))) := by
  obtain ⟨hiff, hcopied⟩ := strcpyFrom_spec (byteAt dst d.length) hs
  have hend := strendFrom_eq hd hd.length_lt
  refine ⟨by rw [strcat, hend, Option.bind_some, Option.isSome_map, hiff], fun p pmem' hp => ?_⟩
  rw [strcat, hend, Option.bind_some] at hp
  obtain ⟨m', hm', he⟩ := Option.map_eq_some_iff.mp hp
  obtain ⟨rfl, rfl⟩ := Prod.mk.inj he
  have hc := hcopied m' hm'
  refine ⟨rfl, hc, fun hfit => ?_⟩
  have hkeep : ∀ i < d.length, m' (byteAt dst i) = pmem (byteAt dst i) := by
    intro i hi
    apply hc.outside
    intro j hj
    rw [byteAt_byteAt]
    exact byteAt_ne_of_lt (by omega) (by omega) (by omega)
  have happend : CString m' dst (d ++ s) := hd.append hkeep (hs.congr fun i hi => hc.inside i (by omega))
  refine ⟨happend, ?_⟩
  rw [strlen, strlenFrom_eq happend happend.length_lt, List.length_append, BitVec.zero_add]

/-- `"ab"` and `"c"` -/
theorem strcat_returns_iff_abc : ∃ pmem', strcat 0x80000000#32 0x80000008#32
      (image [0x00006261#32, 0#32, 0x00000063#32]) = some (0x80000000#32, pmem') ∧
    strlen pmem' 0x80000000#32 = some 3#32 := by
  obtain ⟨hiff, hresult⟩ := strcat_returns_iff (image [0x00006261#32, 0#32, 0x00000063#32]) 0x80000000#32
    0x80000008#32 [0x61#8, 0x62#8] [0x63#8] (by decide +kernel) (by decide +kernel)
  obtain ⟨⟨p, pmem'⟩, hp⟩ := Option.isSome_iff_exists.mp (hiff.mpr (.inr (by decide)))
  obtain ⟨rfl, -, hstring⟩ := hresult p pmem' hp
  exact ⟨pmem', hp, (hstring (by decide)).2⟩

end Results

end Klib

end Npc
