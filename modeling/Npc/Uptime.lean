import Npc.Macro

/-! `__am_timer_uptime` of `am/src/riscv/core/timer.c` over a counter that goes on between its two
reads. -/

namespace Npc

namespace Am

/-- A counter of 8 ticks per microsecond, and the bus that has its two words behind two addresses. -/
structure Mtime (τ : Type*) [Preorder τ] where
  counter : τ → BitVec 64
  mono : ∀ s t, s ≤ t → counter s ≤ counter t
  inl : Word → τ → Word
  inl_low : ∀ t, inl 0x200bff8#32 t = (counter t).setWidth 32
  inl_high : ∀ t, inl (0x200bff8#32 + 4#32) t = (counter t >>> 32).setWidth 32

/-- When a call of `__am_timer_uptime` starts, reads the two words, and ends. -/
structure UptimeCall (τ : Type*) [Preorder τ] where
  start : τ
  highRead : τ
  lowRead : τ
  stop : τ
  start_le : start ≤ highRead
  high_le : highRead ≤ lowRead
  low_le : lowRead ≤ stop

namespace Mtime

section Call

variable {τ : Type*} [Preorder τ] (m : Mtime τ) (call next : UptimeCall τ)

def amTimerUptime : BitVec 64 :=
  let hUs := m.inl (0x200bff8#32 + 4#32) call.highRead
  let lUs := m.inl 0x200bff8#32 call.lowRead
  hUs.setWidth 64 <<< 32 ||| lUs.setWidth 64 / 8#64

def ticks (t : τ) : Nat := (m.counter t).toNat

/-- The call returns the microseconds of a value that the counter held in it. -/
def Real : Prop :=
  ∃ t, call.start ≤ t ∧ t ≤ call.stop ∧ (m.amTimerUptime call).toNat = m.ticks t / 8

/-- The counter advances by nine minutes in the call, and then holds a value in the microsecond of
the low word read, with eight times the high word read. -/
def Stretched : Prop :=
  m.ticks call.start + (2 ^ 32 - 7) ≤ m.ticks call.stop ∧
    ∃ t, call.start ≤ t ∧ t ≤ call.stop ∧
      m.ticks t / 2 ^ 32 = 8 * (m.ticks call.highRead / 2 ^ 32) ∧
      m.ticks t % 2 ^ 32 / 8 = m.ticks call.lowRead % 2 ^ 32 / 8

/-- The high word is still that of the call before, the low word one of the next high word, and in
an earlier microsecond. -/
def Back : Prop :=
  m.ticks next.highRead / 2 ^ 32 = m.ticks call.highRead / 2 ^ 32 ∧
    m.ticks next.highRead / 2 ^ 32 < m.ticks next.lowRead / 2 ^ 32 ∧
    m.ticks next.lowRead % 2 ^ 32 / 8 < m.ticks call.lowRead % 2 ^ 32 / 8

variable {m call next}

theorem ticks_le {s t : τ} (h : s ≤ t) : m.ticks s ≤ m.ticks t := BitVec.le_def.mp (m.mono s t h)

/-- The division binds stronger than the or: only the low word is scaled. -/
theorem amTimerUptime_toNat : (m.amTimerUptime call).toNat =
    2 ^ 32 * (m.ticks call.highRead / 2 ^ 32) + m.ticks call.lowRead % 2 ^ 32 / 8 := by
  have hlow : ((m.inl 0x200bff8#32 call.lowRead).setWidth 64 / 8#64).toNat =
      m.ticks call.lowRead % 2 ^ 32 / 8 := by
    have h8 : (8#64).toNat = 8 := rfl
    rw [m.inl_low, BitVec.toNat_udiv, BitVec.toNat_setWidth, BitVec.toNat_setWidth, h8, ticks]
    omega
  have hhigh : ((m.inl (0x200bff8#32 + 4#32) call.highRead).setWidth 64 <<< 32).toNat =
      (m.ticks call.highRead / 2 ^ 32) <<< 32 := by
    have hlt : m.ticks call.highRead < 2 ^ 64 := (m.counter call.highRead).isLt
    rw [m.inl_high, BitVec.toNat_shiftLeft, BitVec.toNat_setWidth, BitVec.toNat_setWidth,
      BitVec.toNat_ushiftRight, Nat.shiftRight_eq_div_pow, Nat.shiftLeft_eq, Nat.shiftLeft_eq]
    rw [ticks] at hlt ⊢
    omega
  have hmicro : m.ticks call.lowRead % 2 ^ 32 / 8 < 2 ^ 32 := by omega
  rw [amTimerUptime, BitVec.toNat_or, hlow, hhigh, ← Nat.shiftLeft_add_eq_or_of_lt hmicro,
    Nat.shiftLeft_eq, Nat.mul_comm]

theorem real_iff : m.Real call ↔ m.ticks call.lowRead < 2 ^ 32 ∨ m.Stretched call := by
  have hstart : m.ticks call.start ≤ m.ticks call.highRead := ticks_le call.start_le
  have hreads : m.ticks call.highRead ≤ m.ticks call.lowRead := ticks_le call.high_le
  have hstop : m.ticks call.lowRead ≤ m.ticks call.stop := ticks_le call.low_le
  constructor
  · rintro ⟨t, hs, he, hus⟩
    have hts := m.ticks_le hs
    have hte := m.ticks_le he
    rw [amTimerUptime_toNat] at hus
    by_cases hlow : m.ticks call.lowRead < 2 ^ 32
    · exact Or.inl hlow
    · exact Or.inr ⟨by omega, t, hs, he, by omega, by omega⟩
  · rintro (hlow | ⟨-, t, hs, he, hhigh, hmicro⟩)
    · refine ⟨call.lowRead, call.start_le.trans call.high_le, call.low_le, ?_⟩
      rw [amTimerUptime_toNat]
      omega
    · refine ⟨t, hs, he, ?_⟩
      rw [amTimerUptime_toNat]
      omega

theorem back_iff (hn : call.stop ≤ next.start) :
    (m.amTimerUptime next).toNat < (m.amTimerUptime call).toNat ↔ m.Back call next := by
  have hreads : m.ticks call.highRead ≤ m.ticks call.lowRead := ticks_le call.high_le
  have hbetween : m.ticks call.lowRead ≤ m.ticks next.highRead :=
    ticks_le (call.low_le.trans (hn.trans next.start_le))
  have hreads' : m.ticks next.highRead ≤ m.ticks next.lowRead := ticks_le next.high_le
  rw [amTimerUptime_toNat, amTimerUptime_toNat]
  constructor
  · intro hlt
    exact ⟨by omega, by omega, by omega⟩
  · rintro ⟨hhigh, -, hlow⟩
    omega

theorem le_of_not_back {calls : Nat → UptimeCall τ} {n : Nat}
    (hcalls : ∀ k, k + 1 < n → (calls k).stop ≤ (calls (k + 1)).start)
    (h : ∀ k, k + 1 < n → ¬ m.Back (calls k) (calls (k + 1))) {j k : Nat} (hjk : j ≤ k) (hk : k < n) :
    (m.amTimerUptime (calls j)).toNat ≤ (m.amTimerUptime (calls k)).toNat := by
  induction k, hjk using Nat.le_induction with
  | base => exact le_rfl
  | succ k hjk ih =>
    have hstep := mt (back_iff (hcalls k hk)).mp (h k hk)
    exact (ih (by omega)).trans (not_lt.mp hstep)

/-- A reading is real exactly as long as the counter has 32 bits, unless a call takes nine minutes.
The readings go back exactly at a call whose low word is read behind a change of the high word. -/
theorem uptime_real_iff (m : Mtime τ) :
    (∀ call, m.Real call ↔ m.ticks call.lowRead < 2 ^ 32 ∨ m.Stretched call) ∧
      ∀ (calls : Nat → UptimeCall τ) (n : Nat),
        (∀ k, k + 1 < n → (calls k).stop ≤ (calls (k + 1)).start) →
          ((∀ j k, j ≤ k → k < n →
              (m.amTimerUptime (calls j)).toNat ≤ (m.amTimerUptime (calls k)).toNat) ↔
            ∀ k, k + 1 < n → ¬ m.Back (calls k) (calls (k + 1))) := by
  refine ⟨fun call => real_iff, fun calls n hcalls => ⟨fun h k hk hback => ?_, fun h j k hjk hk => ?_⟩⟩
  · have hle := h k (k + 1) (Nat.le_succ k) hk
    have hlt := (back_iff (hcalls k hk)).mpr hback
    omega
  · exact le_of_not_back hcalls h hjk hk

end Call

/-- The counter is one tick below 2^32 at the time 0, and at 2^32 from then on. -/
def boundary : Mtime Nat where
  counter t := if t = 0 then 0xffffffff#64 else 0x100000000#64
  mono s t h := by
    split_ifs
    · decide
    · decide
    · omega
    · decide
  inl addr t :=
    let counter := if t = 0 then 0xffffffff#64 else 0x100000000#64
    if addr = 0x200bff8#32 then counter.setWidth 32 else (counter >>> 32).setWidth 32
  inl_low _ := rfl
  inl_high _ := rfl

/-- A call that takes no time but between its reads. -/
def readsAt (high low : Nat) (h : high ≤ low) : UptimeCall Nat := ⟨high, high, low, low, le_rfl, h, le_rfl⟩

theorem uptime_real_iff_boundary :
    (boundary.amTimerUptime (readsAt 0 0 le_rfl)).toNat ≤
      (boundary.amTimerUptime (readsAt 1 1 le_rfl)).toNat :=
  ((boundary.uptime_real_iff).2 (fun k => readsAt k k le_rfl) 2 fun k _ => Nat.le_succ k).mpr
    (fun k hk hback => by
      obtain rfl : k = 0 := by omega
      exact absurd hback.1 (by decide)) 0 1 (by decide) (by decide)

/-- At 2^32 ticks the counter reads eight times too much; read across the boundary it is 0, after
536870911. -/
theorem uptime_not_real : ¬ boundary.Real (readsAt 1 1 le_rfl) ∧
    ¬ boundary.Real (readsAt 0 1 (by decide)) ∧
    (boundary.amTimerUptime (readsAt 0 1 (by decide))).toNat <
      (boundary.amTimerUptime (readsAt 0 0 le_rfl)).toNat := by
  refine ⟨?_, ?_, by decide⟩
  · rintro ⟨t, h1, h2, h⟩
    obtain rfl : t = 1 := le_antisymm h2 h1
    exact absurd h (by decide)
  · rintro ⟨t, -, h2, h⟩
    have ht : t = 0 ∨ t = 1 := by
      simp only [readsAt] at h2
      omega
    rcases ht with rfl | rfl
    · exact absurd h (by decide)
    · exact absurd h (by decide)

end Mtime

end Am

end Npc
