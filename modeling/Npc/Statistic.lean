import Mathlib.Data.BitVec
import Npc.Difftest

/-! `cpu_exec` of `cpu-exec.cpp` with its host clock, the assertions that may fail in `execute`, and
what `statistic` divides by. -/

namespace Npc

section HostClock

/-- How often the host clock was read, and `boot_time` of `mmio.cpp`. -/
structure Host where
  reading : Nat
  bootTime : BitVec 64
  deriving DecidableEq, Repr

variable (clock : Nat → BitVec 64)

def getTime (h : Host) : BitVec 64 × Host :=
  let h := if h.bootTime = 0#64 then ⟨h.reading + 1, clock h.reading⟩ else h
  (clock h.reading - h.bootTime, { h with reading := h.reading + 1 })

/-- No later result of `get_time` is less than `b`. -/
def Behind (h : Host) (b : Nat) : Prop :=
  h = ⟨0, 0#64⟩ ∧ b = 0 ∨
    h.bootTime = clock 0 ∧ b + (clock 0).toNat ≤ (clock h.reading).toNat

variable {clock} {h : Host} {b b' : Nat}

theorem Behind.mono (hb : Behind clock h b) (hle : b' ≤ b) : Behind clock h b' := by
  rcases hb with ⟨hh, hb⟩ | ⟨hboot, hb⟩
  · exact Or.inl ⟨hh, by omega⟩
  · exact Or.inr ⟨hboot, by omega⟩

/-- A host clock that never goes back, and is not 0 at first, gives a `get_time` that does not. -/
theorem getTime_behind (hclock : ∀ i, clock i ≤ clock (i + 1)) (h0 : clock 0 ≠ 0#64)
    (hb : Behind clock h b) :
    b ≤ (getTime clock h).1.toNat ∧ Behind clock (getTime clock h).2 (getTime clock h).1.toNat := by
  have hbooted : ∀ r b, b + (clock 0).toNat ≤ (clock r).toNat →
      b ≤ (clock r - clock 0).toNat ∧
        Behind clock ⟨r + 1, clock 0⟩ (clock r - clock 0).toNat := by
    intro r b hr
    have hle : clock 0 ≤ clock r := by
      rw [BitVec.le_def]
      omega
    have hnext := hclock r
    rw [BitVec.le_def] at hle hnext
    have hsub := BitVec.toNat_sub_of_le (BitVec.le_def.mpr hle)
    refine ⟨by omega, Or.inr ⟨rfl, ?_⟩⟩
    simp only [hsub]
    omega
  rcases hb with ⟨rfl, rfl⟩ | ⟨hboot, hb⟩
  · have hle : (clock 0).toNat ≤ (clock 1).toNat := BitVec.le_def.mp (hclock 0)
    exact hbooted 1 0 (by omega)
  · obtain ⟨r, boot⟩ := h
    obtain rfl : boot = clock 0 := hboot
    rw [getTime, if_neg h0]
    exact hbooted r b hb

end HostClock

/-- One round of `execute`: how often the guest reads the clock in it, and the state it leaves, or
none when an assertion fails. -/
structure Round where
  rtcReads : Nat
  outcome : Option RunState
  deriving DecidableEq, Repr

/-- `g_timer` at an entry of `statistic`, and the clock at the two ends of each `execute` that
returned before. -/
structure Entry where
  gTimer : BitVec 64
  spans : List (BitVec 64 × BitVec 64)
  deriving DecidableEq, Repr

structure Simulator where
  npcState : RunState
  gNrGuestInst : Nat
  host : Host
  timing : Entry
  alive : Bool
  /-- The entries of `statistic`, in order. -/
  statistics : List Entry
  deriving DecidableEq, Repr

namespace Simulator

def init : Simulator := ⟨.npcStop, 0, ⟨0, 0#64⟩, ⟨0#64, []⟩, true, []⟩

def statistic (s : Simulator) : Simulator := { s with statistics := s.statistics ++ [s.timing] }

/-- `assert_fail_msg` and the `assert` behind it. -/
def assertFailMsg (s : Simulator) : Simulator := { s.statistic with alive := false }

variable (clock : Nat → BitVec 64) (rounds : Nat → Round)

def rtcReads : Nat → Host → Host
  | 0, h => h
  | n + 1, h => rtcReads n (getTime clock h).2

def execInst (s : Simulator) : Simulator × Bool :=
  let s' := { s with host := rtcReads clock (rounds s.gNrGuestInst).rtcReads s.host }
  match (rounds s.gNrGuestInst).outcome with
  | none => (s'.assertFailMsg, false)
  | some state =>
    ({ s' with npcState := state, gNrGuestInst := s.gNrGuestInst + 1 }, state = .npcRunning)

def execute : Nat → Simulator → Simulator
  | 0, s => s
  | n + 1, s =>
    let r := s.execInst clock rounds
    if r.2 then execute n r.1 else r.1

/-- The switch in front of `execute`, and `timer_start`. -/
def enter (s : Simulator) : BitVec 64 × Simulator :=
  let r := getTime clock s.host
  (r.1, { s with npcState := .npcRunning, host := r.2 })

/-- `g_timer += timer_end - timer_start` -/
def addTimer (start : BitVec 64) (s : Simulator) : Simulator :=
  let r := getTime clock s.host
  { s with
    host := r.2
    timing := ⟨s.timing.gTimer + (r.1 - start), s.timing.spans ++ [(start, r.1)]⟩ }

/-- The switch behind `execute`. -/
def finish (s : Simulator) : Simulator :=
  match s.npcState with
  | .npcRunning => { s with npcState := .npcStop }
  | .npcAbort | .npcEnd | .npcQuit => s.statistic
  | .npcStop => s

def cpuExec (n : Nat) (s : Simulator) : Simulator :=
  if !s.alive || s.npcState = .npcEnd || s.npcState = .npcQuit then s
  else
    let r := s.enter clock
    let s := r.2.execute clock rounds n
    if s.alive then (s.addTimer clock r.1).finish else s

def run (counts : List Nat) : Simulator := counts.foldl (fun s n => s.cpuExec clock rounds n) init

section Parts

variable {clock rounds} {s : Simulator} {b : Nat}

theorem execInst_timing : (s.execInst clock rounds).1.timing = s.timing := by
  unfold execInst
  split <;> rfl

theorem execute_timing (n : Nat) : (s.execute clock rounds n).timing = s.timing := by
  induction n generalizing s with
  | zero => rfl
  | succ n ih =>
    rw [execute]
    split_ifs
    · rw [ih, execInst_timing]
    · exact execInst_timing

theorem finish_host : s.finish.host = s.host := by
  unfold finish
  split <;> rfl

theorem finish_timing : s.finish.timing = s.timing := by
  unfold finish
  split <;> rfl

theorem rtcReads_behind (hclock : ∀ i, clock i ≤ clock (i + 1)) (h0 : clock 0 ≠ 0#64) (n : Nat)
    {h : Host} (hb : Behind clock h b) : Behind clock (rtcReads clock n h) b := by
  induction n generalizing h with
  | zero => exact hb
  | succ n ih =>
    have hh := getTime_behind hclock h0 hb
    exact ih (hh.2.mono hh.1)

theorem execute_behind (hclock : ∀ i, clock i ≤ clock (i + 1)) (h0 : clock 0 ≠ 0#64) (n : Nat)
    (hb : Behind clock s.host b) : Behind clock (s.execute clock rounds n).host b := by
  have hinst : ∀ s : Simulator, Behind clock s.host b → Behind clock (s.execInst clock rounds).1.host b := by
    intro s hb
    have hh := rtcReads_behind hclock h0 (rounds s.gNrGuestInst).rtcReads hb
    unfold execInst
    split <;> exact hh
  induction n generalizing s with
  | zero => exact hb
  | succ n ih =>
    rw [execute]
    split_ifs
    · exact ih (hinst s hb)
    · exact hinst s hb

end Parts

section Holds

variable {clock rounds} {s : Simulator} {R : Entry → Prop}

def Holds (R : Entry → Prop) (s : Simulator) : Prop := R s.timing ∧ ∀ e ∈ s.statistics, R e

theorem Holds.statistic (h : s.Holds R) : s.statistic.Holds R := by
  refine ⟨h.1, fun e he => ?_⟩
  rcases List.mem_append.mp he with he | he
  · exact h.2 e he
  · rw [List.mem_singleton.mp he]
    exact h.1

theorem Holds.execute (h : s.Holds R) (n : Nat) : (s.execute clock rounds n).Holds R := by
  have hinst : ∀ s : Simulator, s.Holds R → (s.execInst clock rounds).1.Holds R := by
    intro s h
    unfold Simulator.execInst
    split
    · exact Holds.statistic h
    · exact h
  induction n generalizing s with
  | zero => exact h
  | succ n ih =>
    rw [Simulator.execute]
    split_ifs
    · exact ih (hinst s h)
    · exact hinst s h

theorem Holds.finish (h : s.Holds R) : s.finish.Holds R := by
  unfold Simulator.finish
  split
  · exact h
  · exact h.statistic
  · exact h.statistic
  · exact h.statistic
  · exact h

theorem Holds.cpuExec {n : Nat} (h : s.Holds R)
    (hadd : R (addTimer clock (s.enter clock).1
      ((s.enter clock).2.execute clock rounds n)).timing) :
    (s.cpuExec clock rounds n).Holds R := by
  have henter : (s.enter clock).2.Holds R := h
  have hexec : ((s.enter clock).2.execute clock rounds n).Holds R := henter.execute n
  unfold Simulator.cpuExec
  dsimp only
  split_ifs
  · exact h
  · exact Holds.finish ⟨hadd, hexec.2⟩
  · exact hexec

end Holds

section Elapsed

variable {e : Entry}

theorem run_induction {I : Simulator → Prop} (hinit : I init)
    (hstep : ∀ s n, I s → I (s.cpuExec clock rounds n)) (counts : List Nat) :
    I (run clock rounds counts) :=
  List.foldlRecOn counts _ hinit fun s hs n _ => hstep s n hs

/-- The clock readings at the ends of the spans differ from those at their starts, in sum. -/
def Elapsed (e : Entry) : Prop := (e.spans.map Prod.fst).sum ≠ (e.spans.map Prod.snd).sum

def Summed (e : Entry) : Prop :=
  e.gTimer = (e.spans.map Prod.snd).sum - (e.spans.map Prod.fst).sum

theorem Summed.gTimer_iff (h : Summed e) : e.gTimer ≠ 0#64 ↔ Elapsed e := by
  rw [Elapsed, h]
  exact not_congr (sub_eq_zero.trans eq_comm)

theorem run_summed (counts : List Nat) : (run clock rounds counts).Holds Summed := by
  refine run_induction clock rounds ⟨rfl, fun _ h => absurd h List.not_mem_nil⟩ ?_ counts
  refine fun s n h => h.cpuExec ?_
  have ht : ((s.enter clock).2.execute clock rounds n).timing = s.timing := execute_timing n
  have hs : s.timing.gTimer = _ := h.1
  simp only [Summed, addTimer, ht, hs, List.map_append, List.sum_append, List.map_cons,
    List.map_nil, List.sum_singleton]
  exact (add_sub_add_comm _ _ _ _).symm

/-- `g_timer` is 0 just when the clock stood still over every span. -/
def Counted (e : Entry) : Prop := e.gTimer = 0#64 ↔ ∀ p ∈ e.spans, p.1 = p.2

theorem Counted.add {start stop : BitVec 64} (h : Counted e) (hg : e.gTimer.toNat ≤ start.toNat)
    (hle : start.toNat ≤ stop.toNat) :
    Counted ⟨e.gTimer + (stop - start), e.spans ++ [(start, stop)]⟩ ∧
      (e.gTimer + (stop - start)).toNat ≤ stop.toNat := by
  have hsub : (stop - start).toNat = stop.toNat - start.toNat :=
    BitVec.toNat_sub_of_le (BitVec.le_def.mpr hle)
  have hadd : (e.gTimer + (stop - start)).toNat = e.gTimer.toNat + (stop.toNat - start.toNat) := by
    rw [BitVec.toNat_add, hsub, Nat.mod_eq_of_lt (by omega)]
  refine ⟨?_, by omega⟩
  have hzero : e.gTimer + (stop - start) = 0#64 ↔ e.gTimer = 0#64 ∧ start = stop := by
    simp only [← BitVec.toNat_inj, hadd, BitVec.toNat_zero]
    omega
  simp only [Counted, hzero, List.forall_mem_append, List.forall_mem_singleton]
  exact and_congr_left' h

theorem run_counted (hclock : ∀ i, clock i ≤ clock (i + 1)) (h0 : clock 0 ≠ 0#64)
    (counts : List Nat) : (run clock rounds counts).Holds Counted := by
  have hstep : ∀ (s : Simulator) n, Behind clock s.host s.timing.gTimer.toNat ∧ s.Holds Counted →
      Behind clock (s.cpuExec clock rounds n).host (s.cpuExec clock rounds n).timing.gTimer.toNat ∧
        (s.cpuExec clock rounds n).Holds Counted := by
    rintro s n ⟨hb, h⟩
    obtain ⟨hg, hstart⟩ := getTime_behind hclock h0 hb
    have hexec : Behind clock ((s.enter clock).2.execute clock rounds n).host
      (s.enter clock).1.toNat := execute_behind hclock h0 n hstart
    obtain ⟨hle, hstop⟩ := getTime_behind hclock h0 hexec
    have ht : ((s.enter clock).2.execute clock rounds n).timing = s.timing := execute_timing n
    obtain ⟨hadd, hbound⟩ := h.1.add hg hle
    rw [← ht] at hadd hbound
    refine ⟨?_, h.cpuExec hadd⟩
    unfold cpuExec
    dsimp only
    split_ifs
    · exact hb
    · rw [finish_host, finish_timing]
      exact hstop.mono hbound
    · rw [ht]
      exact hexec.mono hg
  have hinit : Behind clock init.host init.timing.gTimer.toNat ∧ init.Holds Counted :=
    ⟨Or.inl ⟨rfl, rfl⟩, by simp [Counted, init], by simp [init]⟩
  exact (run_induction clock rounds hinit hstep counts).2

/-- `statistic` never divides by 0 just when the clock moved, all in all, over the calls of
`execute` that returned before; a clock that does not start at 0 has to move over one of them. -/
theorem statistic_gTimer (clock : Nat → BitVec 64) (hclock : ∀ i, clock i ≤ clock (i + 1))
    (rounds : Nat → Round) (counts : List Nat) :
    let s := run clock rounds counts
    ((∀ e ∈ s.statistics, e.gTimer ≠ 0#64) ↔ ∀ e ∈ s.statistics, Elapsed e) ∧
      (clock 0 ≠ 0#64 → ∀ e ∈ s.statistics, Elapsed e ↔ ∃ p ∈ e.spans, p.1 ≠ p.2) := by
  intro s
  have hsum := (run_summed clock rounds counts).2
  refine ⟨forall₂_congr fun e he => (hsum e he).gTimer_iff, fun h0 e he => ?_⟩
  have hcount := (run_counted clock rounds hclock h0 counts).2 e he
  rw [← (hsum e he).gTimer_iff]
  simpa [Counted] using not_congr hcount

/-- The program ends in its third instruction, and the clock moved on. -/
theorem statistic_gTimer_moved :
    ((run (fun i => BitVec.ofNat 64 (min (i + 1) 8))
      (fun i => ⟨0, some (if i = 2 then .npcEnd else .npcRunning)⟩) [1, 5]).statistics.all
        fun e => e.gTimer ≠ 0#64) = true := by
  have hclock : ∀ i, BitVec.ofNat 64 (min (i + 1) 8) ≤ BitVec.ofNat 64 (min (i + 1 + 1) 8) := by
    intro i
    rw [BitVec.le_def, BitVec.toNat_ofNat, BitVec.toNat_ofNat]
    omega
  have hh := statistic_gTimer _ hclock
    (fun i => ⟨0, some (if i = 2 then .npcEnd else .npcRunning)⟩) [1, 5]
  have hmoved := hh.1.mpr fun e he => (hh.2 (by decide) e he).mpr (by revert e; decide)
  exact List.all_eq_true.mpr fun e he => decide_eq_true (hmoved e he)

/-- An assertion that fails in the first instruction, and a clock that stands still up to the end of
the program. -/
theorem statistic_gTimer_not :
    ¬ (∀ e ∈ (run (fun i => BitVec.ofNat 64 (min (i + 1) 8)) (fun _ => ⟨0, none⟩) [1]).statistics,
      e.gTimer ≠ 0#64) ∧
    ¬ ∀ e ∈ (run (fun _ => 1#64) (fun _ => ⟨0, some .npcEnd⟩) [1]).statistics, e.gTimer ≠ 0#64 := by
  decide

end Elapsed

end Simulator

end Npc
