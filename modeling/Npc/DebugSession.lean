import Npc.DebugRead

/-! A debugger session over the simulator: the core with its accesses and commits, and looks at
the machine between them. -/

namespace Npc

open Npc.Expr

namespace Machine

/-- What the core calls: the two memory functions, and `difftest_step` at a commit. -/
inductive Action
  | read (raddr : Word)
  | write (waddr wdata : Word) (wmask : BitVec 4)
  | commit (c : Commit)

/-- The core with a program in it. It goes on with the word that a read returned. -/
structure Dut (κ : Type) where
  action : κ → Action
  next : κ → Word → κ
  cpu : κ → CpuState

structure Session (κ μ : Type) where
  core : κ
  machine : Machine μ
  /-- `npc_state` behind each call of `difftest_step`. -/
  verdicts : List NpcState

inductive Turn
  | core
  | look (l : Look)

def Turn.isCore : Turn → Bool
  | core => true
  | look _ => false

section Session

variable {κ μ : Type} (clock : Nat → BitVec 64) (atoi : List Char → Word) (dut : Dut κ)
  (exec : CpuState × μ → CpuState × μ)

def coreStep (s : Session κ μ) : Except Fault (Session κ μ) :=
  match dut.action s.core with
  | .read raddr =>
    match pmemRead clock raddr s.machine with
    | .ok w m => .ok ⟨dut.next s.core w, m, s.verdicts⟩
    | .error f _ => .error f
  | .write waddr wdata wmask =>
    match pmemWrite waddr wdata wmask s.machine with
    | .ok _ m => .ok ⟨dut.next s.core 0#32, m, s.verdicts⟩
    | .error f _ => .error f
  | .commit c =>
    let d := callStep exec c s.machine.difftest
    .ok ⟨dut.next s.core 0#32, { s.machine with difftest := d }, s.verdicts ++ [d.npc]⟩

def turnStep (s : Session κ μ) : Turn → Except Fault (Session κ μ)
  | .core => coreStep clock dut exec s
  | .look l =>
    match perform clock atoi (dut.cpu s.core) l s.machine with
    | .ok _ m => .ok { s with machine := m }
    | .error f _ => .error f

/-- The session ends early where a call does not return. -/
def session : List Turn → Session κ μ → Except Fault (Session κ μ)
  | [], s => .ok s
  | r :: rs, s => turnStep clock atoi dut exec s r >>= session rs

def AllInside : List Turn → Session κ μ → Prop
  | [], _ => True
  | r :: rs, s => (∀ l, r = .look l → Inside atoi (dut.cpu s.core) s.machine.pmem l) ∧
    ∀ t, turnStep clock atoi dut exec s r = .ok t → AllInside rs t

variable {clock atoi dut exec}

theorem turnStep_look {s t : Session κ μ} {l : Look} (hin : Inside atoi (dut.cpu s.core) s.machine.pmem l)
    (h : turnStep clock atoi dut exec s (.look l) = .ok t) : t = s := by
  have htraces : Traces s.machine.pmem (perform (μ := μ) clock atoi (dut.cpu s.core) l)
    (lookEvents atoi (dut.cpu s.core) s.machine.pmem l) () := traces_perform _ _ _ l
  have hafter := htraces.after_eq hin
  rw [after] at hafter
  rw [turnStep] at h
  cases hp : perform clock atoi (dut.cpu s.core) l s.machine with
  | error f m => simp [hp] at h
  | ok a m =>
    rw [hp] at h hafter
    obtain rfl : m = s.machine := hafter
    exact (Except.ok.inj h).symm

theorem session_looks {rs : List Turn} {s t : Session κ μ} (hin : AllInside clock atoi dut exec rs s)
    (h : session clock atoi dut exec rs s = .ok t) :
    session clock atoi dut exec (rs.filter Turn.isCore) s = .ok t := by
  induction rs generalizing s with
  | nil => exact h
  | cons r rs ih =>
    obtain ⟨s', hs', hrest⟩ := Expr.bind_eq_ok h
    have hh := ih (hin.2 s' hs') hrest
    cases r with
    | core =>
      rw [List.filter_cons_of_pos rfl, session, hs']
      exact hh
    | look l =>
      rw [List.filter_cons_of_neg (by simp [Turn.isCore])]
      obtain rfl := turnStep_look (hin.1 l rfl) hs'
      exact hh

/-- A look leaves the memory, `rtc_port` and the skip flag alone just when it reads inside the
memory only, and a session whose looks do so ends as it would without them. -/
theorem looks_undisturbed (clock : Nat → BitVec 64) (atoi : List Char → Word) :
    (∀ (cpu : CpuState) (m : Machine μ) (l : Look),
      Undisturbed clock atoi cpu m l ↔ Inside atoi cpu m.pmem l) ∧
    ∀ (dut : Dut κ) (exec : CpuState × μ → CpuState × μ) (ts : List Turn) (s t : Session κ μ),
      AllInside clock atoi dut exec ts s → session clock atoi dut exec ts s = .ok t →
      session clock atoi dut exec (ts.filter Turn.isCore) s = .ok t :=
  ⟨fun _ _ _ => undisturbed_iff, fun _ _ _ _ _ => session_looks⟩

end Session

/-- A core that commits every second instruction of the reference. -/
def everySecond : Dut Nat where
  action k := .commit ⟨fun _ => 0#32, memBase + BitVec.ofNat 32 (8 * k), ⟨.npcRunning, 0#32, 1#32⟩, nofun⟩
  next k _ := k + 1
  cpu _ := zeroCpu

def nextPc (ref : CpuState × Unit) : CpuState × Unit := (⟨ref.1.gpr, ref.1.pc + 4#32⟩, ())

def everySecondStart : Session Nat Unit :=
  ⟨0, ⟨fun _ => 0#8, (0#32, 0#32), ⟨0, 0#64⟩, initDifftest (fun _ => 0#32) () ⟨.npcRunning, 0#32, 1#32⟩⟩, []⟩

/-- `*0x80000000` -/
def lookMemory : Look := .expr (fun _ => []) ['*', '0', 'x', '8', '0', '0', '0', '0', '0', '0', '0']

/-- `*0xa0000048` -/
def lookClock : Look := .expr (fun _ => []) ['*', '0', 'x', 'a', '0', '0', '0', '0', '0', '4', '8']

/-- `*0xa000004c` -/
def lookClockHigh : Look := .expr (fun _ => []) ['*', '0', 'x', 'a', '0', '0', '0', '0', '0', '4', 'c']

theorem looks_undisturbed_memory : ∃ t,
    session (fun _ => 1#64) decimalValue everySecond nextPc [.core, .look lookMemory, .core] everySecondStart =
      .ok t ∧
    session (fun _ => 1#64) decimalValue everySecond nextPc [.core, .core] everySecondStart = .ok t := by
  have hstop : stop (fun _ => 0#8) (lookEvents decimalValue zeroCpu (fun _ => 0#8) lookMemory) = none := by
    decide +kernel
  have hok : (session (fun _ => 1#64) decimalValue everySecond nextPc [.core, .look lookMemory, .core]
      everySecondStart).isOk = true := by decide +kernel
  cases hs : session (fun _ => 1#64) decimalValue everySecond nextPc [.core, .look lookMemory, .core]
      everySecondStart with
  | error f =>
    rw [hs] at hok
    cases hok
  | ok t =>
    refine ⟨t, rfl, (looks_undisturbed (fun _ => 1#64) decimalValue).2 everySecond nextPc
      [.core, .look lookMemory, .core] everySecondStart t ⟨nofun, fun t₁ h₁ => ⟨?_, ?_⟩⟩ hs⟩
    · intro l hl addr haddr
      obtain rfl := Turn.look.inj hl
      obtain rfl := Except.ok.inj h₁
      exact absurd (hstop.symm.trans haddr) nofun
    · exact fun t₂ _ => ⟨nofun, fun _ _ => trivial⟩

/-- The clock hides the second instruction from differential testing, and changes. -/
theorem looks_not :
    ¬ Undisturbed (fun _ => 1#64) decimalValue zeroCpu everySecondStart.machine lookClock ∧
    ¬ Undisturbed (fun i => BitVec.ofNat 64 (i + 1)) decimalValue zeroCpu everySecondStart.machine lookClockHigh ∧
    (session (fun _ => 1#64) decimalValue everySecond nextPc [.core, .core] everySecondStart).map
      Session.verdicts = .ok [⟨.npcRunning, 0#32, 1#32⟩, ⟨.npcAbort, 0x80000008#32, 1#32⟩] ∧
    (session (fun _ => 1#64) decimalValue everySecond nextPc [.core, .look lookClock, .core]
      everySecondStart).map Session.verdicts =
        .ok [⟨.npcRunning, 0#32, 1#32⟩, ⟨.npcRunning, 0#32, 1#32⟩] := by
  refine ⟨fun h => ?_, fun h => ?_, by decide +kernel, by decide +kernel⟩
  · exact absurd (h false).2.2 (by decide +kernel)
  · exact absurd (h false).2.1 (by decide +kernel)

end Machine

end Npc
