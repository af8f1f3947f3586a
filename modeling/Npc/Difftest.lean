import Mathlib.Logic.Function.Iterate
import Npc.Clocked
import Npc.Core

/-! Differential testing, `difftest/dut.c`. The reference is any deterministic machine with
the registers, the pc and some further state of its own. -/

namespace Npc

/-- `CPU_state` -/
structure CpuState where
  gpr : Regs
  pc : Word

inductive RunState
  | npcRunning | npcQuit | npcStop | npcAbort | npcEnd
  deriving DecidableEq, Repr

structure NpcState where
  state : RunState
  haltPc : Word
  haltRet : Word
  deriving DecidableEq, Repr

section Step

variable {μ : Type*}

/-- The static variables of `dut.c`, `cpu`, the reference and `npc_state`. -/
structure Difftest (μ : Type*) where
  isSkipRef : Bool
  isSkipRefR : Bool
  nIgnoreFirst : Bool
  cpu : CpuState
  ref : CpuState × μ
  npc : NpcState

/-- `update_reg_state`, with the registers `core_read_reg` returns. -/
def updateRegState (regs : Regs) (pc : Word) : CpuState := ⟨regs, pc⟩

def regcpyToRef (cpu : CpuState) (ref : CpuState × μ) : CpuState × μ := (cpu, ref.2)

/-- The comparison loop over the 32 registers, then the pc. -/
def difftestCheckregs (refR cpu : CpuState) (pc : Word) : Bool :=
  let ret := (List.range 32).foldl
    (fun ret i => if refR.gpr (BitVec.ofNat 5 i) ≠ cpu.gpr (BitVec.ofNat 5 i) then false else ret) true
  if refR.pc ≠ pc then false else ret

def checkregs (ref cpu : CpuState) (pc : Word) (npc : NpcState) : NpcState :=
  if difftestCheckregs ref cpu pc then npc else { npc with state := .npcAbort, haltPc := pc }

def difftestSkipRef (d : Difftest μ) : Difftest μ := { d with isSkipRef := true }

/-- `init_difftest` with the registers at that time. -/
def initDifftest (regs : Regs) (m : μ) (npc : NpcState) : Difftest μ where
  isSkipRef := false
  isSkipRefR := false
  nIgnoreFirst := false
  cpu := updateRegState regs memBase
  ref := (updateRegState regs memBase, m)
  npc := npc

def difftestStep (exec : CpuState × μ → CpuState × μ) (regs : Regs) (pc : Word) (d : Difftest μ) :
    Difftest μ :=
  if d.isSkipRef then
    { d with
      isSkipRefR := true
      cpu := updateRegState regs pc
      ref := regcpyToRef (updateRegState regs pc) d.ref
      isSkipRef := false }
  else if d.nIgnoreFirst then
    { d with
      ref := exec d.ref
      npc := checkregs (exec d.ref).1 d.cpu pc d.npc
      cpu := updateRegState regs pc }
  else { d with cpu := updateRegState regs pc, nIgnoreFirst := true }

end Step

theorem foldl_check (p : Nat → Prop) [DecidablePred p] (l : List Nat) (b : Bool) :
    l.foldl (fun ret i => if p i then false else ret) b = (b && l.all fun i => ¬ p i) := by
  induction l generalizing b with
  | nil => simp
  | cons x xs ih =>
    rw [List.foldl_cons, ih, List.all_cons]
    by_cases hp : p x <;> simp [hp]

theorem difftestCheckregs_iff (refR cpu : CpuState) (pc : Word) :
    difftestCheckregs refR cpu pc = true ↔ cpu.gpr = refR.gpr ∧ pc = refR.pc := by
  have hregs : (∀ i < 32, refR.gpr (BitVec.ofNat 5 i) = cpu.gpr (BitVec.ofNat 5 i)) ↔
      cpu.gpr = refR.gpr := by
    constructor
    · intro h
      funext a
      have ha := h a.toNat a.isLt
      rw [BitVec.ofNat_toNat, BitVec.setWidth_eq] at ha
      exact ha.symm
    · intro h i _
      rw [h]
  rw [difftestCheckregs, foldl_check]
  by_cases hpc : refR.pc = pc
  · simp [hpc, hregs]
  · simp [hpc, Ne.symm hpc]

/-- One call of `difftest_step`: the pc and registers of a commit, and `npc_state` at the call.
The execution loop calls it with state NPC_RUNNING, or NPC_END right after `npctrap`. -/
structure Commit where
  regs : Regs
  pc : Word
  npc : NpcState
  not_abort : npc.state ≠ .npcAbort

section Calls

variable {μ : Type*} (exec : CpuState × μ → CpuState × μ) (regs0 : Regs) (m0 : μ) (npc0 : NpcState)
  (commits : Nat → Commit)

def callStep (c : Commit) (d : Difftest μ) : Difftest μ :=
  difftestStep exec c.regs c.pc { d with npc := c.npc }

def beforeCall (n : Nat) : Difftest μ :=
  Clocked.run (callStep exec) (initDifftest regs0 m0 npc0) commits n

def refRun (k : Nat) : CpuState := (exec^[k] (updateRegState regs0 memBase, m0)).1

theorem checkregs_eq_iff {ref cpu : CpuState} {pc : Word} {npc : NpcState}
    (h : npc.state ≠ .npcAbort) :
    checkregs ref cpu pc npc = npc ↔ cpu.gpr = ref.gpr ∧ pc = ref.pc := by
  rw [← difftestCheckregs_iff, checkregs]
  split_ifs with hc
  · simp [hc]
  · refine iff_of_false (fun he => h ?_) hc
    rw [← he]

/-- Without a skip, the reference is one step behind the commits and `cpu` is the last one. -/
theorem beforeCall_succ (n : Nat) :
    (beforeCall exec regs0 m0 npc0 commits (n + 1)).isSkipRef = false ∧
      (beforeCall exec regs0 m0 npc0 commits (n + 1)).nIgnoreFirst = true ∧
      (beforeCall exec regs0 m0 npc0 commits (n + 1)).cpu = ⟨(commits n).regs, (commits n).pc⟩ ∧
      (beforeCall exec regs0 m0 npc0 commits (n + 1)).ref =
        exec^[n] (updateRegState regs0 memBase, m0) := by
  induction n with
  | zero => exact ⟨rfl, rfl, rfl, rfl⟩
  | succ n ih =>
    obtain ⟨hs, hf, hc, hr⟩ := ih
    rw [beforeCall, Clocked.run_succ]
    rw [beforeCall] at hs hf hc hr
    refine ⟨?_, ?_, ?_, ?_⟩
    · simp [callStep, difftestStep, hs, hf]
    · simp [callStep, difftestStep, hs, hf]
    · simp [callStep, difftestStep, hs, hf, updateRegState]
    · rw [Function.iterate_succ_apply', ← hr]
      simp [callStep, difftestStep, hs, hf]

theorem beforeCall_npc (n : Nat) :
    (beforeCall exec regs0 m0 npc0 commits (n + 2)).npc =
      checkregs (refRun exec regs0 m0 (n + 1)) ⟨(commits n).regs, (commits n).pc⟩ (commits (n + 1)).pc
        (commits (n + 1)).npc := by
  obtain ⟨hs, hf, hc, hr⟩ := beforeCall_succ exec regs0 m0 npc0 commits n
  rw [refRun, Function.iterate_succ_apply', ← hr, ← hc]
  rw [beforeCall] at hs hf
  rw [beforeCall, Clocked.run_succ]
  simp [callStep, difftestStep, hs, hf, beforeCall]

/-- Without device accesses, call `k + 1` of `difftest_step` leaves `npc_state` alone if and only
if the registers at commit `k` and the pc of commit `k + 1` are those of the reference after
`k + 1` steps; otherwise it aborts at that pc. Call 0 leaves it alone. -/
theorem difftest_detects_divergence (k : Nat) :
    (beforeCall exec regs0 m0 npc0 commits 1).npc = (commits 0).npc ∧
      ((beforeCall exec regs0 m0 npc0 commits (k + 2)).npc = (commits (k + 1)).npc ↔
        (commits k).regs = (refRun exec regs0 m0 (k + 1)).gpr ∧
          (commits (k + 1)).pc = (refRun exec regs0 m0 (k + 1)).pc) ∧
      ((beforeCall exec regs0 m0 npc0 commits (k + 2)).npc ≠ (commits (k + 1)).npc →
        (beforeCall exec regs0 m0 npc0 commits (k + 2)).npc.state = .npcAbort ∧
          (beforeCall exec regs0 m0 npc0 commits (k + 2)).npc.haltPc = (commits (k + 1)).pc) := by
  refine ⟨rfl, ?_, ?_⟩
  · rw [beforeCall_npc]
    exact checkregs_eq_iff (commits (k + 1)).not_abort
  · rw [beforeCall_npc, checkregs]
    split_ifs
    · exact fun h => absurd rfl h
    · exact fun _ => ⟨rfl, rfl⟩

end Calls

/-- A reference that counts in x1. -/
def countRef (s : CpuState × Unit) : CpuState × Unit :=
  (⟨fun a => if a = 1#5 then s.1.gpr a + 1#32 else s.1.gpr a, s.1.pc + 4#32⟩, ())

/-- The second commit leaves a wrong x1. -/
def countCommits (k : Nat) : Commit where
  regs := fun a => if a = 1#5 then (if k = 1 then 7#32 else BitVec.ofNat 32 (k + 1)) else 0#32
  pc := memBase + BitVec.ofNat 32 (4 * k)
  npc := ⟨.npcRunning, 0#32, 0#32⟩
  not_abort := nofun

theorem difftest_detects_divergence_count :
    let call := beforeCall countRef (fun _ => 0#32) () ⟨.npcRunning, 0#32, 0#32⟩ countCommits
    (call 2).npc.state = .npcRunning ∧ (call 3).npc.state = .npcAbort ∧ (call 3).npc.haltPc = 0x80000008#32 := by
  intro call
  obtain ⟨-, hfirst, -⟩ := difftest_detects_divergence countRef (fun _ => 0#32) () ⟨.npcRunning, 0#32, 0#32⟩
    countCommits 0
  obtain ⟨-, hsecond, habort⟩ := difftest_detects_divergence countRef (fun _ => 0#32) ()
    ⟨.npcRunning, 0#32, 0#32⟩ countCommits 1
  have hsame : (countCommits 0).regs = (refRun countRef (fun _ => 0#32) () 1).gpr := by
    funext a
    simp only [countCommits, refRun]
    decide +revert
  have hwrong : (countCommits 1).regs 1#5 ≠ (refRun countRef (fun _ => 0#32) () 2).gpr 1#5 := by decide
  have hne : (call 3).npc ≠ (countCommits 2).npc := by
    intro hh
    exact hwrong (congrFun (hsecond.mp hh).1 1#5)
  refine ⟨?_, habort hne⟩
  rw [hfirst.mpr ⟨hsame, by decide⟩]
  rfl

end Npc
