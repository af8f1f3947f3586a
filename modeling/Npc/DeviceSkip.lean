import Npc.Difftest
import Npc.Refinement

/-! Differential testing around device accesses. A device access raises the skip flag
ahead of its own commit, and the next call of `difftest_step` copies the registers and the pc of
its commit to the reference. -/

namespace Npc

namespace Core

variable (imem dmem : Pmem) (inp : Nat → CoreIn)

/-- The call of `difftest_step` that finds the flag of the access made in cycle `n + 1`: `pmem_read`
is called as the cycle begins, ahead of the commit seen in it, and `pmem_write` at its end. -/
def flaggedCall (n : Nat) : Nat :=
  let s := runFrom imem dmem inp (n + 1)
  if (cacheReq s.lsu s.exLsu).wen then (commits imem dmem inp (n + 1)).length
  else (commits imem dmem inp n).length

theorem commits_length_le (n : Nat) :
    (commits imem dmem inp n).length ≤ (commits imem dmem inp (n + 1)).length ∧
      (commits imem dmem inp (n + 1)).length ≤ (commits imem dmem inp n).length + 1 := by
  rw [commits_eq_writtenBack, commits_eq_writtenBack, writtenBack_succ, List.length_append]
  cases retired (inp n) (runFrom imem dmem inp n) <;> simp

/-- The flag is up at the call for the access itself or at one of the two before it. -/
theorem flaggedCall_le (n : Nat) (h : (runFrom imem dmem inp (n + 1)).hit (inp (n + 1)) = true) :
    let k := (commits imem dmem inp (n + 1 + 1)).length
    (runFrom imem dmem inp (n + 1)).exLsu.pc = (seqRun imem dmem inp (n + 1) k).pc ∧
      flaggedCall imem dmem inp n ≤ k ∧ k ≤ flaggedCall imem dmem inp n + 2 := by
  intro k
  have h1 := commits_length_le imem dmem inp n
  have h2 := commits_length_le imem dmem inp (n + 1)
  refine ⟨(hit_next_commit imem dmem inp (n + 1) h).2, ?_, ?_⟩
  · rw [flaggedCall]
    split_ifs <;> omega
  · rw [flaggedCall]
    split_ifs <;> omega

end Core

/-- A correct commit stream of the core under test: the reference agrees on every instruction
but the device accesses, which are loads and stores. `state k` is the state before instruction
`k`. -/
structure DutRun {μ : Type*} (exec : CpuState × μ → CpuState × μ) where
  state : Nat → CpuState
  mem : Nat → μ
  device : Nat → Bool
  memAccess : Word → Bool
  start : (state 0).pc = memBase
  ordinary : ∀ k, device k = false → exec (state k, mem k) = (state (k + 1), mem (k + 1))
  device_memAccess : ∀ k, device k = true → memAccess (state k).pc = true
  memAccess_next : ∀ k, memAccess (state k).pc = true → (state (k + 1)).pc = (state k).pc + 4#32

/-- The calls of `difftest_step` that find the skip flag raised. Each device access raises it once,
before its own call or any before that. -/
structure SkipFlag (device : Nat → Bool) where
  call : Nat → Nat
  call_le : ∀ j, call j ≤ j
  raised : Nat → Bool
  raised_iff : ∀ k, raised k = true ↔ ∃ j, device j = true ∧ call j = k

/-- The flag in a run of the core, where the device access `j` is served in cycle `cycle j + 1`. -/
def Core.skipFlag (imem dmem : Pmem) (inp : Nat → CoreIn) (device : Nat → Bool) (cycle : Nat → Nat)
    (hhit : ∀ j, device j = true → (runFrom imem dmem inp (cycle j + 1)).hit (inp (cycle j + 1)) = true)
    (hcommit : ∀ j, device j = true → (commits imem dmem inp (cycle j + 1 + 1)).length = j) :
    SkipFlag device where
  call j := if device j then flaggedCall imem dmem inp (cycle j) else j
  call_le j := by
    split_ifs with hd
    · obtain ⟨-, hle, -⟩ := flaggedCall_le imem dmem inp (cycle j) (hhit j hd)
      rwa [hcommit j hd] at hle
    · exact le_refl j
  raised k := (List.range (k + 3)).any fun j => device j && flaggedCall imem dmem inp (cycle j) = k
  raised_iff k := by
    simp only [List.any_eq_true, List.mem_range, Bool.and_eq_true, decide_eq_true_eq]
    refine ⟨fun ⟨j, _, hd, hk⟩ => ⟨j, hd, (if_pos hd).trans hk⟩, fun ⟨j, hd, hk⟩ => ?_⟩
    rw [if_pos hd] at hk
    obtain ⟨-, -, hle⟩ := flaggedCall_le imem dmem inp (cycle j) (hhit j hd)
    rw [hcommit j hd] at hle
    exact ⟨j, by omega, hd, hk⟩

theorem SkipFlag.exists_first {device : Nat → Bool} (flag : SkipFlag device) {n : Nat}
    (h : ¬ ∀ k < n, flag.raised k = false) :
    ∃ k < n, flag.raised k = true ∧ ∀ j < k, flag.raised j = false := by
  simp only [not_forall, Bool.not_eq_false] at h
  obtain ⟨hlt, hup⟩ := Nat.find_spec h
  refine ⟨Nat.find h, hlt, hup, fun j hj => ?_⟩
  by_contra hj'
  exact Nat.find_min h hj ⟨by omega, by simpa using hj'⟩

def npcRunning : NpcState := ⟨.npcRunning, 0#32, 1#32⟩

namespace DutRun

variable {μ : Type*} {exec : CpuState × μ → CpuState × μ} (r : DutRun exec) (flag : SkipFlag r.device)

/-- The call of `difftest_step` for commit `k`, the flag raised before it or not. -/
def call (k : Nat) (d : Difftest μ) : Difftest μ :=
  let d := { d with npc := npcRunning }
  difftestStep exec (r.state (k + 1)).gpr (r.state k).pc (if flag.raised k then difftestSkipRef d else d)

def before : Nat → Difftest μ :=
  Clocked.run (r.call flag) (initDifftest (r.state 0).gpr (r.mem 0) npcRunning) id

/-- The instruction the reference is to execute next. A skip leaves it at the pc of the instruction
just committed, which is the next one only after a jump to itself. -/
def refPos : Nat → Nat
  | 0 => 0
  | k + 1 =>
    if flag.raised k then if (r.state (k + 1)).pc = (r.state k).pc then k + 1 else k
    else if (r.before flag k).nIgnoreFirst then refPos k + 1 else refPos k

/-- The instructions the reference has executed before call `k`. -/
def refLog : Nat → List Nat
  | 0 => []
  | k + 1 =>
    if !flag.raised k && (r.before flag k).nIgnoreFirst then
      refLog k ++ [r.refPos flag k]
    else refLog k

/-- No false alarm in the first `n` calls: none aborts, the reference is at the instruction committed
last or at the next one, with the ordinary ones before it executed, once each and in order, and no
other, and a skip leaves it in the state after the instruction just committed. -/
structure NoFalseAlarm (n : Nat) : Prop where
  no_abort : ∀ k < n, (r.before flag (k + 1)).npc.state ≠ .npcAbort
  executed : n ≤ r.refPos flag n + 1 ∧ r.refPos flag n ≤ n ∧
    r.refLog flag n = (List.range (r.refPos flag n)).filter fun k => !r.device k
  resynced : ∀ k < n, flag.raised k = true → (r.before flag (k + 1)).ref.1 = r.state (k + 1)

theorem before_succ (k : Nat) : r.before flag (k + 1) = r.call flag k (r.before flag k) :=
  rfl

theorem before_isSkipRef (k : Nat) : (r.before flag k).isSkipRef = false := by
  induction k with
  | zero => rfl
  | succ k ih =>
    rw [before_succ]
    cases hr : flag.raised k with
    | true => simp [call, difftestStep, difftestSkipRef, hr]
    | false => cases hf : (r.before flag k).nIgnoreFirst <;> simp [call, difftestStep, hr, ih, hf]

theorem before_ref_of_raised {k : Nat} (hr : flag.raised k = true) :
    (r.before flag (k + 1)).ref.1 = ⟨(r.state (k + 1)).gpr, (r.state k).pc⟩ := by
  rw [before_succ]
  simp [call, difftestStep, difftestSkipRef, hr, regcpyToRef, updateRegState]

/-- A jump to itself is no device access. -/
theorem ordinary_of_pc_eq {k : Nat} (h : (r.state (k + 1)).pc = (r.state k).pc) : r.device k = false := by
  by_contra hd
  rw [Bool.not_eq_false] at hd
  have hn := r.memAccess_next k (r.device_memAccess k hd)
  rw [h] at hn
  have h4 := congrArg BitVec.toNat hn
  simp only [BitVec.toNat_add, BitVec.toNat_ofNat] at h4
  have hlt := (r.state k).pc.isLt
  omega

theorem device_of_not_raised {n : Nat} (h : ∀ k < n, flag.raised k = false) :
    ∀ k < n, r.device k = false := by
  intro k hk
  by_contra hd
  rw [Bool.not_eq_false] at hd
  have hle := flag.call_le k
  have hup := (flag.raised_iff (flag.call k)).mpr ⟨k, hd, rfl⟩
  rw [h (flag.call k) (by omega)] at hup
  cases hup

/-- Without a raised flag the reference is one instruction behind the commits. -/
structure InStep (n : Nat) : Prop where
  nIgnoreFirst : (r.before flag (n + 1)).nIgnoreFirst = true
  cpu : (r.before flag (n + 1)).cpu = ⟨(r.state (n + 1)).gpr, (r.state n).pc⟩
  ref : (r.before flag (n + 1)).ref = (r.state n, r.mem n)
  npc : (r.before flag (n + 1)).npc = npcRunning
  refPos : r.refPos flag (n + 1) = n
  refLog : r.refLog flag (n + 1) = List.range n

theorem inStep_zero (h : flag.raised 0 = false) : r.InStep flag 0 := by
  have hstart : updateRegState (r.state 0).gpr memBase = r.state 0 := by rw [← r.start]; rfl
  have hf : (r.before flag 0).nIgnoreFirst = false := rfl
  have href : (r.before flag 0).ref = (updateRegState (r.state 0).gpr memBase, r.mem 0) := rfl
  have hs := r.before_isSkipRef flag 0
  constructor
  case ref =>
    rw [← hstart, ← href, before_succ]
    simp [call, difftestStep, h, hf, hs]
  all_goals simp [before_succ, call, difftestStep, DutRun.refPos, DutRun.refLog, h, hf, hs, updateRegState]

theorem InStep.succ {n : Nat} (hn : r.InStep flag n) (h : flag.raised (n + 1) = false)
    (hd : r.device n = false) : r.InStep flag (n + 1) := by
  have hs := r.before_isSkipRef flag (n + 1)
  have hexec : exec (r.before flag (n + 1)).ref = (r.state (n + 1), r.mem (n + 1)) := by
    rw [hn.ref, r.ordinary n hd]
  have hcheck : difftestCheckregs (r.state (n + 1)) (r.before flag (n + 1)).cpu (r.state (n + 1)).pc = true := by
    rw [difftestCheckregs_iff, hn.cpu]
    exact ⟨rfl, rfl⟩
  constructor
  case refPos => rw [DutRun.refPos, h, hn.nIgnoreFirst, hn.refPos]; rfl
  case refLog => rw [DutRun.refLog, h, hn.nIgnoreFirst, hn.refPos, hn.refLog, List.range_succ]; rfl
  all_goals
    simp [before_succ r flag (n + 1), call, difftestStep, checkregs, h, hs, hn.nIgnoreFirst, hexec, hcheck,
      updateRegState]

theorem inStep {n : Nat} (h : ∀ k ≤ n, flag.raised k = false) : r.InStep flag n := by
  induction n with
  | zero => exact r.inStep_zero flag (h 0 (le_refl 0))
  | succ n ih =>
    refine InStep.succ r flag (ih fun k hk => h k (by omega)) (h _ (le_refl _)) ?_
    exact r.device_of_not_raised flag (n := n + 1) (fun k hk => h k (by omega)) n (by omega)

/-- An instruction that jumps to itself and finds the flag up is lost: the reference is never to
execute it again. -/
theorem lost_of_raised {a n : Nat} (h : ∀ k < a, flag.raised k = false) (hr : flag.raised a = true)
    (hpc : (r.state (a + 1)).pc = (r.state a).pc) (hn : a + 1 ≤ n) :
    a ∉ r.refLog flag n ∧ a + 1 ≤ r.refPos flag n := by
  induction n, hn using Nat.le_induction with
  | base =>
    constructor
    · cases a with
      | zero => simp [refLog, hr]
      | succ a =>
        have hlog := (r.inStep flag fun k (hk : k ≤ a) => h k (by omega)).refLog
        rw [refLog, hr, hlog]
        simp
    · rw [refPos, if_pos hr, if_pos hpc]
  | succ n hn ih =>
    obtain ⟨hlog, hpos⟩ := ih
    constructor
    · rw [refLog]
      split_ifs
      · rw [List.mem_append, List.mem_singleton]
        rintro (hmem | heq)
        · exact hlog hmem
        · omega
      · exact hlog
    · rw [refPos]
      split_ifs <;> omega

/-- There is no false alarm in the first `n` calls exactly when none of them consumes a
skip. -/
theorem noFalseAlarm_iff (n : Nat) :
    r.NoFalseAlarm flag n ↔ ∀ k < n, flag.raised k = false := by
  constructor
  · intro h
    by_contra hex
    obtain ⟨k, hk, hr, hmin⟩ := flag.exists_first hex
    have hre := h.resynced k hk hr
    rw [r.before_ref_of_raised flag hr] at hre
    have hpc : (r.state (k + 1)).pc = (r.state k).pc := (congrArg CpuState.pc hre).symm
    obtain ⟨hlog, hpos⟩ := r.lost_of_raised flag hmin hr hpc hk
    rw [h.executed.2.2] at hlog
    exact hlog (by simp [r.ordinary_of_pc_eq hpc]; omega)
  · intro h
    constructor
    case no_abort =>
      intro k hk
      rw [(r.inStep flag fun j hj => h j (by omega)).npc]
      decide
    case executed =>
      cases n with
      | zero => exact ⟨by omega, le_refl 0, rfl⟩
      | succ n =>
        have hd := r.device_of_not_raised flag h
        have hin := r.inStep flag fun j (hj : j ≤ n) => h j (by omega)
        rw [hin.refPos, hin.refLog]
        refine ⟨le_refl _, by omega, ?_⟩
        symm
        rw [List.filter_eq_self]
        intro k hk
        rw [hd k (by have := List.mem_range.mp hk; omega)]
        rfl
    case resynced =>
      intro k hk hr
      rw [h k hk] at hr
      cases hr

end DutRun

/-- A reference for three instructions: `lui x2, 0xa0000`, a load of x1 from the device at that
address, which reads seven, and a jump to itself. -/
def sevenDevice (s : CpuState × Unit) : CpuState × Unit :=
  if s.1.pc = memBase then (⟨rfWrite s.1.gpr true 2#5 0xa0000000#32, memBase + 4#32⟩, ())
  else if s.1.pc = memBase + 4#32 then (⟨rfWrite s.1.gpr true 1#5 7#32, memBase + 8#32⟩, ())
  else s

/-- The run on a core whose device reads zero. -/
def loadZero : DutRun sevenDevice where
  state
    | 0 => ⟨fun _ => 0#32, memBase⟩
    | 1 => ⟨rfWrite (fun _ => 0#32) true 2#5 0xa0000000#32, memBase + 4#32⟩
    | _ + 2 => ⟨rfWrite (rfWrite (fun _ => 0#32) true 2#5 0xa0000000#32) true 1#5 0#32, memBase + 8#32⟩
  mem _ := ()
  device k := k = 1
  memAccess pc := pc = memBase + 4#32
  start := rfl
  ordinary
    | 0, _ => rfl
    | 1, h => absurd h (by decide)
    | _ + 2, _ => rfl
  device_memAccess
    | 0, h => absurd h (by decide)
    | 1, _ => rfl
    | k + 2, h => absurd h (by simp)
  memAccess_next
    | 0, h => absurd h (by decide)
    | 1, _ => rfl
    | _ + 2, h => absurd (show memBase + 8#32 = memBase + 4#32 from of_decide_eq_true h) (by decide)

def loadZeroFlag (k : Nat) (h : k ≤ 1) : SkipFlag loadZero.device where
  call j := if j = 1 then k else j
  call_le j := by split_ifs <;> omega
  raised i := i = k
  raised_iff i := by simp [loadZero, eq_comm]

/-- With the load a hit at once its flag is up at the first call, and the third makes the reference
execute the `lui` and aborts. With two misses it is up at the second call, and the third executes the
load on the reference and aborts. -/
theorem loadZero_false_alarm :
    ¬ loadZero.NoFalseAlarm (loadZeroFlag 0 (by decide)) 3 ∧
      (loadZero.before (loadZeroFlag 0 (by decide)) 3).npc.state = .npcAbort ∧
      loadZero.refLog (loadZeroFlag 0 (by decide)) 3 = [0] ∧
      (loadZero.before (loadZeroFlag 1 (by decide)) 3).npc.state = .npcAbort ∧
      loadZero.refLog (loadZeroFlag 1 (by decide)) 3 = [1] := by
  have hs : (loadZero.before (loadZeroFlag 0 (by decide)) 3).npc.state = .npcAbort := by decide +kernel
  exact ⟨fun h => h.no_abort 2 (by decide) hs, hs, by decide +kernel, by decide +kernel, by decide +kernel⟩

end Npc
