import Npc.Monitor
import Npc.SharedMemory

/-! A program on the simulator: `init_cpu`, the calls of `exec_one_inst` and the command `c` over
them. When the ISA machine reaches an ebreak, the simulator ends there with its a0. -/

namespace Npc

open Rv32i

/-- What a call of `exec_one_inst` leaves, with the calls of `npctrap` and `difftest_skip_ref` in it. -/
structure Called where
  top : SimTop
  trap : Bool
  skip : Bool

namespace SimTop

/-- The loop of `exec_one_inst`, with `none` where a call does not return. -/
def callLoop : Nat → Called → Option Called
  | 0, _ => none
  | n + 1, r => r.top.singleCycle.bind fun t' =>
    let r' : Called :=
      ⟨t', r.trap || r.top.top.core.lsu.ebreakLsuWbu, r.skip || r.top.access.any Access.skipsRef⟩
    if t'.instCpmmit then some r' else callLoop n r'

def call (t : SimTop) : Option Called := callLoop 40 ⟨t, false, false⟩

/-- The machine after `k` calls. -/
def afterCalls : Nat → SimTop → Option SimTop
  | 0, t => cycles 0 t
  | k + 1, t => (afterCalls k t).bind fun t => t.call.map Called.top

/-- What call `k` of `exec_one_inst` from `t` leaves to the execution loop. -/
def inst (t : SimTop) (k : Nat) : Inst Unit :=
  match (afterCalls k t).bind call with
  | some r => ⟨r.top.top.core.regs, r.top.top.core.wbu.commitPc, r.trap, r.skip, ()⟩
  | none => ⟨fun _ => 0#32, 0#32, false, false, ()⟩

section Loop

variable {imem : Pmem}

theorem execCalls_succ' (n : Nat) (t : SimTop) :
    execCalls imem (n + 1) t = (execCalls imem n t).bind (execOneInst imem) := by
  induction n generalizing t with
  | zero => cases h : execOneInst imem t <;> simp [execCalls, h]
  | succ n ih =>
    rw [execCalls]
    cases h : execOneInst imem t with
    | none => simp [execCalls, h]
    | some t' => rw [Option.bind_some, ih, execCalls, h, Option.bind_some]

theorem execCalls_isSome_of_le {k n : Nat} (hk : k ≤ n) {t : SimTop}
    (h : (execCalls imem n t).isSome = true) : (execCalls imem k t).isSome = true := by
  induction n, hk using Nat.le_induction with
  | base => exact h
  | succ n _ ih =>
    apply ih
    rw [execCalls_succ'] at h
    cases he : execCalls imem n t with
    | none => simp [he] at h
    | some t' => rfl

end Loop

section Calls

variable (imem dmem : Pmem)

theorem wbuValid_of_trap {n : Nat} (h : (stateAt imem dmem n).top.core.lsu.ebreakLsuWbu = true) :
    (stateAt imem dmem n).top.core.lsu.wbuValid = true := by
  obtain ⟨o, hp⟩ := Core.runFrom_sim imem dmem (coreInAt imem dmem) (le_refl n)
  rw [stateAt_core] at h ⊢
  rw [hp.trap, Bool.and_eq_true] at h
  exact h.1

theorem run_regs_zero (inp : Nat → CoreIn) (n : Nat) : (Core.runFrom imem dmem inp n).regs 0#5 = 0#32 := by
  apply Clocked.run_invariant (P := fun s : Core => s.regs 0#5 = 0#32)
  case hs => rfl
  case hstep =>
    intro i s hs
    simp only [Core.step, rfNext, rfWrite, Bool.false_eq_true, if_false]
    split_ifs with hw
    · simp only [Bool.and_eq_true, decide_eq_true_eq] at hw
      exact absurd hw.2.symm hw.1.2
    · exact hs

end Calls

end SimTop

theorem Instr.encode_ne_ebreak (i : Instr) : i.encode ≠ 0x00100073#32 := by
  intro he
  have ho : opcode i.encode = instSystem := by rw [he]; decide
  cases i <;> simp [Instr.encode, instSystem] at ho

/-- A program that prints nothing and that the ISA machine runs from reset to its first ebreak, behind `m`
instructions. Two more stand behind the ebreak, which the core executes before it traps. -/
structure Halts (mem : Pmem) (T : Nat → State) (I : Nat → Option Instr) (m : Nat) : Prop where
  program : Program mem T I (m + 3)
  ebreak : I m = none
  instr : ∀ k < m, I k ≠ none
  silent : ∀ k < m + 3, ∀ i, I k = some i → instPutch (i.effect (T k).regs (T k).pc) = none

theorem Served.skipsRef {e : Effect} {a : Access} (h : Served e) (hp : instPutch e = none)
    (ha : Npc.instAccess e = some a) : a.skipsRef = false := by
  have hs := h.instAccess ha
  cases a with
  | read addr => simpa [Access.served, Access.skipsRef] using hs
  | write addr _ _ =>
    cases hl : e.load with
    | some l => simp [Npc.instAccess, hl] at ha
    | none =>
      cases hst : e.store with
      | none => simp [Npc.instAccess, hl, hst] at ha
      | some st =>
        simp only [Npc.instAccess, hl, hst, Option.some.injEq, Access.write.injEq] at ha
        obtain ⟨rfl, -⟩ := ha
        have hne : st.addr ≠ 0x10000000#32 := fun hh => by simp [instPutch, hst, hh] at hp
        simpa [Access.served, Access.skipsRef, hne] using hs

def cpuState (t : State) : CpuState := ⟨t.regs, t.pc⟩

section Trace

open SimTop

variable {mem : Pmem} {T : Nat → State} {I : Nat → Option Instr} {m n k : Nat}

theorem Halts.singleCycle (h : Halts mem T I m) (hn : commitsAt mem mem n ≤ m) :
    (stateAt mem mem n).singleCycle = some (stateAt mem mem (n + 1)) ∧
      (stateAt mem mem n).access.any Access.skipsRef = false := by
  have hle := operands_le mem mem (n + 1)
  have hle' := operands_le mem mem n
  have hone := (stateAt mem mem (n + 1)).instCpmmit.toNat_le
  rw [commitsAt_succ] at hle
  refine ⟨h.program.singleCycle (by omega), ?_⟩
  rw [Option.any_eq_false]
  intro a ha
  obtain ⟨k, hk, i, hI, hi⟩ := h.program.access (by omega) ha
  have hno := (h.program.served k hk i hI).skipsRef (h.silent k hk i hI) hi
  simp [hno]

/-- The loop runs to the first commit, and the trap of the cycle before it is its trap. -/
theorem Halts.callLoop (h : Halts mem T I m) {t : SimTop} (hl : execLoop mem k (stateAt mem mem n) = some t)
    (hn : commitsAt mem mem n ≤ m) (trap skip : Bool) :
    ∃ n', t = stateAt mem mem (n' + 1) ∧ commitsAt mem mem n' = commitsAt mem mem n ∧
      (stateAt mem mem n').top.core.lsu.wbuValid = true ∧
      SimTop.callLoop k ⟨stateAt mem mem n, trap, skip⟩ =
        some ⟨t, trap || (stateAt mem mem n').top.core.lsu.ebreakLsuWbu, skip⟩ := by
  induction k generalizing n trap with
  | zero => simp [execLoop] at hl
  | succ k ih =>
    obtain ⟨hcycle, hskip⟩ := h.singleCycle hn
    rw [execLoop, ← stateAt_succ] at hl
    simp only [SimTop.callLoop, hcycle, Option.bind_some, hskip, Bool.or_false]
    cases hc : (stateAt mem mem (n + 1)).instCpmmit with
    | true =>
      rw [hc, if_pos rfl] at hl
      obtain rfl := Option.some.inj hl
      exact ⟨n, rfl, rfl, by rw [← instCpmmit_succ, hc], by simp⟩
    | false =>
      rw [hc, if_neg Bool.false_ne_true] at hl
      have hsame : commitsAt mem mem (n + 1) = commitsAt mem mem n := by simp [commitsAt_succ, hc]
      have hno : (stateAt mem mem n).top.core.lsu.ebreakLsuWbu = false := by
        by_contra hb
        have hv := wbuValid_of_trap mem mem (by simpa using hb)
        rw [← instCpmmit_succ, hc] at hv
        cases hv
      obtain ⟨n', ht, hn', hv, hcall⟩ := ih hl (by omega) trap
      refine ⟨n', ht, by omega, hv, ?_⟩
      rw [hno, Bool.or_false, if_neg Bool.false_ne_true, hcall]

theorem Halts.afterCalls (h : Halts mem T I m) (hk : k ≤ m + 1) {t : SimTop}
    (hc : execCalls mem k (.reset mem) = some t) :
    SimTop.afterCalls k (.reset mem) = some t ∧ ∃ n, t = stateAt mem mem n ∧ commitsAt mem mem n = k := by
  induction k generalizing t with
  | zero =>
    obtain rfl := Option.some.inj hc
    exact ⟨h.program.cycles (n := 0) (Nat.zero_le _), 0, rfl, rfl⟩
  | succ k ih =>
    rw [execCalls_succ'] at hc
    obtain ⟨t', ht', ho⟩ := Option.bind_eq_some_iff.mp hc
    obtain ⟨hafter, n, rfl, hn⟩ := ih (by omega) ht'
    obtain ⟨n', rfl, hn', hv, hcall⟩ := h.callLoop ho (by omega) false false
    refine ⟨?_, n' + 1, rfl, ?_⟩
    · rw [SimTop.afterCalls, hafter, Option.bind_some, call, hcall, Option.map_some]
    · rw [commitsAt_succ, instCpmmit_succ, hv, hn', hn]
      rfl

theorem regs_eq {a : Arch} {t : State} (h : Matches t a) (h0 : a.regs 0#5 = 0#32) : a.regs = t.regs := by
  funext r
  by_cases hr : r = 0#5
  · rw [hr, h0, RegFile.apply_zero]
  · rw [← h.regs r, readReg, if_neg hr]

/-- The calls of `exec_one_inst` deliver the instructions of the program and then its ebreak. -/
theorem Halts.inst (h : Halts mem T I m) (hk : k ≤ m)
    (hc : (execCalls mem (k + 1) (.reset mem)).isSome = true) :
    SimTop.inst (.reset mem) k = ⟨(T (k + 1)).regs, (T k).pc, decide (k = m), false, ()⟩ := by
  obtain ⟨t', ht'⟩ := Option.isSome_iff_exists.mp hc
  rw [execCalls_succ'] at ht'
  obtain ⟨t, ht, ho⟩ := Option.bind_eq_some_iff.mp ht'
  obtain ⟨hafter, n, rfl, hn⟩ := h.afterCalls (by omega) ht
  obtain ⟨n', rfl, hn', hv, hcall⟩ := h.callLoop ho (by omega) false false
  obtain ⟨o, hp⟩ := Core.runFrom_sim mem mem (coreInAt mem mem) (Nat.le_succ n')
  have hlen : (Core.writtenBack mem mem (coreInAt mem mem) n').length = k := by
    rw [← Core.commits_eq_writtenBack, ← hn, ← hn', commitsAt]
  have hmono := csrOperands_length_mono mem mem (coreInAt mem mem) (by omega : n' ≤ n' + 1)
  have hcount := hp.count
  rw [stateAt_core] at hv hcall
  have hregs := hp.step_regs (i := coreInAt mem mem n')
  rw [hlen, hv, Bool.toNat_true] at hregs hcount
  have hm := h.program.matches (coreInAt mem mem) (n := n' + 1) (k := k) (by omega) (by omega)
  have hm' := h.program.matches (coreInAt mem mem) (n := n' + 1) (k := k + 1) (by omega) (by omega)
  have hnext : (stateAt mem mem (n' + 1)).top.core.regs = (T (k + 1)).regs := by
    rw [stateAt_core]
    exact hregs.trans (regs_eq hm'
      ((congrFun hregs 0#5).symm.trans (run_regs_zero mem mem (coreInAt mem mem) (n' + 1))))
  have hpc : (stateAt mem mem (n' + 1)).top.core.wbu.commitPc = (T k).pc := by
    rw [← hm.pc, ← hlen, ← hp.wbPc hv, stateAt_core]
    rfl
  have htrap : (Core.runFrom mem mem (coreInAt mem mem) n').lsu.ebreakLsuWbu = decide (k = m) := by
    rw [hp.trap, hv, Bool.true_and, hlen, Arch.ebreak_eq]
    refine decide_eq_decide.mpr ?_
    cases hI : I k with
    | none =>
      have hkm : k = m := by
        by_contra hne
        exact h.instr k (by omega) hI
      obtain ⟨he, ha, -⟩ := h.program.ebreak k (by omega) hI
      exact iff_of_true (hm.inst_ebreak he ha) hkm
    | some i =>
      have hl := (h.program.instr k (by omega) i hI).1
      refine iff_of_false ?_ fun hkm => ?_
      · rw [Arch.inst, hm.pc, imemRdata_eq_fetch mem hl.pc_aligned, hl.fetched]
        exact Instr.encode_ne_ebreak i
      · rw [hkm, h.ebreak] at hI
        cases hI
  simp only [SimTop.inst, hafter, Option.bind_some, call, hcall, hnext, hpc, htrap, Bool.false_or]

end Trace

namespace Monitor

variable {mem : Pmem} {T : Nat → State} {I : Nat → Option Instr} {m : Nat} {μ ε : Type*} {cfg : Config}
  {exec : CpuState × μ → CpuState × μ} {σ : Nat → μ} {M : Monitor μ ε} (expr : ε → Unit → Word)

/-- The reference goes through the trace. -/
def Follows (exec : CpuState × μ → CpuState × μ) (T : Nat → State) (σ : Nat → μ) (m : Nat) : Prop :=
  ∀ k < m, exec (cpuState (T k), σ k) = (cpuState (T (k + 1)), σ (k + 1))

/-- The simulator after `k` instructions of the trace, the reference one behind. -/
structure Ran (cfg : Config) (T : Nat → State) (σ : Nat → μ) (k : Nat) (M : Monitor μ ε) : Prop where
  nrGuestInst : M.nrGuestInst = k
  wps : M.wps = []
  isSkipRef : M.difftest.isSkipRef = false
  ref : cfg.difftest = true → M.difftest.ref = (cpuState (T (k - 1)), σ (k - 1))
  nIgnoreFirst : cfg.difftest = true → M.difftest.nIgnoreFirst = decide (0 < k)
  cpu : cfg.difftest = true → 0 < k → M.difftest.cpu = ⟨(T k).regs, (T (k - 1)).pc⟩

theorem Ran.difftestStep {k : Nat} (h : Ran cfg T σ k M) (hk : k ≤ m) (hf : Follows exec T σ m)
    (hd : cfg.difftest = true) (npc : NpcState) (regs : Regs) :
    difftestStep exec regs (T k).pc { M.difftest with npc := npc } =
      { M.difftest with
        nIgnoreFirst := true
        npc := npc
        ref := (cpuState (T k), σ k)
        cpu := ⟨regs, (T k).pc⟩ } := by
  have hfirst := h.nIgnoreFirst hd
  have href := h.ref hd
  cases k with
  | zero =>
    rw [Nat.zero_sub] at href
    simp [Npc.difftestStep, h.isSkipRef, hfirst, ← href, updateRegState]
  | succ k =>
    have hcpu := h.cpu hd (by omega)
    rw [Nat.add_sub_cancel] at href hcpu
    have hcheck : difftestCheckregs (cpuState (T (k + 1))) M.difftest.cpu (T (k + 1)).pc = true := by
      rw [difftestCheckregs_iff, hcpu]
      exact ⟨rfl, rfl⟩
    simp [Npc.difftestStep, h.isSkipRef, hfirst, href, hf k (by omega), checkregs, hcheck, updateRegState]

/-- One round of `execute`, on instruction `k` or the ebreak. -/
theorem Ran.instStep {k : Nat} (h : Ran cfg T σ k M) (hk : k ≤ m) (hf : Follows exec T σ m)
    (regs : Regs) (trap : Bool) :
    let M' := M.instStep cfg exec expr ⟨regs, (T k).pc, trap, false, ()⟩
    M'.npcState = (if trap then npctrap (T k).pc regs else M.npcState) ∧ M'.nrGuestInst = k + 1 ∧
      (regs = (T (k + 1)).regs → Ran cfg T σ (k + 1) M') := by
  intro M'
  let d : Difftest μ := { M.difftest with npc := if trap then npctrap (T k).pc regs else M.npcState }
  have hd : M'.difftest = if cfg.difftest then Npc.difftestStep exec regs (T k).pc d else d := by
    cases hw : cfg.watchpoint <;>
      simp [M', Monitor.instStep, execOnce, traceAndDifftest, record, npcState, d, hw, h.wps, scanWpDiff]
  have hwps : M'.wps = [] := by
    cases hw : cfg.watchpoint <;>
      simp [M', Monitor.instStep, execOnce, traceAndDifftest, record, hw, h.wps, scanWpDiff]
  have hnr : M'.nrGuestInst = k + 1 := by
    cases hw : cfg.watchpoint <;>
      simp [M', Monitor.instStep, execOnce, traceAndDifftest, record, hw, h.nrGuestInst]
  cases hdt : cfg.difftest with
  | false =>
    rw [hdt, if_neg Bool.false_ne_true] at hd
    refine ⟨by rw [npcState, hd], hnr, fun _ => ?_⟩
    constructor
    case nrGuestInst => exact hnr
    case wps => exact hwps
    case isSkipRef => rw [hd]; exact h.isSkipRef
    all_goals simp [hdt]
  | true =>
    rw [hdt, if_pos rfl, h.difftestStep hk hf hdt] at hd
    refine ⟨by rw [npcState, hd], hnr, fun hr => ?_⟩
    constructor
    case nrGuestInst => exact hnr
    case wps => exact hwps
    case isSkipRef => rw [hd]; exact h.isSkipRef
    case ref => rw [hd]; simp
    case nIgnoreFirst => rw [hd]; simp
    case cpu => rw [hd, hr]; simp

/-- The loop of `execute` over the rest of the program ends at its ebreak. -/
theorem Ran.execute (hh : Halts mem T I m) (hf : Follows exec T σ m)
    (hc : (SimTop.execCalls mem (m + 1) (.reset mem)).isSome = true) {n k : Nat} (hn : m + 1 ≤ k + n)
    (hk : k ≤ m) (h : Ran cfg T σ k M) (hr : M.npcState.state = .npcRunning) :
    let M' := M.execute cfg exec expr (SimTop.inst (.reset mem)) n
    M'.npcState = ⟨.npcEnd, (T m).pc, (T m).regs 10#5⟩ ∧ M'.nrGuestInst = m + 1 := by
  induction n generalizing k M with
  | zero => omega
  | succ n ih =>
    have hinst := hh.inst hk (SimTop.execCalls_isSome_of_le (by omega) hc)
    have hstep := h.instStep expr hk hf (T (k + 1)).regs (decide (k = m))
    rw [← hinst] at hstep
    obtain ⟨hnpc, hnr, hran⟩ := hstep
    simp only [Monitor.execute, h.nrGuestInst]
    by_cases hkm : k = m
    · subst hkm
      obtain ⟨-, -, hT⟩ := hh.program.ebreak k (by omega) hh.ebreak
      simp only [decide_true, if_true, hT] at hnpc
      rw [if_pos (by simp [hnpc, npctrap])]
      exact ⟨hnpc, hnr⟩
    · simp only [hkm, decide_false, Bool.false_eq_true, if_false] at hnpc
      rw [if_neg (by rw [hnpc, hr]; decide)]
      exact ih (by omega) (by omega) (hran rfl) (by rw [hnpc, hr])

end Monitor

open Monitor

/-- `default_img`, whose data behind the ebreak are fetched and executed as a jump out of the memory. -/
def defaultImg : Pmem := image [0x00000297#32, 0x00100073#32, 0xdeadbeef#32]

example : (SimTop.cycles 4 (.reset defaultImg)).isSome = true ∧ SimTop.cycles 5 (.reset defaultImg) = none :=
  ⟨by decide +kernel, Option.isNone_iff_eq_none.mp (by decide +kernel)⟩

end Npc
