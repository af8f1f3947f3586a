import Npc.CsrOrder
import Npc.MemoryBus
import Npc.Watchdog

/-! The simulated machine with the one memory of `memory.cpp`, which holds code and data. A program that
stays in that memory and does not write over what is fetched runs on it as it does with an instruction
memory of its own, and no call of its cycles panics. -/

namespace Npc

open Rv32i

/-- Whether `CSR.v` calls `unknow_inst` at the next clock edge. -/
def unknowInst (w : ExCsr) (c : Csr) : Bool :=
  if w.event then c.mstatus ≠ 0x1800#32 else w.wen && !csrs.contains w.waddr

/-- The argument of the call of `pmem_read` for the fetch. -/
def Core.fetch (i : CoreIn) (s : Core) : Option Word :=
  if imemArvalid false (s.ifReady false i) (s.exGlbFlush i) s.ifu then some s.ifu.pc else none

def Access.isRead : Access → Bool
  | .read _ => true
  | .write .. => false

/-- Whether the call raises the skip flag of differential testing. -/
def Access.skipsRef : Access → Bool
  | .read addr | .write addr _ _ => !inMem addr

namespace SimTop

def coreIn (t : SimTop) : CoreIn := t.top.coreIn (lfsrHit t.lfsr)

def access (t : SimTop) : Option Access := t.top.core.access t.coreIn

/-- Whether the calls of `pmem_read` made in a state return. -/
def readsServed (t : SimTop) : Bool :=
  (t.top.core.fetch t.coreIn).all inMem && t.access.all fun a => !a.isRead || a.served

/-- Whether the calls made at the clock edge return, `unknow_inst` with them. -/
def edgeServed (t : SimTop) : Bool :=
  t.access.all (fun a => a.isRead || a.served) && !unknowInst t.top.core.exCsr t.top.csr

/-- `single_cycle`, with `none` where a call does not return. The state behind the edge is evaluated in it. -/
def singleCycle (t : SimTop) : Option SimTop :=
  let t' := t.step t.top.core.dmem false
  if t.edgeServed && t'.readsServed then some t' else none

/-- The cycles behind the `eval` that ends `init_cpu`. -/
def cycles : Nat → SimTop → Option SimTop
  | 0, t => if t.readsServed then some t else none
  | n + 1, t => (cycles n t).bind singleCycle

end SimTop

section Step

variable {imem imem' : Pmem} {i : CoreIn} {s : Core} {pc : Word}

theorem Core.step_congr (h : ∀ a, s.fetch i = some a → imemRdata imem a = imemRdata imem' a) :
    s.step imem false i = s.step imem' false i := by
  have hifu : (s.step imem false i).ifu = (s.step imem' false i).ifu := by
    cases hv : imemArvalid false (s.ifReady false i) (s.exGlbFlush i) s.ifu with
    | true => simp only [step, h s.ifu.pc (if_pos hv)]
    | false => simp [step, ifuNext, hv]
  simp only [step, Core.mk.injEq, and_true] at hifu ⊢
  exact hifu

/-- Behind a redirect ID/EX is empty. -/
theorem Core.step_redirect (h : (s.step imem false i).ifu.exIfPcValidR = true) :
    (s.step imem false i).idEx.valid = false := by
  have hf : s.exGlbFlush i = true := by
    rw [← h]
    simp only [step, ifuNext]
    split_ifs <;> rfl
  rw [step_idEx_flush imem hf]
  rfl

/-- What the core may fetch while the instruction at `pc` is the next to leave EX. -/
def fetches (pc : Word) : List Word := [pc, pc + 4#32, pc + 8#32]

theorem Front.fetch_mem (h : Front imem s pc) (hr : s.ifu.exIfPcValidR = true → s.idEx.valid = false)
    {a : Word} (ha : s.fetch i = some a) : a ∈ fetches pc := by
  rw [Core.fetch] at ha
  split_ifs at ha with hv
  obtain rfl := Option.some.inj ha
  have h48 : pc + 4#32 + 4#32 = pc + 8#32 := by bv_omega
  rw [Front] at h
  split_ifs at h with hid
  · -- behind an unconditional jump in EX nothing is fetched
    cases hu : s.idEx.uncondJump with
    | false => simp [fetches, (h.next hu).next, h48]
    | true =>
      have hrf : s.ifu.exIfPcValidR = false := by
        by_contra hh
        rw [Bool.not_eq_false] at hh
        rw [hr hh] at hid
        cases hid
      cases hready : s.exIdReady i with
      | false => simp [imemArvalid, Core.ifReady_of_not_ready hready, hrf] at hv
      | true =>
        have hflush : s.exGlbFlush i = true := by
          by_contra hf
          rw [uncondJump_of_no_flush hid hready (by simpa using hf)] at hu
          cases hu
        simp [imemArvalid, hflush] at hv
  · rw [InIf] at h
    split_ifs at h with hvi
    · simp [fetches, h.next]
    · simp [fetches, h]

end Step

namespace SimTop

section Run

variable (imem dmem : Pmem)

/-- The machine with an instruction memory of its own, `n` cycles after reset. -/
def stateAt (n : Nat) : SimTop := (step imem false)^[n] (reset dmem)

/-- The inputs the cache and the CSR file give the core. -/
def coreInAt (n : Nat) : CoreIn := (stateAt imem dmem n).top.coreIn (lfsrHit (stateAt imem dmem n).lfsr)

theorem stateAt_succ (n : Nat) : stateAt imem dmem (n + 1) = (stateAt imem dmem n).step imem false :=
  Function.iterate_succ_apply' _ _ _

theorem stateAt_core (n : Nat) :
    (stateAt imem dmem n).top.core = Core.runFrom imem dmem (coreInAt imem dmem) n := by
  induction n with
  | zero => rfl
  | succ n ih =>
    rw [stateAt_succ, Core.runFrom, Clocked.run_succ, ← Core.runFrom, ← ih]
    rfl

theorem instCpmmit_succ (n : Nat) :
    (stateAt imem dmem (n + 1)).instCpmmit = (stateAt imem dmem n).top.core.lsu.wbuValid := by
  rw [stateAt_succ]
  rfl

def commitsAt (n : Nat) : Nat := (Core.commits imem dmem (coreInAt imem dmem) n).length

theorem commitsAt_succ (n : Nat) :
    commitsAt imem dmem (n + 1) = commitsAt imem dmem n + (stateAt imem dmem (n + 1)).instCpmmit.toNat := by
  rw [commitsAt, Core.commits_succ, List.length_append, Core.commit, ← stateAt_core]
  cases h : (stateAt imem dmem (n + 1)).instCpmmit <;> simp [commitsAt, instCpmmit] at h ⊢ <;> simp [h]

theorem operands_le (n : Nat) :
    (Core.csrOperands imem dmem (coreInAt imem dmem) n).length ≤ commitsAt imem dmem n + 2 := by
  obtain ⟨o, hp⟩ := Core.runFrom_sim imem dmem (coreInAt imem dmem) (le_refl n)
  have hcount := hp.count
  have hv := (Core.runFrom imem dmem (coreInAt imem dmem) n).lsu.wbuValid.toNat_le
  have ho := o.isSome.toNat_le
  rw [commitsAt, Core.commits_eq_writtenBack]
  omega

theorem stateAt_redirect (n : Nat) (h : (stateAt imem dmem n).top.core.ifu.exIfPcValidR = true) :
    (stateAt imem dmem n).top.core.idEx.valid = false := by
  cases n with
  | zero => rfl
  | succ n =>
    rw [stateAt_succ] at h ⊢
    exact Core.step_redirect h

theorem stateAt_access (n : Nat) : (stateAt imem dmem n).access =
    Core.access (coreInAt imem dmem n) (Core.runFrom imem dmem (coreInAt imem dmem) n) := by
  rw [← stateAt_core]
  rfl

end Run

end SimTop

theorem csrOperands_length_mono (imem dmem : Pmem) (inp : Nat → CoreIn) {n m : Nat} (h : n ≤ m) :
    (Core.csrOperands imem dmem inp n).length ≤ (Core.csrOperands imem dmem inp m).length :=
  (Clocked.emitted_prefix (Core.step imem false) (Core.reset dmem) inp Core.consumed h).length_le

/-- The `ex_csr_*` registers hold the last instruction that left EX, or nothing. -/
def ExCsrOf (imem : Pmem) (A : Nat → Arch) (e : Nat) (s : Core) : Prop :=
  s.exCsr = exCsrIdle ∨ ∃ k, e = k + 1 ∧ s.exCsr.wen = ((A k).decoded imem).csrWen ∧
    s.exCsr.event = ((A k).decoded imem).csrEvent

theorem ExCsrOf.step {imem : Pmem} {A : Nat → Arch} {e c : Nat} {s : Core} (h : Sim imem A e c s) (i : CoreIn) :
    ExCsrOf imem A (e + (s.consumed i).toList.length) (s.step imem false i) := by
  obtain ⟨o, hp⟩ := h
  cases hl : s.exLeaves i with
  | false =>
    left
    rw [Core.exLeaves] at hl
    simp [Core.step, exCsrNext, hl]
  | true =>
    right
    have hvr : s.exIdReady i = true ∧ s.idEx.valid = true := by simpa [Core.exLeaves] using hl
    refine ⟨e, by simp [Core.consumed, hl], ?_, ?_⟩ <;>
      simp [Core.step, exCsrNext, hvr, csrPayload, hp.idEx_decoded hvr.2]

theorem exCsrOf_runFrom (imem dmem : Pmem) (inp : Nat → CoreIn) (n : Nat) :
    ExCsrOf imem (Core.seqRun imem dmem inp n) (Core.csrOperands imem dmem inp n).length
      (Core.runFrom imem dmem inp n) := by
  cases n with
  | zero => exact Or.inl rfl
  | succ n =>
    have hh := ExCsrOf.step (Core.runFrom_sim imem dmem inp (Nat.le_succ n)) (inp n)
    rwa [← List.length_append] at hh

/-- An instruction that does not touch the CSR file. -/
def Arch.NoCsr (imem : Pmem) (a : Arch) : Prop :=
  (a.decoded imem).csrWen = false ∧ (a.decoded imem).csrEvent = false

theorem Matches.noCsr {imem : Pmem} {i : Instr} {t : State} {a : Arch} (hm : Matches t a) (hl : Legal imem i t) :
    a.NoCsr imem := by
  have hw : a.inst imem = i.encode := by
    rw [Arch.inst, hm.pc, imemRdata_eq_fetch imem hl.pc_aligned, hl.fetched]
  obtain ⟨hwen, hevent, -⟩ := decodeInst_csr i.encode
  have ho : opcode i.encode ≠ instSystem := by cases i <;> simp [Instr.encode, instSystem]
  rw [Arch.NoCsr, Arch.decoded, hw, hwen, hevent]
  refine ⟨by simp [isCsrrw, ho], decide_eq_false ?_⟩
  intro he
  rw [he] at ho
  exact ho (by decide)

/-- A run of a program of RV32I instructions and ebreaks, behind which the core goes on, in the memory `mem`.
It loads from the memory and stores to it or to the serial port. All fetches are in the memory, and what
they fetch keeps its value. -/
structure Program (mem : Pmem) (T : Nat → State) (I : Nat → Option Instr) (m : Nat) : Prop where
  start : T 0 = .reset mem
  instr : ∀ k < m, ∀ i, I k = some i → Legal mem i (T k) ∧ T (k + 1) = (T k).exec i
  ebreak : ∀ k < m, I k = none → Rv32i.fetch mem (T k).pc = 0x00100073#32 ∧ 4 ∣ (T k).pc.toNat ∧
    T (k + 1) = { T k with pc := (T k).pc + 4#32 }
  served : ∀ k < m, ∀ i, I k = some i → Served (i.effect (T k).regs (T k).pc)
  inside : ∀ k ≤ m, ∀ a ∈ fetches (T k).pc, inMem a = true
  unwritten : ∀ k ≤ m, ∀ a ∈ fetches (T k).pc, ∀ j ≤ m, imemRdata (T j).mem a = imemRdata mem a

section Ebreak

variable {imem : Pmem} {t : State} {a : Arch}

theorem Matches.inst_ebreak (hm : Matches t a) (he : Rv32i.fetch imem t.pc = 0x00100073#32)
    (ha : 4 ∣ t.pc.toNat) : a.inst imem = 0x00100073#32 := by
  rw [Arch.inst, hm.pc, imemRdata_eq_fetch imem ha, he]

theorem Arch.noCsr_ebreak (h : a.inst imem = 0x00100073#32) : a.NoCsr imem := by
  rw [NoCsr, decoded, h]
  exact ⟨by decide, by decide⟩

theorem payload_ebreak (h : a.inst imem = 0x00100073#32) (csr : Word) :
    (a.payload imem csr).ctrl = 0#2 ∧ (a.payload imem csr).wbWen = false := by
  have hd : a.decoded imem = decodeInst 0x00100073#32 := by rw [Arch.decoded, h]
  rw [Arch.payload, hd]
  exact ⟨rfl, rfl⟩

theorem seqStep_ebreak (h : a.inst imem = 0x00100073#32) (csr : Word) :
    seqStep imem csr a = { a with pc := a.pc + 4#32 } := by
  obtain ⟨hctrl, hwen⟩ := payload_ebreak h csr
  have hj : a.jTaken imem = false := by
    rw [Arch.jTaken, Arch.decoded, h]
    rfl
  rw [seqStep, hj, if_neg Bool.false_ne_true, hwen, rfWrite_false]
  simp [retireMem, hctrl]

theorem Matches.ebreak (hm : Matches t a) (he : Rv32i.fetch imem t.pc = 0x00100073#32) (ha : 4 ∣ t.pc.toNat)
    (csr : Word) : Matches { t with pc := t.pc + 4#32 } (seqStep imem csr a) := by
  rw [seqStep_ebreak (hm.inst_ebreak he ha)]
  exact ⟨congrArg (· + 4#32) hm.pc, hm.regs, hm.mem⟩

end Ebreak

section Program

open SimTop

variable {mem : Pmem} {T : Nat → State} {I : Nat → Option Instr} {m n k : Nat}

theorem Program.matches (h : Program mem T I m) (inp : Nat → CoreIn) (hk : k ≤ m)
    (hn : k ≤ (Core.csrOperands mem mem inp n).length) : Matches (T k) (Core.seqRun mem mem inp n k) := by
  induction k with
  | zero =>
    rw [h.start]
    exact matches_reset mem
  | succ k ih =>
    have hx : (Core.csrOperands mem mem inp n)[k]? = some (Core.csrOperands mem mem inp n)[k] :=
      List.getElem?_eq_getElem (by omega)
    have hm := ih (by omega) (by omega)
    rw [Core.seqRun, Clocked.after_succ _ _ _ hx]
    cases hI : I k with
    | some i => exact hm.step ⟨i, h.instr k hk i hI⟩ _
    | none =>
      obtain ⟨he, ha, hT⟩ := h.ebreak k hk hI
      rw [hT]
      exact hm.ebreak he ha _

theorem Program.noCsr (h : Program mem T I m) (inp : Nat → CoreIn) (hk : k < m)
    (hn : k ≤ (Core.csrOperands mem mem inp n).length) : (Core.seqRun mem mem inp n k).NoCsr mem := by
  have hm := h.matches inp hk.le hn
  cases hI : I k with
  | some i => exact hm.noCsr (h.instr k hk i hI).1
  | none =>
    obtain ⟨he, ha, -⟩ := h.ebreak k hk hI
    exact Arch.noCsr_ebreak (hm.inst_ebreak he ha)

/-- The access of a cycle is that of an instruction of the program. -/
theorem Program.access (h : Program mem T I m) (hn : (Core.csrOperands mem mem (coreInAt mem mem) n).length ≤ m)
    {a : Access} (ha : (stateAt mem mem n).access = some a) :
    ∃ k < m, ∃ i, I k = some i ∧ instAccess (i.effect (T k).regs (T k).pc) = some a := by
  rw [stateAt_access] at ha
  obtain ⟨hlt, hacc⟩ := Core.access_eq mem mem (coreInAt mem mem) ha
  generalize Core.passed mem mem (coreInAt mem mem) n = k at hlt hacc
  have hm := h.matches (coreInAt mem mem) (by omega : k ≤ m) hlt.le
  cases hI : I k with
  | some i =>
    refine ⟨k, by omega, i, hI, ?_⟩
    rw [← hacc, Core.seqAccesses_eq hm (h.instr k (by omega) i hI).1 hlt]
  | none =>
    obtain ⟨he, hal, -⟩ := h.ebreak k (by omega) hI
    have hctrl := (payload_ebreak (hm.inst_ebreak he hal) (Core.csrOperands mem mem (coreInAt mem mem) n)[k]).1
    rw [Core.seqAccesses_succ hlt] at hacc
    simp [ExLsu.access, hctrl] at hacc

theorem Program.access_served (h : Program mem T I m)
    (hn : (Core.csrOperands mem mem (coreInAt mem mem) n).length ≤ m) {a : Access}
    (ha : (stateAt mem mem n).access = some a) : a.served = true := by
  obtain ⟨k, hk, i, hI, hi⟩ := h.access hn ha
  exact (h.served k hk i hI).instAccess hi

theorem Program.fetch (h : Program mem T I m) (hn : (Core.csrOperands mem mem (coreInAt mem mem) n).length ≤ m)
    {a : Word} (ha : (stateAt mem mem n).top.core.fetch (coreInAt mem mem n) = some a) :
    inMem a = true ∧ imemRdata (stateAt mem mem n).top.core.dmem a = imemRdata mem a := by
  obtain ⟨o, hp⟩ := Core.runFrom_sim mem mem (coreInAt mem mem) (le_refl n)
  have hle := Core.writtenBack_le mem mem (coreInAt mem mem) n
  have hfront := h.matches (coreInAt mem mem) hn (le_refl _)
  have hpassed := h.matches (coreInAt mem mem) (hle.trans hn) hle
  rw [stateAt_core] at ha ⊢
  have hfetch := hp.front.fetch_mem (by rw [← stateAt_core]; exact stateAt_redirect mem mem n) ha
  rw [hfront.pc] at hfetch
  rw [hp.dmem, hpassed.mem]
  exact ⟨h.inside _ hn a hfetch, h.unwritten _ hn a hfetch _ (hle.trans hn)⟩

theorem Program.readsServed (h : Program mem T I m)
    (hn : (Core.csrOperands mem mem (coreInAt mem mem) n).length ≤ m) :
    (stateAt mem mem n).readsServed = true := by
  rw [SimTop.readsServed, Bool.and_eq_true]
  constructor
  · rw [Option.all_eq_true]
    intro a ha
    exact (h.fetch hn ha).1
  · rw [Option.all_eq_true]
    intro a ha
    simp [h.access_served hn ha]

theorem Program.edgeServed (h : Program mem T I m)
    (hn : (Core.csrOperands mem mem (coreInAt mem mem) n).length ≤ m) :
    (stateAt mem mem n).edgeServed = true := by
  have hunknow : unknowInst (stateAt mem mem n).top.core.exCsr (stateAt mem mem n).top.csr = false := by
    have hx := exCsrOf_runFrom mem mem (coreInAt mem mem) n
    rw [← stateAt_core] at hx
    rcases hx with hx | ⟨k, he, hwen, hevent⟩
    · simp [unknowInst, hx, exCsrIdle]
    · obtain ⟨hw, hv⟩ := h.noCsr (coreInAt mem mem) (n := n) (k := k) (by omega) (by omega)
      simp [unknowInst, hwen, hevent, hw, hv]
  rw [SimTop.edgeServed, hunknow, Bool.not_false, Bool.and_true, Option.all_eq_true]
  intro a ha
  simp [h.access_served hn ha]

/-- A cycle of the machine is one of the machine with an instruction memory of its own. -/
theorem Program.singleCycle (h : Program mem T I m)
    (hn : (Core.csrOperands mem mem (coreInAt mem mem) (n + 1)).length ≤ m) :
    (stateAt mem mem n).singleCycle = some (stateAt mem mem (n + 1)) := by
  have hn' := (csrOperands_length_mono mem mem (coreInAt mem mem) (Nat.le_succ n)).trans hn
  have hstep : (stateAt mem mem n).step (stateAt mem mem n).top.core.dmem false = stateAt mem mem (n + 1) := by
    have hcore := Core.step_congr (i := coreInAt mem mem n) fun a ha => (h.fetch hn' ha).2
    rw [stateAt_succ]
    exact congrArg (fun core => (⟨⟨core, csrNext false (stateAt mem mem n).top.core.exCsr
      (stateAt mem mem n).top.csr⟩, lfsrNext false (stateAt mem mem n).lfsr⟩ : SimTop)) hcore
  rw [SimTop.singleCycle, hstep, if_pos (by rw [h.edgeServed hn', h.readsServed hn]; rfl)]

theorem Program.cycles (h : Program mem T I m)
    (hn : (Core.csrOperands mem mem (coreInAt mem mem) n).length ≤ m) :
    SimTop.cycles n (reset mem) = some (stateAt mem mem n) := by
  induction n with
  | zero => exact if_pos (h.readsServed (n := 0) hn)
  | succ n ih =>
    rw [SimTop.cycles, ih ((csrOperands_length_mono mem mem (coreInAt mem mem) (Nat.le_succ n)).trans hn),
      Option.bind_some]
    exact h.singleCycle hn

end Program

end Npc
