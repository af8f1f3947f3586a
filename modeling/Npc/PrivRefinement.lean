import Npc.CsrInst
import Npc.IsaRefinement
import Npc.PrivMachine

/-! The core with its CSR file runs RV32I with traps. It has less than the ISA: csrrs does not
write, mcause is set while mstatus is 0x1800 alone, neither a trap nor an mret changes mstatus, and
behind a csrrw its new value is not seen at once. A program that makes do with that runs as the ISA
says. -/

namespace Npc

open Rv32i ByteMemory

/-- A state, the CSR that the last instruction was a csrrw to and changed, and the value that mstatus was
last set to by reset or a csrrw. -/
structure TrapState extends PrivState where
  changed : Option CsrName
  kept : Word

namespace TrapState

open Function (update)

def reset (mem : Pmem) : TrapState where
  toState := .reset mem
  csrs := fun c => if c = .mstatus then 0x1800#32 else 0#32
  changed := none
  kept := 0x1800#32

/-- What the core has of a state, where traps and mret leave mstatus alone. -/
def core (t : TrapState) : PrivState := { t.toPrivState with csrs := update t.csrs .mstatus t.kept }

/-- The instruction at the pc is `i`, and the core has what it takes to run it. It reads mstatus only where
no trap and no mret has changed it since it was last set. -/
structure Fits (code : Pmem) (i : PrivInstr) (t : TrapState) : Prop extends PrivLegal code i t.toPrivState where
  seen : ∀ c ∈ i.reads, t.changed ≠ some c
  settled : i.reads = some .mstatus → t.csrs .mstatus = t.kept
  sets : ∀ rd c rs1, i = .csrrs rd c rs1 → t.csrs c ||| t.regs rs1 = t.csrs c
  mstatus : i = .ecall → t.kept = 0x1800#32

def exec (i : PrivInstr) (t : TrapState) : TrapState where
  toPrivState := t.toPrivState.exec i
  changed := i.changes t.core
  kept := match i with
    | .csrrw _ .mstatus rs1 => t.regs rs1
    | _ => t.kept

def Step (code : Pmem) (t t' : TrapState) : Prop := ∃ i, Fits code i t ∧ t' = t.exec i

def Trace (code : Pmem) (T : Nat → TrapState) (n : Nat) : Prop := ∀ k < n, Step code (T k) (T (k + 1))

section Fits

variable {code : Pmem} {t : TrapState}

theorem fits_base {i : Instr} (h : PrivLegal code (.base i) t.toPrivState) : t.Fits code (.base i) :=
  ⟨h, nofun, nofun, nofun, nofun⟩

/-- An instruction that only writes a register. -/
theorem fits_write {i : Instr} (hfetch : fetch code t.pc = (PrivInstr.base i).encode) (ha : 4 ∣ t.pc.toNat)
    (heven : i.TargetEven t.regs) (hwrite : ∃ w, i.effect t.regs t.pc = { write := some w }) :
    t.Fits code (.base i) := by
  obtain ⟨w, hw⟩ := hwrite
  refine fits_base ⟨hfetch, ha, heven, ?_⟩
  rw [hw]
  exact ⟨nofun, nofun, nofun⟩

theorem fits_opImm {o : OpImm} {rd rs1 : Reg} {imm : BitVec 12}
    (hfetch : fetch code t.pc = (PrivInstr.base (.opImm o rd rs1 imm)).encode) (ha : 4 ∣ t.pc.toNat) :
    t.Fits code (.base (.opImm o rd rs1 imm)) :=
  fits_write hfetch ha trivial ⟨_, rfl⟩

theorem fits_ecall (h : PrivLegal code .ecall t.toPrivState) (hs : t.changed ≠ some .mtvec)
    (hkept : t.kept = 0x1800#32) : t.Fits code .ecall := by
  refine ⟨h, fun c hc => ?_, nofun, nofun, fun _ => hkept⟩
  obtain rfl := Option.some.inj hc
  exact hs

theorem fits_mret (h : PrivLegal code .mret t.toPrivState) (hs : t.changed ≠ some .mepc) : t.Fits code .mret := by
  refine ⟨h, fun c hc => ?_, nofun, nofun, nofun⟩
  obtain rfl := Option.some.inj hc
  exact hs

/-- csrw -/
theorem fits_csrw {c : CsrName} {rs1 : Reg} (hfetch : fetch code t.pc = (PrivInstr.csrrw 0#5 c rs1).encode)
    (ha : 4 ∣ t.pc.toNat) : t.Fits code (.csrrw 0#5 c rs1) :=
  ⟨⟨hfetch, ha, trivial⟩, nofun, nofun, nofun, nofun⟩

/-- csrr -/
theorem fits_csrr {rd : Reg} {c : CsrName} (hfetch : fetch code t.pc = (PrivInstr.csrrs rd c 0#5).encode)
    (ha : 4 ∣ t.pc.toNat) (hseen : t.changed ≠ some c) (hset : c = .mstatus → t.csrs .mstatus = t.kept) :
    t.Fits code (.csrrs rd c 0#5) := by
  refine ⟨⟨hfetch, ha, trivial⟩, fun c' hc => ?_, fun hc => ?_, fun rd' c' rs1 h => ?_, nofun⟩
  · obtain ⟨-, hc⟩ := Option.ite_none_left_eq_some.mp hc
    obtain rfl := Option.some.inj hc
    exact hseen
  · obtain ⟨-, hc⟩ := Option.ite_none_left_eq_some.mp hc
    exact hset (Option.some.inj hc)
  · obtain ⟨-, rfl, rfl⟩ := PrivInstr.csrrs.inj h
    simp

theorem core_mstatus : t.core.csrs .mstatus = t.kept := by simp [core]

theorem core_of_ne {c : CsrName} (h : c ≠ .mstatus) : t.core.csrs c = t.csrs c := by simp [core, h]

theorem core_csrrw (rd rs1 : Reg) (c : CsrName) :
    (t.exec (.csrrw rd c rs1)).core.csrs = update t.core.csrs c (t.regs rs1) := by
  cases c <;> simp [core, exec, PrivState.exec, Function.update_comm]

/-- Where an instruction reads a CSR, the core has its value. -/
theorem Fits.core_csrs {i : PrivInstr} (h : t.Fits code i) {c : CsrName} (hc : i.reads = some c) :
    t.core.csrs c = t.csrs c := by
  by_cases hm : c = .mstatus
  · subst hm
    exact core_mstatus.trans (h.settled hc).symm
  · exact core_of_ne hm

end Fits

end TrapState

section Decode

variable (rd rs1 : RegAddr) (c : CsrName)

theorem csrField_format (top : BitVec 12) (f3 : BitVec 3) (op : BitVec 7) :
    csrField (format top rs1 f3 rd op) = top := by
  have hi := (format_fields top rs1 f3 rd op).2.2.2.2
  rw [← setWidth_immI, hi]
  apply BitVec.eq_of_getLsbD_eq
  intro i hi
  simp only [BitVec.getLsbD_setWidth, BitVec.getLsbD_signExtend]
  grind

theorem isCsrrw_encode : isCsrrw (PrivInstr.csrrw rd c rs1).encode = true := by
  simp [isCsrrw, PrivInstr.encode, instSystem]

theorem isCsrrs_encode : isCsrrs (PrivInstr.csrrs rd c rs1).encode = true := by
  simp [isCsrrs, PrivInstr.encode, instSystem]

end Decode

/-- Only a csrrw writes a CSR by its address. -/
theorem csrWen_encode {i : PrivInstr} {t : PrivState} (h : ∀ rd c rs1, i ≠ .csrrw rd c rs1)
    (ha : i.Aligned t) : (decodeInst i.encode).csrWen = false := by
  cases i with
  | base i => exact (implements_encode t.regs t.pc 0#32 ha.1).csrWen
  | csrrw rd c rs1 => exact absurd rfl (h rd c rs1)
  | csrrs rd c rs1 => rw [decodeInst_csrrs (isCsrrs_encode rd rs1 c)]
  | ecall => decide
  | mret => decide

/-- The sequential machine and a CSR file stand for the state. -/
structure TrapMatches (t : TrapState) (a : Arch) (c : Csr) : Prop where
  state : Matches t.toState a
  csrs : ∀ n : CsrName, csrRdata c n.addr = t.core.csrs n

section System

variable {imem : Pmem} {a : Arch} {rd rs1 : RegAddr} {c : CsrName}

theorem seqStep_of_lsuEn (x : Word) (h : (a.decoded imem).lsuEn = false) :
    seqStep imem x a = {
      pc := if a.jTaken imem then aluOut (a.decoded imem) a.pc (a.rs1 imem) (a.rs2 imem) x else a.pc + 4#32
      regs := rfWrite a.regs (a.decoded imem).rfWe (a.decoded imem).rd
        (wbDataNxt (a.decoded imem).wbCtrl a.pc (a.decoded imem).imm
          (aluOut (a.decoded imem) a.pc (a.rs1 imem) (a.rs2 imem) x))
      dmem := a.dmem } := by
  have hc : (a.payload imem x).ctrl = 0#2 := by simp [Arch.payload, payload, lsuCtrlNxt, h]
  simp [seqStep, retireData, retireMem, hc]
  rfl

theorem seqStep_csrrw (x : Word) (h : a.inst imem = (PrivInstr.csrrw rd c rs1).encode) :
    seqStep imem x a = ⟨a.pc + 4#32, rfWrite a.regs true rd x, a.dmem⟩ ∧
      a.csrPayload imem = ⟨true, a.pc, false, c.addr, readReg a.regs rs1⟩ := by
  have hd : a.decoded imem = _ := (congrArg decodeInst h).trans (decodeInst_csrrw (isCsrrw_encode rd rs1 c))
  have hf := format_fields c.addr rs1 0b001#3 rd 0b1110011#7
  have hrs1 : a.rs1 imem = readReg a.regs rs1 := by rw [Arch.rs1, h, PrivInstr.encode, hf.2.2.2.1]
  constructor
  · rw [seqStep_of_lsuEn x (by rw [hd]; rfl), Arch.jTaken, hd]
    simp [decodeDefault, PrivInstr.encode, jTaken, wbDataNxt, aluOut, alu, op2]
  · rw [Arch.csrPayload, hrs1, hd]
    simp [csrPayload, decodeDefault, PrivInstr.encode, csrField_format]

theorem seqStep_csrrs (x : Word) (h : a.inst imem = (PrivInstr.csrrs rd c rs1).encode) :
    seqStep imem x a = ⟨a.pc + 4#32, rfWrite a.regs true rd (readReg a.regs rs1 ||| x), a.dmem⟩ ∧
      (a.decoded imem).csrWen = false ∧ (a.decoded imem).csrEvent = false := by
  have hd : a.decoded imem = _ := (congrArg decodeInst h).trans (decodeInst_csrrs (isCsrrs_encode rd rs1 c))
  have hf := format_fields c.addr rs1 0b010#3 rd 0b1110011#7
  have hrs1 : a.rs1 imem = readReg a.regs rs1 := by rw [Arch.rs1, h, PrivInstr.encode, hf.2.2.2.1]
  refine ⟨?_, by rw [hd], by rw [hd]; rfl⟩
  rw [seqStep_of_lsuEn x (by rw [hd]; rfl), Arch.jTaken, hrs1, hd]
  simp [decodeDefault, PrivInstr.encode, jTaken, wbDataNxt, aluOut, alu, op1, op2]

/-- ecall and mret jump to the CSR they read. -/
theorem seqStep_trap (x : Word) {i : PrivInstr} (hi : i = .ecall ∨ i = .mret)
    (h : a.inst imem = i.encode) : seqStep imem x a = ⟨x, a.regs, a.dmem⟩ := by
  have hd : a.decoded imem = decodeInst i.encode := congrArg decodeInst h
  have hdec : (decodeInst i.encode).lsuEn = false ∧ (decodeInst i.encode).jEn = true ∧
      (decodeInst i.encode).jCond = .uncond ∧ (decodeInst i.encode).aluCtrl = .op2 ∧
      (decodeInst i.encode).aluOpCtrl = .rs1Csr ∧ (decodeInst i.encode).rfWe = false := by
    rcases hi with rfl | rfl <;> decide
  obtain ⟨hmem, hj, hjc, halu, hop, hwe⟩ := hdec
  rw [seqStep_of_lsuEn x (by rw [hd, hmem]), Arch.jTaken, hd]
  simp [jTaken, aluOut, hj, hjc, halu, hop, hwe, alu, op2]

end System

theorem addr_mem_csrs (n : CsrName) : n.addr ∈ csrs := by
  cases n <;> decide

section Step

variable {imem : Pmem} {t : TrapState} {a : Arch} {c : Csr} {i : PrivInstr}

theorem TrapMatches.inst (h : TrapMatches t a c) (hl : t.Fits imem i) : a.inst imem = i.encode := by
  rw [Arch.inst, h.state.pc, imemRdata_eq_fetch imem hl.pc_aligned, hl.fetched]

/-- The CSR file keeps what it has behind an instruction that is no csrrw and no ecall. -/
theorem csrNext_idle (pc rs1 : Word) {d : Decoded} (hw : d.csrWen = false) (he : d.csrEvent = false) (c : Csr) :
    csrNext false (csrPayload d pc rs1) c = c := by
  simp [csrNext, csrPayload, hw, he]

theorem TrapMatches.step_base {i : Instr} (h : TrapMatches t a c) (hl : t.Fits imem (.base i))
    (x : Word) :
    TrapMatches (t.exec (.base i)) (seqStep imem x a) (csrNext false (a.csrPayload imem) c) := by
  have hi := implements_encode t.regs t.pc x hl.base.even
  have hd : a.decoded imem = decodeInst i.encode := congrArg decodeInst (h.inst hl)
  constructor
  case state => exact h.state.step ⟨i, hl.base, rfl⟩ x
  case csrs =>
    intro n
    rw [Arch.csrPayload, hd, csrNext_idle _ _ hi.csrWen hi.csrEvent, h.csrs]
    rfl

theorem TrapMatches.set {x v : Word} {rd : RegAddr} (h : TrapMatches t a c)
    (hx : rd ≠ 0#5 → x = v) : ∀ r, readReg (rfWrite a.regs true rd x) r = t.regs.set rd v r := by
  intro r
  rw [readReg_rfWrite, RegFile.set_apply, h.state.regs]
  by_cases hrd : rd = 0#5
  · simp [hrd]
  · simp [hrd, hx hrd]

theorem TrapMatches.step_csrrw {rd rs1 : RegAddr} {n : CsrName} {x : Word} (h : TrapMatches t a c)
    (hl : t.Fits imem (.csrrw rd n rs1)) (hx : rd ≠ 0#5 → x = t.csrs n) :
    TrapMatches (t.exec (.csrrw rd n rs1)) (seqStep imem x a)
      (csrNext false (a.csrPayload imem) c) := by
  obtain ⟨hs, hp⟩ := seqStep_csrrw x (h.inst hl)
  rw [hs, hp]
  refine ⟨⟨?_, h.set hx, h.state.mem⟩, fun n' => ?_⟩
  · rw [h.state.pc]
    rfl
  · rw [csrRdata_write (addr_mem_csrs n') (addr_mem_csrs n), h.csrs, h.state.regs, TrapState.core_csrrw,
      Function.update_apply]
    simp only [CsrName.addr_injective.eq_iff]

theorem TrapMatches.step_csrrs {rd rs1 : RegAddr} {n : CsrName} {x : Word} (h : TrapMatches t a c)
    (hl : t.Fits imem (.csrrs rd n rs1)) (hx : rd ≠ 0#5 → x = t.csrs n) :
    TrapMatches (t.exec (.csrrs rd n rs1)) (seqStep imem x a)
      (csrNext false (a.csrPayload imem) c) := by
  obtain ⟨hs, hw, he⟩ := seqStep_csrrs x (h.inst hl)
  have hset : t.csrs n ||| t.regs rs1 = t.csrs n := hl.sets rd n rs1 rfl
  rw [hs, Arch.csrPayload, csrNext_idle _ _ hw he]
  refine ⟨⟨?_, h.set fun hrd => ?_, h.state.mem⟩, fun n' => ?_⟩
  · rw [h.state.pc]
    rfl
  · rw [h.state.regs, hx hrd, BitVec.or_comm, hset]
  · rw [h.csrs]
    simp only [TrapState.core, TrapState.exec, PrivState.exec, hset, Function.update_eq_self]

theorem TrapMatches.step_ecall {x : Word} (h : TrapMatches t a c) (hl : t.Fits imem .ecall)
    (hx : x = t.csrs .mtvec) :
    TrapMatches (t.exec .ecall) (seqStep imem x a) (csrNext false (a.csrPayload imem) c) := by
  have hd : a.decoded imem = decodeInst ecall := congrArg decodeInst (h.inst hl)
  have hc : c.mstatus = 0x1800#32 := (h.csrs .mstatus).trans (hl.mstatus rfl)
  have he : (csrPayload (decodeInst ecall) a.pc (a.rs1 imem)).event = true := by
    change (decodeInst ecall).csrEvent = true
    decide
  rw [seqStep_trap x (Or.inl rfl) (h.inst hl)]
  refine ⟨⟨hx, h.state.regs, h.state.mem⟩, fun n => ?_⟩
  have hh := h.csrs n
  rw [Arch.csrPayload, hd, csrNext, if_neg Bool.false_ne_true, if_pos he, if_pos hc]
  cases n with
  | mstatus => exact hh
  | mtvec => exact hh
  | mepc => exact h.state.pc
  | mcause => rfl

theorem TrapMatches.step_mret {x : Word} (h : TrapMatches t a c) (hl : t.Fits imem .mret)
    (hx : x = t.csrs .mepc) :
    TrapMatches (t.exec .mret) (seqStep imem x a) (csrNext false (a.csrPayload imem) c) := by
  have hd : a.decoded imem = decodeInst mret := congrArg decodeInst (h.inst hl)
  rw [seqStep_trap x (Or.inr rfl) (h.inst hl), Arch.csrPayload, hd, csrNext_idle _ _ (by decide) (by decide)]
  refine ⟨⟨hx, h.state.regs, h.state.mem⟩, fun n => ?_⟩
  rw [h.csrs]
  cases n <;> rfl

/-- One step, if the CSR operand `x` is what the instruction reads. -/
theorem TrapMatches.step {x : Word} (h : TrapMatches t a c) (hl : t.Fits imem i)
    (hx : ∀ n ∈ i.reads, x = t.csrs n) :
    TrapMatches (t.exec i) (seqStep imem x a) (csrNext false (a.csrPayload imem) c) := by
  cases i with
  | base i => exact h.step_base hl x
  | csrrw rd n rs1 => exact h.step_csrrw hl fun hrd => hx n (if_neg hrd)
  | csrrs rd n rs1 => exact h.step_csrrs hl fun hrd => hx n (if_neg hrd)
  | ecall => exact h.step_ecall hl (hx .mtvec rfl)
  | mret => exact h.step_mret hl (hx .mepc rfl)

end Step

theorem trapMatches_reset (mem : Pmem) :
    TrapMatches (TrapState.reset mem) (archReset mem) csrReset := by
  refine ⟨matches_reset mem, fun n => ?_⟩
  cases n <;> rfl

namespace Top

section Inputs

variable (imem dmem : Pmem) (hits : Nat → Bool)

/-- What the cache and the CSR file give the core in cycle `n`. -/
def inputs (n : Nat) : CoreIn := (runFrom imem dmem hits n).coreIn (hits n)

theorem runFrom_core (n : Nat) :
    (runFrom imem dmem hits n).core = Core.runFrom imem dmem (inputs imem dmem hits) n := by
  induction n with
  | zero => rfl
  | succ n ih =>
    rw [runFrom, Clocked.run_succ, Core.runFrom, Clocked.run_succ, ← Core.runFrom, ← ih]
    rfl

theorem csrOperands_core (n : Nat) :
    csrOperands imem dmem hits n = Core.csrOperands imem dmem (inputs imem dmem hits) n := by
  induction n with
  | zero => rfl
  | succ n ih =>
    have hcore := runFrom_core imem dmem hits n
    have hl : csrOperands imem dmem hits (n + 1) = csrOperands imem dmem hits n ++
        ((runFrom imem dmem hits n).core.consumed (inputs imem dmem hits n)).toList := rfl
    rw [hl, ih, hcore]
    rfl

theorem seqRun_core (n k : Nat) :
    seqRun imem dmem hits n k = Core.seqRun imem dmem (inputs imem dmem hits) n k := by
  rw [seqRun, Core.seqRun, csrOperands_core]

end Inputs

section Run

variable {imem dmem : Pmem} {hits : Nat → Bool} {T : Nat → TrapState} {m : Nat}

/-- The CSRs seen in EX are those of the machine, but for the one that the last instruction changed. -/
theorem csrSeen_matches {A : Nat → Arch} {k : Nat} (ht : TrapState.Trace imem T m) (hk : k ≤ m)
    (hm : ∀ j ≤ k, TrapMatches (T j) (A j) (csrFile imem A j)) {n : CsrName}
    (hn : (T k).changed ≠ some n) : csrRdata (csrSeen imem A k) n.addr = (T k).core.csrs n := by
  cases k with
  | zero =>
    rw [csrSeen, csrrwBefore, if_neg Bool.false_ne_true]
    exact (hm 0 (le_refl 0)).csrs n
  | succ k =>
    obtain ⟨i, hl, hi⟩ := ht k (by omega)
    have hbefore : csrrwBefore imem A (k + 1) = (decodeInst i.encode).csrWen := by
      rw [csrrwBefore, Arch.csrPayload, Arch.decoded, (hm k (by omega)).inst hl]
      rfl
    rw [csrSeen, hbefore]
    by_cases hcsrrw : ∃ rd c rs1, i = .csrrw rd c rs1
    · obtain ⟨rd, c, rs1, rfl⟩ := hcsrrw
      rw [decodeInst_csrrw (isCsrrw_encode rd rs1 c), if_pos rfl, Nat.add_sub_cancel,
        (hm k (by omega)).csrs n, hi]
      rw [hi] at hn
      have hkeep : ((T k).core.exec (.csrrw rd c rs1)).csrs n = (T k).core.csrs n := PrivState.exec_csrs hn
      rw [TrapState.core_csrrw]
      exact hkeep.symm
    · have hwen : (decodeInst i.encode).csrWen = false :=
        csrWen_encode (fun rd c rs1 h => hcsrrw ⟨rd, c, rs1, h⟩) hl.aligned
      rw [hwen, if_neg Bool.false_ne_true]
      exact (hm (k + 1) (le_refl _)).csrs n

theorem csrAddr_of_reads {a : Arch} {i : PrivInstr} (h : a.inst imem = i.encode) {n : CsrName}
    (hn : i.reads = some n) : (a.decoded imem).csrAddr = n.addr := by
  have hd : a.decoded imem = decodeInst i.encode := congrArg decodeInst h
  rw [hd]
  cases i with
  | base i => cases hn
  | csrrw rd c rs1 =>
    obtain ⟨-, hc⟩ := Option.ite_none_left_eq_some.mp hn
    obtain rfl := Option.some.inj hc
    rw [decodeInst_csrrw (isCsrrw_encode rd rs1 c)]
    exact csrField_format _ _ _ _ _
  | csrrs rd c rs1 =>
    obtain ⟨-, hc⟩ := Option.ite_none_left_eq_some.mp hn
    obtain rfl := Option.some.inj hc
    rw [decodeInst_csrrs (isCsrrs_encode rd rs1 c)]
    exact csrField_format _ _ _ _ _
  | ecall =>
    cases hn
    decide
  | mret =>
    cases hn
    decide

theorem seqRun_trapMatches (h0 : T 0 = .reset dmem) (ht : TrapState.Trace imem T m) {n k : Nat} (hk : k ≤ m)
    (hn : k ≤ (csrOperands imem dmem hits n).length) :
    TrapMatches (T k) (seqRun imem dmem hits n k) (csrFile imem (seqRun imem dmem hits n) k) := by
  induction k using Nat.strong_induction_on with
  | _ k ih =>
    cases k with
    | zero =>
      rw [h0]
      exact trapMatches_reset dmem
    | succ k =>
      obtain ⟨i, hl, hi⟩ := ht k (by omega)
      have hm := ih k (by omega) (by omega) (by omega)
      have hx : (csrOperands imem dmem hits n)[k]? = some (csrRdata
          (csrSeen imem (seqRun imem dmem hits n) k) ((seqRun imem dmem hits n k).decoded imem).csrAddr) := by
        rw [csrOperands_eq imem dmem hits (le_refl n)]
        simp [show k < (csrOperands imem dmem hits n).length by omega]
      have hstep : seqRun imem dmem hits n (k + 1) = seqStep imem _ (seqRun imem dmem hits n k) :=
        Clocked.after_succ _ _ _ hx
      rw [hi, hstep, csrFile]
      refine hm.step hl fun c hc => ?_
      rw [csrAddr_of_reads (hm.inst hl) hc, ← hl.core_csrs hc]
      exact csrSeen_matches ht (by omega) (fun j hj => ih j (by omega) (by omega) (by omega)) (hl.seen c hc)

theorem matches_of_trace (h0 : T 0 = .reset dmem) (ht : TrapState.Trace imem T m) {n k : Nat} (hk : k ≤ m)
    (hn : k ≤ (Core.csrOperands imem dmem (inputs imem dmem hits) n).length) :
    Matches (T k).toState (Core.seqRun imem dmem (inputs imem dmem hits) n k) := by
  rw [← csrOperands_core] at hn
  rw [← seqRun_core]
  exact (seqRun_trapMatches h0 ht hk hn).state

theorem commits_trace (h0 : T 0 = .reset dmem) (ht : TrapState.Trace imem T m)
    (hfair : ∀ n, ∃ k, n ≤ k ∧ hits k = true) :
    ∃ n, (Core.commits imem dmem (inputs imem dmem hits) n).length = m ∧
      ∀ r, readReg (runFrom imem dmem hits n).core.regs r = (T m).regs r := by
  obtain ⟨n, hn⟩ := Core.commits_reaches imem dmem (inputs imem dmem hits) hfair m
  have hh := Core.run_of_matches (T := fun k => (T k).toState) (fun _ => matches_of_trace h0 ht) hn.le
  refine ⟨n, hn, fun r => ?_⟩
  rw [hn] at hh
  rw [runFrom_core]
  exact hh.2.1 r

end Run

end Top

/-- The core with its CSR file implements RV32I with traps, for the programs that make do with what
it has of them. The pcs committed, the registers and the memory are those of the ISA machine; the
CSRs, with the write under way, are those after the instructions that have left EX, mstatus without
what traps and mret have made of it since it was last set. If hits recur, every instruction commits. -/
theorem core_implements_traps (imem dmem : Pmem) (hits : Nat → Bool) (T : Nat → TrapState) (m : Nat)
    (h0 : T 0 = .reset dmem) (ht : TrapState.Trace imem T m) :
    (∀ n, let s := Top.runFrom imem dmem hits n
      let cs := Core.commits imem dmem (Top.inputs imem dmem hits) n
      let e := (Top.csrOperands imem dmem hits n).length
      (cs.length ≤ m →
        cs = (List.range cs.length).map (fun k => (T k).pc) ∧
        (∀ r, readReg s.core.regs r = (T cs.length).regs r) ∧
        (cs.length + s.core.lsu.wbuValid.toNat ≤ m →
          s.core.dmem = (T (cs.length + s.core.lsu.wbuValid.toNat)).mem)) ∧
      (e ≤ m → (csrNext false s.core.exCsr s.csr).mstatus = (T e).kept ∧
        ∀ i : CsrName, i ≠ .mstatus → csrRdata (csrNext false s.core.exCsr s.csr) i.addr = (T e).csrs i)) ∧
    ((∀ n, ∃ k, n ≤ k ∧ hits k = true) →
      ∃ n, (Core.commits imem dmem (Top.inputs imem dmem hits) n).length = m ∧
        ∀ r, readReg (Top.runFrom imem dmem hits n).core.regs r = (T m).regs r) := by
  refine ⟨fun n => ⟨fun hc => ?_, fun he => ?_⟩, Top.commits_trace h0 ht⟩
  · rw [Top.runFrom_core]
    exact Core.run_of_matches (T := fun k => (T k).toState) (fun _ => Top.matches_of_trace h0 ht) hc
  · obtain ⟨-, hlag⟩ := Top.runFrom_sim imem dmem hits (le_refl n)
    have hcsrs := (Top.seqRun_trapMatches h0 ht he (le_refl _)).csrs
    rw [hlag.next]
    exact ⟨(hcsrs .mstatus).trans TrapState.core_mstatus,
      fun i hi => (hcsrs i).trans (TrapState.core_of_ne hi)⟩

/-- `mtvec` set to the instructions behind the first eight, which step over an ecall and return from it;
then mstatus is set, with interrupts on, and read. -/
def trapProgram : List PrivInstr :=
  [.base (.auipc 1#5 0#20), .base (.opImm .addi 1#5 1#5 32#12), .csrrw 0#5 .mtvec 1#5,
    .base (.lui 4#5 2#20), .ecall, .csrrw 0#5 .mstatus 4#5, .base (.opImm .addi 0#5 0#5 0#12),
    .csrrs 3#5 .mstatus 0#5,
    .csrrs 2#5 .mepc 0#5, .base (.opImm .addi 2#5 2#5 4#12), .csrrw 0#5 .mepc 2#5,
    .base (.opImm .addi 4#5 4#5 (-0x7f8#12)), .mret]

def trapImage : Pmem := image (trapProgram.map PrivInstr.encode)

/-- The places of the instructions executed. -/
def trapPlaces : List Nat := [0, 1, 2, 3, 4, 8, 9, 10, 11, 12, 5, 6, 7]

def trapTrace (k : Nat) : TrapState :=
  (trapPlaces.take k).foldl (fun t j => t.exec (trapProgram.getD j .ecall)) (.reset trapImage)

theorem trapTrace_legal : TrapState.Trace trapImage trapTrace 13 := by
  have hmtvec : 4 ∣ ((trapTrace 4).csrs .mtvec).toNat := by decide
  have hmepc : 4 ∣ ((trapTrace 9).csrs .mepc).toNat := by decide
  intro k hk
  obtain rfl | rfl | rfl | rfl | rfl | rfl | rfl | rfl | rfl | rfl | rfl | rfl | rfl :
    k = 0 ∨ k = 1 ∨ k = 2 ∨ k = 3 ∨ k = 4 ∨ k = 5 ∨ k = 6 ∨ k = 7 ∨ k = 8 ∨ k = 9 ∨ k = 10 ∨ k = 11 ∨ k = 12 := by
      omega
  · exact ⟨.base (.auipc 1#5 0#20),
      TrapState.fits_write (by decide +kernel) (by decide) trivial ⟨_, rfl⟩, rfl⟩
  · exact ⟨_, TrapState.fits_opImm (by decide +kernel) (by decide), rfl⟩
  · exact ⟨_, TrapState.fits_csrw (by decide +kernel) (by decide), rfl⟩
  · exact ⟨.base (.lui 4#5 2#20), TrapState.fits_write (by decide +kernel) (by decide) trivial ⟨_, rfl⟩, rfl⟩
  · exact ⟨_, TrapState.fits_ecall ⟨by decide +kernel, by decide, hmtvec⟩ nofun rfl, rfl⟩
  · exact ⟨_, TrapState.fits_csrr (c := .mepc) (by decide +kernel) (by decide) nofun nofun, rfl⟩
  · exact ⟨_, TrapState.fits_opImm (by decide +kernel) (by decide), rfl⟩
  · exact ⟨_, TrapState.fits_csrw (by decide +kernel) (by decide), rfl⟩
  · exact ⟨_, TrapState.fits_opImm (by decide +kernel) (by decide), rfl⟩
  · exact ⟨_, TrapState.fits_mret ⟨by decide +kernel, by decide, hmepc⟩ nofun, rfl⟩
  · exact ⟨_, TrapState.fits_csrw (by decide +kernel) (by decide), rfl⟩
  · exact ⟨_, TrapState.fits_opImm (by decide +kernel) (by decide), rfl⟩
  · exact ⟨_, TrapState.fits_csrr (by decide +kernel) (by decide) nofun fun _ => rfl, rfl⟩

theorem core_implements_traps_ecall :
    ∃ n, readReg (Top.runFrom trapImage trapImage (fun _ => true) n).core.regs 2#5 = 0x80000014#32 ∧
      readReg (Top.runFrom trapImage trapImage (fun _ => true) n).core.regs 3#5 = 0x1808#32 := by
  obtain ⟨n, -, hn⟩ := (core_implements_traps trapImage trapImage (fun _ => true) trapTrace 13 rfl
    trapTrace_legal).2 fun n => ⟨n, le_refl n, rfl⟩
  exact ⟨n, by rw [hn]; decide, by rw [hn]; decide⟩

end Npc
