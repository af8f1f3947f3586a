import Npc.DecodeFacts

/-! The sequential reading of the core: one instruction at a time with the functions of
IDU, EXU and LSU, registers read directly. The value of `csr_ex_rdata` is an input of
each step. -/

namespace Npc

structure Arch where
  pc : Word
  regs : Regs
  dmem : Pmem

def archReset (dmem : Pmem) : Arch := ⟨0x80000000#32, fun _ => 0#32, dmem⟩

def readReg (regs : Regs) (a : RegAddr) : Word := if a = 0#5 then 0#32 else regs a

namespace Arch

def inst (imem : Pmem) (a : Arch) : Word := imemRdata imem a.pc

def decoded (imem : Pmem) (a : Arch) : Decoded := decodeInst (a.inst imem)

def rs1 (imem : Pmem) (a : Arch) : Word := readReg a.regs (rs1Field (a.inst imem))

def rs2 (imem : Pmem) (a : Arch) : Word := readReg a.regs (rs2Field (a.inst imem))

def jTaken (imem : Pmem) (a : Arch) : Bool :=
  Npc.jTaken (a.decoded imem).jEn (a.decoded imem).jCond (a.rs1 imem) (a.rs2 imem)

def payload (imem : Pmem) (csr : Word) (a : Arch) : ExLsu :=
  Npc.payload (a.decoded imem) a.pc (a.rs1 imem) (a.rs2 imem) csr

end Arch

def seqStep (imem : Pmem) (csr : Word) (a : Arch) : Arch where
  pc := if a.jTaken imem then
      aluOut (a.decoded imem) a.pc (a.rs1 imem) (a.rs2 imem) csr
    else a.pc + 4#32
  regs := rfWrite a.regs (a.payload imem csr).wbWen (a.payload imem csr).wbRd
    (retireData (a.payload imem csr) a.dmem)
  dmem := retireMem (a.payload imem csr) a.dmem

theorem readReg_rfWrite (regs : Regs) (we : Bool) (rd : RegAddr) (v : Word) (a : RegAddr) :
    readReg (rfWrite regs we rd v) a =
      if we && rd ≠ 0#5 && rd = a then v else readReg regs a := by
  by_cases ha : a = 0#5
  · subst ha
    by_cases hrd : rd = 0#5 <;> simp [readReg, hrd]
  · by_cases hrd : rd = a
    · simp [readReg, rfWrite, ha, hrd]
    · simp [readReg, rfWrite, ha, hrd, Ne.symm hrd]

theorem rfRead_eq (regs : Regs) (we : Bool) (rd : RegAddr) (v : Word) (a : RegAddr) :
    rfRead regs we rd v a = readReg (rfWrite regs we rd v) a := by
  rw [readReg_rfWrite]
  by_cases ha : a = 0#5
  · subst ha
    by_cases hrd : rd = 0#5 <;> simp [rfRead, readReg, hrd]
  · simp [rfRead, readReg, ha]

@[simp] theorem rfWrite_false (regs : Regs) (rd : RegAddr) (v : Word) :
    rfWrite regs false rd v = regs := by
  funext a
  simp [rfWrite]

section Operands

variable {d : Decoded} {pc r1 r1' r2 r2' csr : Word}

theorem Decoded.IgnoresRs1.aluOut (h : d.IgnoresRs1) :
    aluOut d pc r1 r2 csr = aluOut d pc r1' r2 csr := by
  rcases h.alu with h | h <;> simp [Npc.aluOut, h, op1, Npc.alu]

theorem Decoded.IgnoresRs2.aluOut (h : d.IgnoresRs2) :
    aluOut d pc r1 r2 csr = aluOut d pc r1 r2' csr := by
  rcases h.alu with h | h
  · unfold Npc.aluOut
    cases hs : d.aluOpCtrl <;> simp_all [op2]
  · simp [Npc.aluOut, h, Npc.alu]

theorem jTaken_uncond (h : d.jEn = true → d.jCond = .uncond) :
    jTaken d.jEn d.jCond r1 r2 = jTaken d.jEn d.jCond r1' r2' := by
  cases hj : d.jEn with
  | false => simp [jTaken]
  | true => simp [jTaken, h hj]

end Operands

/-- The source operands `r1, r2` and `r1', r2'` agree where the interlock watches them. -/
structure Agree (instr r1 r2 r1' r2' : Word) : Prop where
  rs1 : usesRs1 instr = true → r1 = r1'
  rs2 : usesRs2 instr = true → r2 = r2'

namespace Agree

variable {instr r1 r2 r1' r2' : Word} (h : Agree instr r1 r2 r1' r2') (pc csr : Word)
include h

theorem aluOut : aluOut (decodeInst instr) pc r1 r2 csr = aluOut (decodeInst instr) pc r1' r2' csr := by
  have h1 : Npc.aluOut (decodeInst instr) pc r1 r2 csr = Npc.aluOut (decodeInst instr) pc r1' r2 csr := by
    cases hu : usesRs1 instr with
    | true => rw [h.rs1 hu]
    | false => exact (decode_ignoresRs1 hu _).aluOut
  have h2 : Npc.aluOut (decodeInst instr) pc r1' r2 csr = Npc.aluOut (decodeInst instr) pc r1' r2' csr := by
    cases hu : usesRs2 instr with
    | true => rw [h.rs2 hu]
    | false => exact (decode_ignoresRs2 hu _).aluOut
  exact h1.trans h2

theorem jTaken : jTaken (decodeInst instr).jEn (decodeInst instr).jCond r1 r2 =
    jTaken (decodeInst instr).jEn (decodeInst instr).jCond r1' r2' := by
  cases hu : usesRs1 instr with
  | false => exact jTaken_uncond (decode_ignoresRs1 hu _).jump
  | true =>
    cases hu' : usesRs2 instr with
    | false => exact jTaken_uncond (decode_ignoresRs2 hu' _).jump
    | true => rw [h.rs1 hu, h.rs2 hu']

/-- The payloads differ at most in the data of what is not a store. -/
theorem payload : payload (decodeInst instr) pc r1 r2 csr =
    { payload (decodeInst instr) pc r1' r2' csr with data := r2 } := by
  simp only [Npc.payload, h.aluOut pc csr]

theorem retireMem (m : Pmem) : retireMem (Npc.payload (decodeInst instr) pc r1 r2 csr) m =
    retireMem (Npc.payload (decodeInst instr) pc r1' r2' csr) m := by
  cases hu : usesRs2 instr with
  | true =>
    obtain rfl := h.rs2 hu
    rw [h.payload pc csr]
    rfl
  | false =>
    have hs : lsuCtrlNxt (decodeInst instr).lsuEn (decodeInst instr).lsuWe ≠ 2#2 := by
      have hh := (decode_ignoresRs2 hu (rs1Field instr)).store
      change (decodeInst instr).lsuEn = true → (decodeInst instr).lsuWe = false at hh
      cases he : (decodeInst instr).lsuEn with
      | false => simp [lsuCtrlNxt]
      | true => simp [lsuCtrlNxt, hh he]
    simp [Npc.retireMem, Npc.payload, hs]

end Agree

/-- A payload is a request: the decoder keeps memory control and write enable together. -/
theorem payload_isRequest (instr pc r1 r2 csr : Word) :
    (payload (decodeInst instr) pc r1 r2 csr).IsRequest := by
  have hc := (decode_coherent (rs1Field instr) instr).mem_wen
  change (decodeInst instr).lsuEn = true → (decodeInst instr).rfWe = !(decodeInst instr).lsuWe at hc
  constructor
  case valid => rfl
  case ctrl =>
    simp only [payload, lsuCtrlNxt]
    split_ifs <;> decide
  case size =>
    simp only [payload, lsuSizeNxt]
    split_ifs <;> decide
  case wen =>
    cases he : (decodeInst instr).lsuEn with
    | false => simp [payload, lsuCtrlNxt, he]
    | true => cases hw : (decodeInst instr).lsuWe <;> simp [payload, lsuCtrlNxt, he, hw, hc]

end Npc
