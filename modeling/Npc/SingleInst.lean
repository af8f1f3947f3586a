import Npc.Csr
import Npc.Lanes

/-! One instruction with nothing older in the pipeline. It leaves EX in the first cycle, is
served by the LSU in the second and written back in the third; its CSR write is complete
after the second. The instructions behind it reach none of these places earlier. -/

namespace Npc

namespace Top

/-- The instruction at `pc` is in ID/EX and what was before it has left the pipeline. What
follows it in IF/ID is left open. -/
structure Single (imem : Pmem) (pc : Word) (t : Top) : Prop where
  inEx : InEx imem t.core pc
  exLsu : t.core.exLsu.IsEmpty
  waiting : t.core.lsu.waiting = false
  wbuValid : t.core.lsu.wbuValid = false
  exCsr : t.core.exCsr = exCsrIdle

def run (imem : Pmem) (hits : Nat → Bool) (t : Top) (n : Nat) : Top :=
  Clocked.run (step imem false) t hits n

def arch (pc : Word) (t : Top) : Arch := ⟨pc, t.core.regs, t.core.dmem⟩

def csrOperand (imem : Pmem) (pc : Word) (t : Top) : Word :=
  csrRdata t.csr ((t.arch pc).decoded imem).csrAddr

/-- An empty pipeline around the instruction at `pc`. -/
def single (imem : Pmem) (pc : Word) (regs : Regs) (dmem : Pmem) (csr : Csr) : Top where
  core := { Core.reset dmem with
    ifu := ⟨pc + 8#32, imemRdata imem (pc + 4#32), pc + 4#32, true, false⟩
    idEx := idExOf imem pc
    regs := regs }
  csr := csr

theorem single_single (imem : Pmem) (pc : Word) (regs : Regs) (dmem : Pmem) (csr : Csr) :
    Single imem pc (single imem pc regs dmem csr) := by
  constructor
  case inEx =>
    refine ⟨rfl, fun _ => ⟨rfl, rfl, rfl, ?_⟩⟩
    rw [BitVec.add_assoc]
    rfl
  case exLsu => exact ⟨rfl, rfl⟩
  all_goals rfl

namespace Single

variable {imem : Pmem} {pc : Word} {t : Top} {hits : Nat → Bool}

theorem valid (h : Single imem pc t) : t.core.idEx.valid = true := by
  rw [h.inEx.idEx]
  rfl

theorem decoded (h : Single imem pc t) : t.core.idEx.toDecoded = (t.arch pc).decoded imem := by
  rw [h.inEx.idEx]
  rfl

theorem pc_eq (h : Single imem pc t) : t.core.idEx.pc = pc := by
  rw [h.inEx.idEx]
  rfl

theorem wbRfWen (h : Single imem pc t) : t.core.wbRfWen = false := by
  simp [Core.wbRfWen, h.wbuValid]

theorem rs1 (h : Single imem pc t) : t.core.fwdRs1Data = (t.arch pc).rs1 imem := by
  have hh : t.core.fwdRs1Data = readReg (rfWrite t.core.regs t.core.wbRfWen _ _) t.core.idEx.rs1Addr :=
    fwdData_empty h.exLsu.1
  rw [hh, h.wbRfWen, rfWrite_false, h.inEx.idEx]
  rfl

theorem rs2 (h : Single imem pc t) : t.core.fwdRs2Data = (t.arch pc).rs2 imem := by
  have hh : t.core.fwdRs2Data = readReg (rfWrite t.core.regs t.core.wbRfWen _ _) t.core.idEx.rs2Addr :=
    fwdData_empty h.exLsu.1
  rw [hh, h.wbRfWen, rfWrite_false, h.inEx.idEx]
  rfl

theorem outstanding (h : Single imem pc t) : Outstanding t.core.lsu t.core.exLsu none :=
  ⟨h.waiting, h.exLsu⟩

theorem ready (h : Single imem pc t) (i : CoreIn) : t.core.exIdReady i = true :=
  h.outstanding.ready

theorem csrExRdata (h : Single imem pc t) (cacheHit : Bool) :
    (t.coreIn cacheHit).csrExRdata = t.csrOperand imem pc := by
  rw [coreIn, csrOperand, h.decoded]

theorem exGlbFlush (h : Single imem pc t) (i : CoreIn) :
    t.core.exGlbFlush i = (t.arch pc).jTaken imem := by
  rw [Core.exGlbFlush, h.valid, h.ready, h.decoded, h.rs1, h.rs2]
  rfl

theorem nextPc (h : Single imem pc t) (cacheHit : Bool) :
    t.core.nextPc (t.coreIn cacheHit) = (seqStep imem (t.csrOperand imem pc) (t.arch pc)).pc := by
  rw [Core.nextPc, Core.exIfPc, h.exGlbFlush, h.pc_eq, h.decoded, h.rs1, h.rs2, h.csrExRdata, seqStep]
  cases (t.arch pc).jTaken imem <;> rfl

theorem front (h : Single imem pc t) (cacheHit : Bool) :
    Front imem (t.step imem false cacheHit).core
      (seqStep imem (t.csrOperand imem pc) (t.arch pc)).pc := by
  rw [← h.nextPc cacheHit]
  exact (front_of_inEx h.inEx).step_leave h.valid (h.ready _)

theorem step_exLsu (h : Single imem pc t) (cacheHit : Bool) :
    (t.step imem false cacheHit).core.exLsu = (t.arch pc).payload imem (t.csrOperand imem pc) := by
  have hh := Pipe.step_exLsu_leave imem h.valid (h.ready (t.coreIn cacheHit))
  rw [Core.nextExLsu, h.decoded, h.pc_eq, h.rs1, h.rs2, h.csrExRdata] at hh
  exact hh

theorem step_exCsr (h : Single imem pc t) (cacheHit : Bool) :
    (t.step imem false cacheHit).core.exCsr = Npc.csrPayload ((t.arch pc).decoded imem) pc
      ((t.arch pc).rs1 imem) := by
  simp only [Top.step, Core.step, exCsrNext, h.valid, h.ready, h.decoded, h.pc_eq, h.rs1]
  rfl

theorem step_outstanding (h : Single imem pc t) (cacheHit : Bool) :
    Outstanding (t.step imem false cacheHit).core.lsu (t.step imem false cacheHit).core.exLsu
      (some ((t.arch pc).payload imem (t.csrOperand imem pc))) := by
  have hs := h.outstanding.serve (show served cacheHit none = true from rfl) t.core.dmem
  exact ⟨payload_isRequest _ _ _ _ _, Or.inl ⟨hs.idle, h.step_exLsu cacheHit⟩⟩

theorem step_core (h : Single imem pc t) (cacheHit : Bool) :
    (t.step imem false cacheHit).core.lsu.wbuValid = false ∧
      (t.step imem false cacheHit).core.regs = t.core.regs ∧
      (t.step imem false cacheHit).core.dmem = t.core.dmem ∧
      (t.step imem false cacheHit).csr = t.csr := by
  have hs := h.outstanding.serve (show served cacheHit none = true from rfl) t.core.dmem
  refine ⟨hs.valid, ?_, hs.mem, ?_⟩
  · simp [Top.step, Core.step, rfNext, h.wbRfWen]
  · simp [Top.step, h.exCsr, csrNext, exCsrIdle]

theorem run_csr (h : Single imem pc t) :
    (t.run imem hits 2).csr =
      csrNext false (Npc.csrPayload ((t.arch pc).decoded imem) pc ((t.arch pc).rs1 imem)) t.csr := by
  have h1 := (h.step_core (hits 0)).2.2.2
  have h2 := h.step_exCsr (hits 0)
  rw [run, Clocked.run_succ, Clocked.run_succ, Clocked.run_zero]
  change csrNext false (t.step imem false (hits 0)).core.exCsr (t.step imem false (hits 0)).csr = _
  rw [h1, h2]

section Served

variable (h : Single imem pc t)
  (hs : served (hits 1) (some ((t.arch pc).payload imem (t.csrOperand imem pc))) = true)
include h hs

theorem run_serve :
    ServedCycle (t.run imem hits 2).core.lsu (t.run imem hits 1).core.exLsu t.core.dmem
      (t.run imem hits 2).core.dmem (some ((t.arch pc).payload imem (t.csrOperand imem pc))) := by
  have hd := (h.step_core (hits 0)).2.2.1
  have hh := (h.step_outstanding (hits 0)).serve hs (t.step imem false (hits 0)).core.dmem
  nth_rewrite 2 [hd] at hh
  exact hh

theorem run_dmem :
    (t.run imem hits 2).core.dmem = (seqStep imem (t.csrOperand imem pc) (t.arch pc)).dmem :=
  (h.run_serve hs).mem

theorem run_regs :
    (t.run imem hits 3).core.regs = (seqStep imem (t.csrOperand imem pc) (t.arch pc)).regs := by
  obtain ⟨hv, hr, -, -⟩ := h.step_core (hits 0)
  have hw : (t.step imem false (hits 0)).core.wbRfWen = false := by simp [Core.wbRfWen, hv]
  have h2 : (t.run imem hits 2).core.regs = t.core.regs := by
    change rfWrite (t.step imem false (hits 0)).core.regs (t.step imem false (hits 0)).core.wbRfWen _ _ = _
    rw [hw, rfWrite_false, hr]
  have h3 := (h.run_serve hs).rfWrite (h.step_outstanding (hits 0)) t.core.regs
  change rfWrite (t.run imem hits 2).core.regs (t.run imem hits 2).core.wbRfWen _ _ = _
  rw [h2]
  exact h3

end Served

end Single

end Top

end Npc
