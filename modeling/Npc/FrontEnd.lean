import Npc.Sequential

/-! The front end, IFU with IF/ID and ID/EX, against the pc of the next instruction to
leave EX: either that instruction is in ID/EX and its successor, unless it jumps
unconditionally, is in IF/ID; or it is in IF/ID; or it is about to be fetched. -/

namespace Npc

structure Fetched (imem : Pmem) (f : Ifu) (pc : Word) : Prop where
  valid : f.ifIdInstrValid = true
  instr : f.ifIdInstr = imemRdata imem pc
  ifIdPc : f.ifIdPc = pc
  next : f.pc = pc + 4#32

def idExOf (imem : Pmem) (pc : Word) : IdEx where
  toDecoded := decodeInst (imemRdata imem pc)
  valid := true
  pc := pc
  rs1Addr := rs1Field (imemRdata imem pc)
  rs2Addr := rs2Field (imemRdata imem pc)

def Decoded.uncondJump (d : Decoded) : Bool := d.jEn && d.jCond = .uncond

/-- The instruction at `pc` is in ID/EX. Behind an unconditional jump IF/ID holds anything. -/
structure InEx (imem : Pmem) (s : Core) (pc : Word) : Prop where
  idEx : s.idEx = idExOf imem pc
  next : s.idEx.uncondJump = false → Fetched imem s.ifu (pc + 4#32)

/-- The instruction at `pc` is in IF/ID or about to be fetched. -/
def InIf (imem : Pmem) (f : Ifu) (pc : Word) : Prop :=
  if f.ifIdInstrValid then Fetched imem f pc else f.pc = pc

def Front (imem : Pmem) (s : Core) (pc : Word) : Prop :=
  if s.idEx.valid then InEx imem s pc else InIf imem s.ifu pc

theorem front_reset (imem dmem : Pmem) : Front imem (Core.reset dmem) 0x80000000#32 := by
  simp [Front, InIf, Core.reset, IdEx.bubble]

section Step

variable {imem : Pmem} {i : CoreIn} {s : Core} {pc : Word}

theorem Core.exGlbFlush_of_invalid (h : s.idEx.valid = false) : s.exGlbFlush i = false := by
  simp [Core.exGlbFlush, h]

theorem Core.exGlbFlush_of_not_ready (h : s.exIdReady i = false) : s.exGlbFlush i = false := by
  simp [Core.exGlbFlush, h]

theorem loadUseHazard_of_invalid {r : IdEx} (h : r.valid = false) (v : Bool) (instr : Word) :
    loadUseHazard v instr r = false := by
  simp [loadUseHazard, idExIsLoad, h]

theorem Core.stall_of_invalid (h : s.idEx.valid = false) : s.stall false i = false := by
  simp [Core.stall, idGlbStall, loadUseHazard_of_invalid h]

theorem Core.ifReady_of_not_ready (h : s.exIdReady i = false) : s.ifReady false i = false := by
  simp [Core.ifReady, idIfInstrReady, h]

theorem Core.step_idEx_flush (imem : Pmem) (h : s.exGlbFlush i = true) :
    (s.step imem false i).idEx = .bubble s.idEx.pc := by
  simp [Core.step, idExNext, h]

theorem Core.step_ifu_flush (imem : Pmem) (h : s.exGlbFlush i = true) :
    (s.step imem false i).ifu.ifIdInstrValid = false ∧ (s.step imem false i).ifu.pc = s.exIfPc i := by
  simp [Core.step, ifuNext, h]

theorem Core.step_idEx_stall (imem : Pmem) (hf : s.exGlbFlush i = false) (h : s.stall false i = true) :
    (s.step imem false i).idEx = .bubble s.idEx.pc := by
  simp [Core.step, idExNext, h, hf]

theorem Core.step_idEx_hold (imem : Pmem) (h : s.exIdReady i = false) : (s.step imem false i).idEx = s.idEx := by
  have hs : s.stall false i = false := by simp [Core.stall, idGlbStall, h]
  simp [Core.step, idExNext, Core.exGlbFlush_of_not_ready h, hs, h]

theorem Core.step_ifu_hold (imem : Pmem) (hf : s.exGlbFlush i = false) (h : s.ifReady false i = false) :
    (s.step imem false i).ifu = { s.ifu with exIfPcValidR := false } := by
  simp [Core.step, ifuNext, h, hf]

theorem Fetched.hold {f : Ifu} (h : Fetched imem f pc) (b : Bool) :
    Fetched imem { f with exIfPcValidR := b } pc := by
  obtain ⟨h1, h2, h3, h4⟩ := h
  exact ⟨h1, h2, h3, h4⟩

theorem InIf.hold {f : Ifu} (h : InIf imem f pc) (b : Bool) :
    InIf imem { f with exIfPcValidR := b } pc := by
  unfold InIf at h ⊢
  split_ifs at h ⊢ with hv
  · exact h.hold b
  · exact h

theorem Core.step_ifu_fetch (imem : Pmem) (hf : s.exGlbFlush i = false) (h : s.ifReady false i = true) :
    Fetched imem (s.step imem false i).ifu s.ifu.pc := by
  have ha : imemArvalid false true false s.ifu = true := by simp [imemArvalid]
  constructor <;> simp [Core.step, ifuNext, h, hf, ha]

theorem Core.decoded_eq (hf : s.exGlbFlush i = false) (hv : s.ifu.ifIdInstrValid = true) :
    (s.decoded false i).nxt = decodeInst s.ifu.ifIdInstr := by
  simp [Core.decoded, decodeInst, rsAddrNxt, hf, hv]

theorem Fetched.accept (h : Fetched imem s.ifu pc) (hf : s.exGlbFlush i = false)
    (hs : s.stall false i = false) (hr : s.exIdReady i = true) :
    InEx imem (s.step imem false i) pc := by
  have hd := Core.decoded_eq hf h.valid
  have hid : (s.step imem false i).idEx = idExOf imem pc := by
    simp [Core.step, idExNext, hf, hs, hr, h.valid, hd, h.instr, h.ifIdPc, rsAddrNxt, idExOf]
  refine ⟨hid, fun hu => ?_⟩
  rw [hid] at hu
  have hready : s.ifReady false i = true := by
    have hj : uncondJumpInId s.ifu.ifIdInstrValid (decodeInst s.ifu.ifIdInstr) = false := by
      rw [h.instr, h.valid, uncondJumpInId, Bool.true_and]
      exact hu
    rw [Core.ifReady, hd, hj]
    simp [idIfInstrReady, hs, hr]
  have hh := Core.step_ifu_fetch imem hf hready
  rwa [h.next] at hh

theorem front_of_inEx (h : InEx imem s pc) : Front imem s pc := by
  have hv : s.idEx.valid = true := by rw [h.idEx]; rfl
  rw [Front, if_pos hv]
  exact h

theorem front_of_inIf (hv : s.idEx.valid = false) (h : InIf imem s.ifu pc) : Front imem s pc := by
  rw [Front, hv, if_neg Bool.false_ne_true]
  exact h

theorem Fetched.inIf {f : Ifu} (h : Fetched imem f pc) : InIf imem f pc := by
  rw [InIf, if_pos h.valid]
  exact h

theorem Fetched.advance (h : Fetched imem s.ifu pc) (hf : s.exGlbFlush i = false)
    (hr : s.exIdReady i = true) : Front imem (s.step imem false i) pc := by
  cases hs : s.stall false i with
  | false => exact front_of_inEx (h.accept hf hs hr)
  | true =>
    have hready : s.ifReady false i = false := by simp [Core.ifReady, idIfInstrReady, hs]
    apply front_of_inIf
    · rw [Core.step_idEx_stall imem hf hs]
      rfl
    · rw [Core.step_ifu_hold imem hf hready]
      exact (h.hold false).inIf

theorem Front.step_hold (h : Front imem s pc) (hr : s.exIdReady i = false) :
    Front imem (s.step imem false i) pc := by
  have hf := Core.exGlbFlush_of_not_ready hr
  have hid := Core.step_idEx_hold imem hr
  have hif := Core.step_ifu_hold imem hf (Core.ifReady_of_not_ready hr)
  unfold Front at h ⊢
  rw [hid]
  split_ifs at h ⊢ with hv
  · refine ⟨hid.trans h.idEx, fun hu => ?_⟩
    rw [hid] at hu
    rw [hif]
    exact (h.next hu).hold false
  · rw [hif]
    exact h.hold false

theorem Front.step_empty (h : Front imem s pc) (hv : s.idEx.valid = false)
    (hr : s.exIdReady i = true) : Front imem (s.step imem false i) pc := by
  have hf := Core.exGlbFlush_of_invalid (i := i) hv
  have hs := Core.stall_of_invalid (i := i) hv
  rw [Front, hv, if_neg Bool.false_ne_true, InIf] at h
  split_ifs at h with hvi
  · exact h.advance hf hr
  · have hvi' : s.ifu.ifIdInstrValid = false := by simpa using hvi
    have hready : s.ifReady false i = true := by
      simp [Core.ifReady, idIfInstrReady, uncondJumpInId, hs, hr, hvi']
    apply front_of_inIf
    · simp [Core.step, idExNext, hf, hs, hvi', hv]
    · have hh := Core.step_ifu_fetch imem hf hready
      rw [h] at hh
      exact hh.inIf

theorem Front.inEx (h : Front imem s pc) (hv : s.idEx.valid = true) : InEx imem s pc := by
  rwa [Front, if_pos hv] at h

def Core.nextPc (i : CoreIn) (s : Core) : Word :=
  if s.exGlbFlush i then s.exIfPc i else s.idEx.pc + 4#32

theorem uncondJump_of_no_flush (hv : s.idEx.valid = true) (hr : s.exIdReady i = true)
    (hf : s.exGlbFlush i = false) : s.idEx.uncondJump = false := by
  by_contra hu
  have hj : s.idEx.jEn = true ∧ s.idEx.jCond = .uncond := by simpa [Decoded.uncondJump] using hu
  simp [Core.exGlbFlush, hv, hr, jTaken, hj.1, hj.2] at hf

theorem Front.step_leave (h : Front imem s pc) (hv : s.idEx.valid = true)
    (hr : s.exIdReady i = true) : Front imem (s.step imem false i) (s.nextPc i) := by
  have hin := h.inEx hv
  cases hf : s.exGlbFlush i with
  | true =>
    obtain ⟨hvalid, hpc⟩ := Core.step_ifu_flush imem hf
    apply front_of_inIf
    · rw [Core.step_idEx_flush imem hf]
      rfl
    · rw [InIf, hvalid, if_neg Bool.false_ne_true, hpc, Core.nextPc, if_pos hf]
  | false =>
    have hh := (hin.next (uncondJump_of_no_flush hv hr hf)).advance hf hr
    have hpc : s.nextPc i = pc + 4#32 := by simp [Core.nextPc, hf, hin.idEx, idExOf]
    rwa [hpc]

/-- An instruction that follows a load into EX without a bubble does not read its result. -/
theorem Front.step_interlock (h : Front imem s pc) (hv : s.idEx.valid = true)
    (hr : s.exIdReady i = true) (hv' : (s.step imem false i).idEx.valid = true) :
    loadUseHazard true (imemRdata imem (s.nextPc i)) s.idEx = false := by
  have hf : s.exGlbFlush i = false := by
    by_contra hf
    rw [Core.step_idEx_flush imem (by simpa using hf)] at hv'
    simp [IdEx.bubble] at hv'
  have hs : s.stall false i = false := by
    by_contra hs
    rw [Core.step_idEx_stall imem hf (by simpa using hs)] at hv'
    simp [IdEx.bubble] at hv'
  have hin := h.inEx hv
  have hfet := hin.next (uncondJump_of_no_flush hv hr hf)
  have hpc : s.nextPc i = pc + 4#32 := by simp [Core.nextPc, hf, hin.idEx, idExOf]
  rw [Core.stall, idGlbStall, hfet.valid, hfet.instr, hr] at hs
  simpa [hpc] using hs

end Step

end Npc
