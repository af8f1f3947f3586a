import Npc.SingleInst

/-! Words for which the decoder calls `unknown_inst`. The arms of `INST_TYPE_I` and
`INST_TYPE_R` have enabled the register write by then, and that of `INST_TYPE_B` the jump. -/

namespace Npc

def unknownInst (w : Word) : Bool := (decode (rs1Field w) true w).unknownInst

/-- What the decoder leaves enabled in a word it does not know. -/
structure Decoded.Unknown (w : Word) (d : Decoded) : Prop where
  lsuEn : d.lsuEn = false
  csrWen : d.csrWen = false
  csrEvent : d.csrEvent = false
  rd : d.rd = rdField w
  rfWe : d.rfWe = (decide (opcode w = instTypeI) || decide (opcode w = instTypeR))
  result : d.rfWe = true → d.aluCtrl = .idle ∧ d.wbCtrl = .alu
  jEn : d.jEn = decide (opcode w = instTypeB)
  jCond : d.jCond = .uncond

theorem unknown_decoded {w : Word} (h : unknownInst w = true) : (decodeInst w).Unknown w := by
  revert h
  apply decode_arms (P := fun w d => d.unknownInst = true → d.nxt.Unknown w)
  case typeI =>
    intro ho hu
    have hn : aluCtrlTypeI w = none := Option.isNone_iff_eq_none.mp hu
    constructor <;> simp [decodeTypeI, decodeDefault, hn, ho, instTypeI, instTypeB]
  case typeR =>
    intro ho hu
    have hn : aluCtrlTypeR w = none := Option.isNone_iff_eq_none.mp hu
    constructor <;> simp [decodeTypeR, decodeDefault, hn, ho, instTypeR, instTypeB]
  case typeB =>
    intro ho hu
    have hn : jCondTypeB w = none := Option.isNone_iff_eq_none.mp hu
    constructor <;> simp [decodeTypeB, decodeDefault, hn, ho, instTypeI, instTypeR, instTypeB]
  case jalr =>
    intro ho
    unfold decodeJalr
    split_ifs
    · simp
    · intro _
      constructor <;> simp [decodeDefault, ho, instJalr, instTypeI, instTypeR, instTypeB]
  case typeIL =>
    intro ho
    unfold decodeTypeIL
    split_ifs
    · simp
    · simp
    · intro _
      constructor <;> simp [decodeDefault, ho, instTypeIL, instTypeI, instTypeR, instTypeB]
  case typeS =>
    intro ho
    unfold decodeTypeS
    split_ifs
    · simp
    · intro _
      constructor <;> simp [decodeDefault, ho, instTypeS, instTypeI, instTypeR, instTypeB]
  case system =>
    intro ho
    unfold decodeSystem
    split_ifs <;> try simp
    constructor <;> simp [decodeDefault, ho, instSystem, instTypeI, instTypeR, instTypeB]
  case other =>
    intro ho _
    simp only [opcodes, List.mem_cons, List.not_mem_nil, not_or] at ho
    constructor <;> simp [decodeDefault, ho]
  all_goals
    intro _ hu
    simp [decodeAuipc, decodeLui, decodeJal] at hu

section Effect

variable {imem : Pmem} {pc : Word} {t : Top}

theorem unknown_lsuCtrl (h : unknownInst ((t.arch pc).inst imem) = true) (csr : Word) :
    ((t.arch pc).payload imem csr).ctrl = 0#2 := by
  have hd : ((t.arch pc).decoded imem).lsuEn = false := (unknown_decoded h).lsuEn
  simp [Arch.payload, payload, lsuCtrlNxt, hd]

theorem unknown_csrNext (h : unknownInst ((t.arch pc).inst imem) = true) (c : Csr) :
    csrNext false (Npc.csrPayload ((t.arch pc).decoded imem) pc ((t.arch pc).rs1 imem)) c = c := by
  have hd : ((t.arch pc).decoded imem).Unknown ((t.arch pc).inst imem) := unknown_decoded h
  simp [csrNext, csrPayload, hd.csrEvent, hd.csrWen]

theorem unknown_jTaken (h : unknownInst ((t.arch pc).inst imem) = true) :
    (t.arch pc).jTaken imem = decide (opcode ((t.arch pc).inst imem) = instTypeB) := by
  have hd : ((t.arch pc).decoded imem).Unknown ((t.arch pc).inst imem) := unknown_decoded h
  rw [Arch.jTaken, hd.jEn, hd.jCond]
  by_cases hb : opcode ((t.arch pc).inst imem) = instTypeB <;> simp [jTaken, hb]

theorem unknown_regs (h : unknownInst ((t.arch pc).inst imem) = true) (csr : Word) :
    (seqStep imem csr (t.arch pc)).regs = rfWrite t.core.regs
      (decide (opcode ((t.arch pc).inst imem) = instTypeI) ||
        decide (opcode ((t.arch pc).inst imem) = instTypeR))
      (rdField ((t.arch pc).inst imem)) 0#32 := by
  have hd : ((t.arch pc).decoded imem).Unknown ((t.arch pc).inst imem) := unknown_decoded h
  have hwe : ((t.arch pc).payload imem csr).wbWen = ((t.arch pc).decoded imem).rfWe := rfl
  have hrd : ((t.arch pc).payload imem csr).wbRd = rdField ((t.arch pc).inst imem) := hd.rd
  rw [← hd.rfWe, seqStep, hwe, hrd]
  cases hr : ((t.arch pc).decoded imem).rfWe with
  | false => simp [Top.arch]
  | true =>
    obtain ⟨ha, hw⟩ := hd.result hr
    have hz : retireData ((t.arch pc).payload imem csr) t.core.dmem = 0#32 := by
      rw [retireData, unknown_lsuCtrl h]
      simp [Arch.payload, payload, wbDataNxt, hw, aluOut, ha, alu]
    simp only [Top.arch] at hz ⊢
    rw [hz]

end Effect

/-- The word has no architectural effect: in any state, with nothing older in the pipeline,
its way through EX, LSU and WBU redirects nothing, requests no memory access, and leaves the
registers, the memory and the CSR file alone, and the next instruction is that at `pc + 4`. -/
structure NoEffect (w : Word) : Prop where
  redirect : ∀ imem pc t i, Top.Single imem pc t → imemRdata imem pc = w → t.core.exGlbFlush i = false
  next : ∀ imem pc t hit, Top.Single imem pc t → imemRdata imem pc = w →
    Front imem (t.step imem false hit).core (pc + 4#32)
  request : ∀ imem pc t hit, Top.Single imem pc t → imemRdata imem pc = w →
    (cacheReq (t.step imem false hit).core.lsu (t.step imem false hit).core.exLsu).valid = false
  regs : ∀ imem pc t hits, Top.Single imem pc t → imemRdata imem pc = w →
    (t.run imem hits 3).core.regs = t.core.regs
  dmem : ∀ imem pc t hits, Top.Single imem pc t → imemRdata imem pc = w →
    (t.run imem hits 2).core.dmem = t.core.dmem
  csr : ∀ imem pc t hits, Top.Single imem pc t → imemRdata imem pc = w →
    (t.run imem hits 2).csr = t.csr

theorem rfWrite_eq_self {regs : Regs} {we : Bool} {rd : RegAddr} {v : Word}
    (h : we = true → rd = 0#5) : rfWrite regs we rd v = regs := by
  funext a
  cases we with
  | false => simp [rfWrite]
  | true => simp [rfWrite, h rfl]

theorem noEffect_of_unknown {w : Word} (h : unknownInst w = true) (hb : opcode w ≠ instTypeB)
    (hrd : opcode w = instTypeI ∨ opcode w = instTypeR → rdField w = 0#5) : NoEffect w := by
  constructor
  case redirect =>
    rintro imem pc t i ht rfl
    rw [ht.exGlbFlush, unknown_jTaken h]
    exact decide_eq_false hb
  case next =>
    rintro imem pc t hit ht rfl
    have hj : (t.arch pc).jTaken imem = false := by
      rw [unknown_jTaken h]
      exact decide_eq_false hb
    have hh := ht.front hit
    rwa [seqStep, hj] at hh
  case request =>
    rintro imem pc t hit ht rfl
    have hh := (ht.step_outstanding hit).cache_valid_iff
    simpa [unknown_lsuCtrl h] using hh
  case regs =>
    rintro imem pc t hits ht rfl
    have hc := unknown_lsuCtrl (t := t) h (t.csrOperand imem pc)
    rw [ht.run_regs (by simp [served, hc]), unknown_regs h]
    apply rfWrite_eq_self
    intro hw
    rw [Bool.or_eq_true, decide_eq_true_eq, decide_eq_true_eq] at hw
    exact hrd hw
  case dmem =>
    rintro imem pc t hits ht rfl
    have hc := unknown_lsuCtrl (t := t) h (t.csrOperand imem pc)
    have hm : (seqStep imem (t.csrOperand imem pc) (t.arch pc)).dmem = t.core.dmem :=
      if_neg (by rw [hc]; decide)
    rw [ht.run_dmem (by simp [served, hc]), hm]
  case csr =>
    rintro imem pc t hits ht rfl
    rw [ht.run_csr, unknown_csrNext h]

section Only

variable {w : Word}

theorem inst_image (w : Word) (regs : Regs) (dmem : Pmem) (csr : Csr) :
    ((Top.single (image [w]) 0x80000000#32 regs dmem csr).arch 0x80000000#32).inst (image [w]) = w :=
  paddrRead_image [w] (k := 0) (by decide)

theorem NoEffect.not_typeB (hn : NoEffect w) (h : unknownInst w = true) : opcode w ≠ instTypeB := by
  intro hb
  have ht := Top.single_single (image [w]) 0x80000000#32 (fun _ => 0#32) (fun _ => 0#8) csrReset
  have hi := inst_image w (fun _ => 0#32) (fun _ => 0#8) csrReset
  have hr := hn.redirect _ _ _ ⟨true, 0#32⟩ ht hi
  rw [ht.exGlbFlush, unknown_jTaken (hi.symm ▸ h), hi, decide_eq_true hb] at hr
  exact absurd hr (by decide)

theorem NoEffect.rd_eq_zero (hn : NoEffect w) (h : unknownInst w = true)
    (ho : opcode w = instTypeI ∨ opcode w = instTypeR) : rdField w = 0#5 := by
  by_contra hrd
  have ht := Top.single_single (image [w]) 0x80000000#32 (fun _ => 1#32) (fun _ => 0#8) csrReset
  have hi := inst_image w (fun _ => 1#32) (fun _ => 0#8) csrReset
  have hu := hi.symm ▸ h
  have hr := congrFun (hn.regs _ _ _ (fun _ => true) ht hi) (rdField w)
  rw [ht.run_regs (by simp [served]), unknown_regs hu, hi] at hr
  simp [rfWrite, ho, hrd, Top.single] at hr

end Only

/-- Of the words that `unknown_inst` reports, exactly these have no effect: those of another
opcode than `INST_TYPE_I`, `INST_TYPE_R` and `INST_TYPE_B`, and those of the first two whose
destination is x0. -/
theorem unknownInst_noEffect_iff (w : Word) (h : unknownInst w = true) :
    NoEffect w ↔ opcode w ≠ instTypeB ∧
      (opcode w = instTypeI ∨ opcode w = instTypeR → rdField w = 0#5) :=
  ⟨fun hn => ⟨hn.not_typeB h, hn.rd_eq_zero h⟩, fun hw => noEffect_of_unknown h hw.1 hw.2⟩

/-- `mul x1, x2, x3` -/
def mulWord : Word := 0x023100b3#32

theorem mulWord_has_effect : unknownInst mulWord = true ∧ ¬ NoEffect mulWord := by
  refine ⟨by decide, fun hn => ?_⟩
  exact absurd (hn.rd_eq_zero (by decide) (Or.inr (by decide))) (by decide)

/-- A word of the opcode zero. -/
theorem unknownInst_noEffect_zero : NoEffect 0#32 :=
  (unknownInst_noEffect_iff 0#32 (by decide)).mpr (by decide)

end Npc
