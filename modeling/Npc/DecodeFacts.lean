import Npc.Core
import Npc.LsuRequest

/-! What the rest of the core relies on in a decoded instruction: memory control and write
enable agree, and an operand the interlock does not watch has no effect. -/

namespace Npc

/-- The decode of a valid word outside reset and flush. -/
def decodeInst (instr : Word) : Decoded := (decode (rs1Field instr) true instr).nxt

structure Decoded.Coherent (d : Decoded) : Prop where
  mem_wen : d.lsuEn = true → d.rfWe = !d.lsuWe
  mem_jump : d.lsuEn = true → d.jEn = false
  mem_ebreak : d.lsuEn = true → d.ebreakFlag = false
  csr_mem : d.csrWen = true → d.lsuEn = false
  csr_jump : d.csrWen = true → d.jEn = false
  event_jump : d.csrEvent = true → d.jEn = true ∧ d.jCond = .uncond

def opcodes : List (BitVec 7) :=
  [instAuipc, instLui, instTypeI, instTypeR, instJal, instJalr, instTypeB, instTypeIL, instTypeS, instSystem]

/-- The decoder's arms, each with the opcode that selects it. -/
theorem decode_arms {P : Word → Decode → Prop} {rs1 : RegAddr} {instr : Word}
    (auipc : opcode instr = instAuipc → P instr (decodeAuipc instr))
    (lui : opcode instr = instLui → P instr (decodeLui instr))
    (typeI : opcode instr = instTypeI → P instr (decodeTypeI instr))
    (typeR : opcode instr = instTypeR → P instr (decodeTypeR instr))
    (jal : opcode instr = instJal → P instr (decodeJal instr))
    (jalr : opcode instr = instJalr → P instr (decodeJalr instr))
    (typeB : opcode instr = instTypeB → P instr (decodeTypeB instr))
    (typeIL : opcode instr = instTypeIL → P instr (decodeTypeIL instr))
    (typeS : opcode instr = instTypeS → P instr (decodeTypeS instr))
    (system : opcode instr = instSystem → P instr (decodeSystem rs1 instr))
    (other : opcode instr ∉ opcodes → P instr { nxt := decodeDefault instr, unknownInst := true }) :
    P instr (decode rs1 true instr) := by
  unfold decode
  rw [if_pos rfl]
  refine iteInduction auipc fun h1 => iteInduction lui fun h2 => iteInduction typeI fun h3 =>
    iteInduction typeR fun h4 => iteInduction jal fun h5 => iteInduction jalr fun h6 =>
    iteInduction typeB fun h7 => iteInduction typeIL fun h8 => iteInduction typeS fun h9 =>
    iteInduction system fun h10 => other ?_
  simp [opcodes, h1, h2, h3, h4, h5, h6, h7, h8, h9, h10]

theorem decode_coherent (rs1 : RegAddr) (instr : Word) : (decode rs1 true instr).nxt.Coherent := by
  apply decode_arms (P := fun _ d => d.nxt.Coherent)
  case jalr => intro _; unfold decodeJalr; split_ifs <;> constructor <;> simp [decodeDefault]
  case typeIL => intro _; unfold decodeTypeIL; split_ifs <;> constructor <;> simp [decodeDefault]
  case typeS => intro _; unfold decodeTypeS; split_ifs <;> constructor <;> simp [decodeDefault]
  case system => intro _; unfold decodeSystem; split_ifs <;> constructor <;> simp [decodeDefault]
  all_goals
    try intro _
    constructor <;> simp [decodeAuipc, decodeLui, decodeTypeI, decodeTypeR, decodeJal, decodeTypeB,
      decodeDefault]

/-- Neither the result nor the branch decision looks at the first source register. -/
structure Decoded.IgnoresRs1 (d : Decoded) : Prop where
  alu : d.aluOpCtrl = .pcImm ∨ d.aluCtrl = .idle
  jump : d.jEn = true → d.jCond = .uncond
  csr : d.csrWen = false

/-- Neither the result, the branch decision nor the stored value looks at the second. -/
structure Decoded.IgnoresRs2 (d : Decoded) : Prop where
  alu : d.aluOpCtrl ≠ .rs1Rs2 ∨ d.aluCtrl = .idle
  jump : d.jEn = true → d.jCond = .uncond
  store : d.lsuEn = true → d.lsuWe = false

theorem decode_ignoresRs1 {instr : Word} (h : usesRs1 instr = false) (rs1 : RegAddr) :
    (decode rs1 true instr).nxt.IgnoresRs1 := by
  simp only [usesRs1, Bool.or_eq_false_iff, decide_eq_false_iff_not] at h
  apply decode_arms (P := fun _ d => d.nxt.IgnoresRs1)
  case auipc => intro _; constructor <;> simp [decodeAuipc, decodeDefault]
  case lui => intro _; constructor <;> simp [decodeLui, decodeDefault]
  case jal => intro _; constructor <;> simp [decodeJal, decodeDefault]
  case other => intro _; constructor <;> simp [decodeDefault]
  all_goals
    intro ho
    simp [ho] at h

theorem decode_ignoresRs2 {instr : Word} (h : usesRs2 instr = false) (rs1 : RegAddr) :
    (decode rs1 true instr).nxt.IgnoresRs2 := by
  simp only [usesRs2, Bool.or_eq_false_iff, decide_eq_false_iff_not] at h
  apply decode_arms (P := fun _ d => d.nxt.IgnoresRs2)
  case auipc => intro _; constructor <;> simp [decodeAuipc, decodeDefault]
  case lui => intro _; constructor <;> simp [decodeLui, decodeDefault]
  case jal => intro _; constructor <;> simp [decodeJal, decodeDefault]
  case typeI => intro _; constructor <;> simp [decodeTypeI, decodeDefault]
  case jalr => intro _; unfold decodeJalr; split_ifs <;> constructor <;> simp [decodeDefault]
  case typeIL => intro _; unfold decodeTypeIL; split_ifs <;> constructor <;> simp [decodeDefault]
  case system => intro _; unfold decodeSystem; split_ifs <;> constructor <;> simp [decodeDefault]
  case other => intro _; constructor <;> simp [decodeDefault]
  all_goals
    intro ho
    simp [ho] at h

theorem instr_fields (w : Word) :
    w = csrField w ++ rs1Field w ++ funct3 w ++ rdField w ++ opcode w := by
  apply BitVec.eq_of_getLsbD_eq
  intro i hi
  simp only [csrField, rs1Field, funct3, rdField, opcode, BitVec.getLsbD_append, BitVec.getLsbD_extractLsb']
  grind

theorem decodeInst_not_system {w : Word} (h : opcode w ≠ instSystem) :
    (decodeInst w).ebreakFlag = false ∧ (decodeInst w).csrWen = false ∧
      (decodeInst w).csrEvent = false := by
  apply decode_arms (P := fun _ d =>
    d.nxt.ebreakFlag = false ∧ d.nxt.csrWen = false ∧ d.nxt.csrEvent = false)
  case system => exact fun ho => absurd ho h
  case jalr => intro _; unfold decodeJalr; split_ifs <;> exact ⟨rfl, rfl, rfl⟩
  case typeIL => intro _; unfold decodeTypeIL; split_ifs <;> exact ⟨rfl, rfl, rfl⟩
  case typeS => intro _; unfold decodeTypeS; split_ifs <;> exact ⟨rfl, rfl, rfl⟩
  all_goals intros; exact ⟨rfl, rfl, rfl⟩

theorem setWidth_immI (w : Word) : (immI w).setWidth 12 = csrField w := by
  rw [immI, BitVec.setWidth_append, dif_pos (le_refl 12), BitVec.setWidth_eq, csrField]

theorem decode_system {w : Word} (h : opcode w = instSystem) (rs1 : RegAddr) :
    decode rs1 true w = decodeSystem rs1 w := by
  simp [decode, h, instSystem, instAuipc, instLui, instTypeI, instTypeR, instJal, instJalr, instTypeB,
    instTypeIL, instTypeS]

theorem decodeSystem_ebreakFlag (w : Word) (ho : opcode w = instSystem) :
    (decodeSystem (rs1Field w) w).nxt.ebreakFlag = decide (w = 0x00100073#32) := by
  by_cases h : immI w = 1#32 ∧ rs1Field w = 0#5 ∧ funct3 w = 0#3 ∧ rdField w = 0#5
  · have hcsr : csrField w = 1#12 := by
      rw [← setWidth_immI, h.1]
      rfl
    have hw := instr_fields w
    rw [hcsr, h.2.1, h.2.2.1, h.2.2.2, ho] at hw
    have hw' : w = 0x00100073#32 := hw.trans (by decide)
    rw [decodeSystem, if_pos h, decide_eq_true hw']
  · have hw : w ≠ 0x00100073#32 := by
      rintro rfl
      exact h (by decide)
    unfold decodeSystem
    split_ifs <;> simp_all [decodeDefault]

theorem ebreakFlag_eq (w : Word) : (decodeInst w).ebreakFlag = decide (w = 0x00100073#32) := by
  by_cases ho : opcode w = instSystem
  · rw [decodeInst, decode_system ho, decodeSystem_ebreakFlag w ho]
  · have hw : w ≠ 0x00100073#32 := by
      rintro rfl
      exact ho (by decide)
    simp [(decodeInst_not_system ho).1, hw]

def isCsrrw (w : Word) : Bool := opcode w = instSystem && funct3 w = 1#3

def isCsrrs (w : Word) : Bool := opcode w = instSystem && funct3 w = 2#3

def ecall : Word := 0x00000073#32

def mret : Word := 0x30200073#32

/-- The CSR an instruction uses, if it is one of the four CSR instructions. -/
def csrAccess (w : Word) : Option CsrAddr :=
  if w = ecall then some 0x305#12
  else if w = mret then some 0x341#12
  else if isCsrrw w || isCsrrs w then some (csrField w)
  else none

theorem system_eq {w : Word} {x : BitVec 25} (ho : opcode w = instSystem)
    (h : w.extractLsb' 7 25 = x) : w = x ++ instSystem := by
  have hw : w = w.extractLsb' 7 25 ++ w.extractLsb' 0 7 :=
    (@BitVec.extractLsb'_append_extractLsb' 25 7 w).symm
  rw [opcode] at ho
  rw [h, ho] at hw
  exact hw

theorem decodeInst_csr (w : Word) :
    (decodeInst w).csrWen = isCsrrw w ∧ (decodeInst w).csrEvent = decide (w = ecall) ∧
      ∀ a, csrAccess w = some a → (decodeInst w).csrAddr = a := by
  by_cases hec : w = ecall
  · subst hec
    exact ⟨by decide, by decide, fun a ha => Option.some.inj ha⟩
  · by_cases hmr : w = mret
    · subst hmr
      exact ⟨by decide, by decide, fun a ha => Option.some.inj ha⟩
    · by_cases ho : opcode w = instSystem
      · have h1 : w.extractLsb' 7 25 ≠ 0#25 := fun h => hec (system_eq ho h)
        have h2 : w.extractLsb' 7 25 ≠ 0b0011000000100000000000000#25 := fun h => hmr (system_eq ho h)
        rw [decodeInst, decode_system ho, decodeSystem, if_neg h1, if_neg h2]
        split_ifs with h3 h4 h5 <;> simp_all [isCsrrw, isCsrrs, csrAccess, decodeDefault]
      · simp [decodeInst_not_system ho, hec, hmr, ho, isCsrrw, isCsrrs, csrAccess]

end Npc
