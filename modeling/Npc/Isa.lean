import Npc.DecodeFacts
import Npc.Lanes
import Npc.Rv32i

/-! IDU's decode followed by EXU implements RV32I: for each instruction the payload for the LSU
and the redirect for the IFU amount to the effect the ISA gives it. -/

namespace Npc

open Rv32i

def accessWidth (size : BitVec 2) : Width :=
  if size = 0#2 then .byte else if size = 1#2 then .half else .word

/-- What an EX/LSU payload and a redirect make the rest of the core do. -/
def ExLsu.effect (x : ExLsu) (redirect : Option Word) : Effect where
  write := if x.wbWen && x.ctrl ≠ 1#2 then some (x.wbRd, x.wbData) else none
  jump := redirect
  load := if x.ctrl = 1#2 then
      some ⟨if x.wbWen then some x.wbRd else none, x.addr, accessWidth x.size, !x.isUload⟩
    else none
  store := if x.ctrl = 2#2 then some ⟨x.addr, accessWidth x.size, x.data⟩ else none

def redirect (d : Decoded) (pc rs1 rs2 csr : Word) : Option Word :=
  if jTaken d.jEn d.jCond rs1 rs2 then some (aluOut d pc rs1 rs2 csr) else none

section Fields

variable (top : BitVec 12) (f7 : BitVec 7) (rs1 rs2 : RegAddr) (f3 : BitVec 3) (rd : RegAddr)
  (op : BitVec 7) (imm12 : BitVec 12) (imm20 : BitVec 20)

@[simp] theorem format_fields : opcode (format top rs1 f3 rd op) = op ∧
    funct3 (format top rs1 f3 rd op) = f3 ∧
    rdField (format top rs1 f3 rd op) = rd ∧
    rs1Field (format top rs1 f3 rd op) = rs1 ∧
    immI (format top rs1 f3 rd op) = top.signExtend 32 := by
  refine ⟨?_, ?_, ?_, ?_, ?_⟩
  all_goals
    apply BitVec.eq_of_getLsbD_eq
    intro i hi
    simp only [opcode, funct3, rdField, rs1Field, immI, rep, format, BitVec.getLsbD_extractLsb',
      BitVec.getLsbD_append, BitVec.getLsbD_signExtend, BitVec.getLsbD_fill, BitVec.msb_eq_getLsbD_last]
    grind

@[simp] theorem rFormat_fields : opcode (rFormat f7 rs2 rs1 f3 rd op) = op ∧
    funct3 (rFormat f7 rs2 rs1 f3 rd op) = f3 ∧
    funct7 (rFormat f7 rs2 rs1 f3 rd op) = f7 ∧
    rdField (rFormat f7 rs2 rs1 f3 rd op) = rd ∧
    rs1Field (rFormat f7 rs2 rs1 f3 rd op) = rs1 ∧
    rs2Field (rFormat f7 rs2 rs1 f3 rd op) = rs2 ∧
    immI (rFormat f7 rs2 rs1 f3 rd op) = (f7 ++ rs2).signExtend 32 := by
  refine ⟨?_, ?_, ?_, ?_, ?_, ?_, ?_⟩
  all_goals
    apply BitVec.eq_of_getLsbD_eq
    intro i hi
    simp only [opcode, funct3, funct7, rdField, rs1Field, rs2Field, immI, rep, rFormat, format,
      BitVec.getLsbD_extractLsb', BitVec.getLsbD_append, BitVec.getLsbD_signExtend, BitVec.getLsbD_fill,
      BitVec.msb_eq_getLsbD_last]
    grind

@[simp] theorem sFormat_fields : opcode (sFormat imm12 rs2 rs1 f3 op) = op ∧
    funct3 (sFormat imm12 rs2 rs1 f3 op) = f3 ∧
    rs1Field (sFormat imm12 rs2 rs1 f3 op) = rs1 ∧
    rs2Field (sFormat imm12 rs2 rs1 f3 op) = rs2 ∧
    immS (sFormat imm12 rs2 rs1 f3 op) = imm12.signExtend 32 := by
  refine ⟨?_, ?_, ?_, ?_, ?_⟩
  all_goals
    apply BitVec.eq_of_getLsbD_eq
    intro i hi
    simp only [opcode, funct3, rs1Field, rs2Field, immS, rep, sFormat, format, BitVec.getLsbD_extractLsb',
      BitVec.getLsbD_append, BitVec.getLsbD_signExtend, BitVec.getLsbD_fill, BitVec.msb_eq_getLsbD_last]
    grind

@[simp] theorem bFormat_fields : opcode (bFormat imm12 rs2 rs1 f3 op) = op ∧
    funct3 (bFormat imm12 rs2 rs1 f3 op) = f3 ∧
    rs1Field (bFormat imm12 rs2 rs1 f3 op) = rs1 ∧
    rs2Field (bFormat imm12 rs2 rs1 f3 op) = rs2 ∧
    immB (bFormat imm12 rs2 rs1 f3 op) = (imm12 ++ 0#1).signExtend 32 := by
  refine ⟨?_, ?_, ?_, ?_, ?_⟩
  all_goals
    apply BitVec.eq_of_getLsbD_eq
    intro i hi
    simp only [opcode, funct3, rs1Field, rs2Field, immB, rep, bFormat, format, BitVec.getLsbD_extractLsb',
      BitVec.getLsbD_append, BitVec.getLsbD_signExtend, BitVec.getLsbD_fill, BitVec.msb_eq_getLsbD_last]
    grind

@[simp] theorem upperFormat_fields : opcode (upperFormat imm20 rd op) = op ∧
    rdField (upperFormat imm20 rd op) = rd ∧
    immU (upperFormat imm20 rd op) = imm20 ++ 0#12 := by
  refine ⟨?_, ?_, ?_⟩
  all_goals
    apply BitVec.eq_of_getLsbD_eq
    intro i hi
    simp only [opcode, rdField, immU, upperFormat, BitVec.getLsbD_extractLsb', BitVec.getLsbD_append]
    grind

@[simp] theorem jFormat_fields : opcode (jFormat imm20 rd op) = op ∧
    rdField (jFormat imm20 rd op) = rd ∧
    immJ (jFormat imm20 rd op) = (imm20 ++ 0#1).signExtend 32 := by
  refine ⟨?_, ?_, ?_⟩
  all_goals
    apply BitVec.eq_of_getLsbD_eq
    intro i hi
    simp only [opcode, rdField, immJ, rep, jFormat, upperFormat, BitVec.getLsbD_extractLsb',
      BitVec.getLsbD_append, BitVec.getLsbD_signExtend, BitVec.getLsbD_fill, BitVec.msb_eq_getLsbD_last]
    grind

theorem signExtend_shamt (f7 : BitVec 7) (shamt : BitVec 5) :
    ((f7 ++ shamt).signExtend 32).extractLsb' 0 5 = shamt := by
  apply BitVec.eq_of_getLsbD_eq
  intro i hi
  simp only [BitVec.getLsbD_extractLsb', BitVec.getLsbD_append, BitVec.getLsbD_signExtend]
  grind

end Fields

/-- The decoded word `w`, executed at `pc` with the registers `reg`, has the effect `f` and
no other: it is known, and it touches no CSR and is not an ebreak. -/
structure Implements (w : Word) (reg : RegAddr → Word) (pc csr : Word) (f : Effect) : Prop where
  effect : (payload (decodeInst w) pc (reg (rs1Field w)) (reg (rs2Field w)) csr).effect
    (redirect (decodeInst w) pc (reg (rs1Field w)) (reg (rs2Field w)) csr) = f
  known : (decode (rs1Field w) true w).unknownInst = false
  csrWen : (decodeInst w).csrWen = false
  csrEvent : (decodeInst w).csrEvent = false
  ebreak : (decodeInst w).ebreakFlag = false

section Kinds

variable (reg : RegAddr → Word) (pc csr : Word)

theorem implements_upper (rd : RegAddr) (imm : BitVec 20) :
    Implements (Instr.lui rd imm).encode reg pc csr ((Instr.lui rd imm).effect reg pc) ∧
      Implements (Instr.auipc rd imm).encode reg pc csr ((Instr.auipc rd imm).effect reg pc) := by
  constructor <;> constructor <;>
    simp [decodeInst, decode, Instr.encode, instAuipc, instLui, decodeLui, decodeAuipc, decodeDefault,
      ExLsu.effect, payload, redirect, lsuCtrlNxt, wbDataNxt, jTaken, aluOut, alu, op1, op2, Instr.effect]

theorem implements_jal (rd : RegAddr) (imm : BitVec 20) :
    Implements (Instr.jal rd imm).encode reg pc csr ((Instr.jal rd imm).effect reg pc) := by
  constructor <;>
    simp [decodeInst, decode, Instr.encode, instAuipc, instLui, instTypeI, instTypeR, instJal, decodeJal,
      decodeDefault, ExLsu.effect, payload, redirect, lsuCtrlNxt, wbDataNxt, jTaken, aluOut, alu, op1, op2,
      Instr.effect]

theorem implements_opImm (o : OpImm) (rd rs1 : RegAddr) (imm : BitVec 12) :
    Implements (Instr.opImm o rd rs1 imm).encode reg pc csr ((Instr.opImm o rd rs1 imm).effect reg pc) := by
  cases o <;> constructor <;>
    simp [decodeInst, decode, Instr.encode, instAuipc, instLui, instTypeI, decodeTypeI, aluCtrlTypeI,
      decodeDefault, ExLsu.effect, payload, redirect, lsuCtrlNxt, wbDataNxt, jTaken, aluOut, alu, op1, op2,
      Instr.effect, OpImm.funct3, OpImm.eval, boolWord, BitVec.slt, BitVec.ult]

theorem implements_shiftImm (o : ShiftImm) (rd rs1 shamt : RegAddr) :
    Implements (Instr.shiftImm o rd rs1 shamt).encode reg pc csr
      ((Instr.shiftImm o rd rs1 shamt).effect reg pc) := by
  cases o <;> constructor <;>
    simp [decodeInst, decode, Instr.encode, instAuipc, instLui, instTypeI, decodeTypeI, aluCtrlTypeI,
      f7InstA, f7InstB, decodeDefault, ExLsu.effect, payload, redirect, lsuCtrlNxt, wbDataNxt, jTaken,
      aluOut, alu, op1, op2, Instr.effect, ShiftImm.funct3, ShiftImm.funct7, ShiftImm.eval,
      signExtend_shamt, BitVec.sshiftRight']

theorem implements_op (o : Op) (rd rs1 rs2 : RegAddr) :
    Implements (Instr.op o rd rs1 rs2).encode reg pc csr ((Instr.op o rd rs1 rs2).effect reg pc) := by
  cases o <;> constructor <;>
    simp [decodeInst, decode, Instr.encode, instAuipc, instLui, instTypeI, instTypeR, decodeTypeR,
      aluCtrlTypeR, f7InstA, f7InstB, decodeDefault, ExLsu.effect, payload, redirect, lsuCtrlNxt, wbDataNxt,
      jTaken, aluOut, alu, op1, op2, Instr.effect, Op.funct3, Op.funct7, Op.eval, boolWord, BitVec.slt,
      BitVec.ult, BitVec.sshiftRight']

theorem and_not_one {x : Word} (h : x.getLsbD 0 = false) : x &&& ~~~1#32 = x := by
  have h1 : ∀ i : Fin 32, (~~~1#32).getLsbD i = decide (i.val ≠ 0) := by decide
  apply BitVec.eq_of_getLsbD_eq
  intro i hi
  rw [BitVec.getLsbD_and, h1 ⟨i, hi⟩]
  by_cases hi0 : i = 0
  · subst hi0
    rw [h, Bool.false_and]
  · simp [hi0]

theorem implements_jalr {rd rs1 : RegAddr} {imm : BitVec 12}
    (h : (Instr.jalr rd rs1 imm).TargetEven reg) :
    Implements (Instr.jalr rd rs1 imm).encode reg pc csr ((Instr.jalr rd rs1 imm).effect reg pc) := by
  have hh := and_not_one h
  constructor
  case effect =>
    simp only [Instr.effect, hh]
    simp [decodeInst, decode, Instr.encode, instAuipc, instLui, instTypeI, instTypeR, instJal, instJalr,
      decodeJalr, decodeDefault, ExLsu.effect, payload, redirect, lsuCtrlNxt, wbDataNxt, jTaken, aluOut,
      alu, op1, op2, jalrSum]
  all_goals
    simp [decodeInst, decode, Instr.encode, instAuipc, instLui, instTypeI, instTypeR, instJal, instJalr,
      decodeJalr, decodeDefault]

theorem implements_branch (c : Cond) (rs1 rs2 : RegAddr) (imm : BitVec 12) :
    Implements (Instr.branch c rs1 rs2 imm).encode reg pc csr
      ((Instr.branch c rs1 rs2 imm).effect reg pc) := by
  cases c <;> constructor <;>
    simp [decodeInst, decode, Instr.encode, instAuipc, instLui, instTypeI, instTypeR, instJal, instJalr,
      instTypeB, decodeTypeB, jCondTypeB, decodeDefault, ExLsu.effect, payload, redirect, lsuCtrlNxt,
      jTaken, aluOut, alu, op1, op2, Instr.effect, Cond.funct3, Cond.holds, BitVec.slt, BitVec.ult,
      BitVec.sle, BitVec.ule]

theorem implements_load (l : Load) (rd rs1 : RegAddr) (imm : BitVec 12) :
    Implements (Instr.load l rd rs1 imm).encode reg pc csr ((Instr.load l rd rs1 imm).effect reg pc) := by
  cases l <;> constructor <;>
    simp [decodeInst, decode, Instr.encode, instAuipc, instLui, instTypeI, instTypeR, instJal, instJalr,
      instTypeB, instTypeIL, decodeTypeIL, decodeDefault, ExLsu.effect, payload, redirect, lsuCtrlNxt,
      lsuSizeNxt, accessWidth, jTaken, aluOut, alu, op1, op2, Instr.effect, Load.funct3, Load.width,
      Load.signed]

theorem implements_store (s : Store) (rs1 rs2 : RegAddr) (imm : BitVec 12) :
    Implements (Instr.store s rs1 rs2 imm).encode reg pc csr
      ((Instr.store s rs1 rs2 imm).effect reg pc) := by
  cases s <;> constructor <;>
    simp [decodeInst, decode, Instr.encode, instAuipc, instLui, instTypeI, instTypeR, instJal, instJalr,
      instTypeB, instTypeIL, instTypeS, decodeTypeS, decodeDefault, ExLsu.effect, payload, redirect,
      lsuCtrlNxt, lsuSizeNxt, accessWidth, jTaken, aluOut, alu, op1, op2, Instr.effect, Store.funct3,
      Store.width]

theorem implements_encode {i : Instr} (h : i.TargetEven reg) :
    Implements i.encode reg pc csr (i.effect reg pc) := by
  cases i with
  | lui rd imm => exact (implements_upper reg pc csr rd imm).1
  | auipc rd imm => exact (implements_upper reg pc csr rd imm).2
  | jal rd imm => exact implements_jal reg pc csr rd imm
  | jalr rd rs1 imm => exact implements_jalr reg pc csr h
  | branch c rs1 rs2 imm => exact implements_branch reg pc csr c rs1 rs2 imm
  | load l rd rs1 imm => exact implements_load reg pc csr l rd rs1 imm
  | store s rs1 rs2 imm => exact implements_store reg pc csr s rs1 rs2 imm
  | opImm o rd rs1 imm => exact implements_opImm reg pc csr o rd rs1 imm
  | shiftImm o rd rs1 shamt => exact implements_shiftImm reg pc csr o rd rs1 shamt
  | op o rd rs1 rs2 => exact implements_op reg pc csr o rd rs1 rs2

end Kinds

/-- Decode and execute implement RV32I, for every instruction, pc and register values; for
jalr with an even target. -/
theorem decode_execute_implements (i : Instr) (reg : RegAddr → Word) (pc csr : Word)
    (h : i.TargetEven reg) : Implements i.encode reg pc csr (i.effect reg pc) :=
  implements_encode reg pc csr h

theorem decode_execute_implements_jalr :
    Implements (Instr.jalr 1#5 2#5 8#12).encode (fun _ => 0x100#32) 0x80000000#32 0#32
      ((Instr.jalr 1#5 2#5 8#12).effect (fun _ => 0x100#32) 0x80000000#32) :=
  decode_execute_implements _ _ _ _ (by unfold Instr.TargetEven jalrSum; decide)

end Npc
