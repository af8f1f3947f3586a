import Npc.Macro

/-! The decode stage, `IDU.v`: immediates and control signals of an instruction word, the
load-use interlock, the handshakes with IFU and EXU, and the ID/EX register. -/

namespace Npc

/-- The decoder's `*_nxt` outputs. The defaults are those set before the `case`. -/
structure Decoded where
  rd : RegAddr
  imm : Word := 0#32
  aluCtrl : AluCtrl := .idle
  aluOpCtrl : AluOpCtrl := .rs1Rs2
  wbCtrl : WbCtrl := .idle
  rfWe : Bool := false
  lsuEn : Bool := false
  lsuWe : Bool := false
  ebreakFlag : Bool := false
  jEn : Bool := false
  jCond : JCond := .uncond
  csrWen : Bool := false
  csrEvent : Bool := false
  csrAddr : CsrAddr
  lsuCtrl : BitVec 3
  isUload : Bool := false
  deriving DecidableEq, Repr

/-- The control signals and whether `unknown_inst` is called. -/
structure Decode where
  nxt : Decoded
  unknownInst : Bool := false
  deriving DecidableEq, Repr

def decodeDefault (instr : Word) : Decoded where
  rd := rdField instr
  csrAddr := csrField instr
  lsuCtrl := funct3 instr

def decodeAuipc (instr : Word) : Decode where
  nxt := { decodeDefault instr with
    aluCtrl := .add, aluOpCtrl := .pcImm, imm := immU instr, rfWe := true, wbCtrl := .alu }

def decodeLui (instr : Word) : Decode where
  nxt := { decodeDefault instr with imm := immU instr, rfWe := true, wbCtrl := .imm }

/-- The ALU function of `INST_TYPE_I`, `none` in the unknown arm. -/
def aluCtrlTypeI (instr : Word) : Option AluCtrl :=
  if funct3 instr = 0#3 then some .add
  else if funct3 instr = 3#3 then some .lessU
  else if funct3 instr = 4#3 then some .xor
  else if funct3 instr = 6#3 then some .or
  else if funct3 instr = 7#3 then some .and
  else if funct3 instr = 2#3 then some .less
  else if funct3 instr = 5#3 ∧ funct7 instr = f7InstA then some .shiftRightU
  else if funct3 instr = 5#3 ∧ funct7 instr = f7InstB then some .shiftRight
  else if funct3 instr = 1#3 ∧ funct7 instr = f7InstA then some .shiftLeft
  else none

/-- An unknown function leaves the ALU idle but the write enable, set first, stays on. -/
def decodeTypeI (instr : Word) : Decode where
  nxt := { decodeDefault instr with
    aluOpCtrl := .rs1Imm, imm := immI instr, rfWe := true, wbCtrl := .alu,
    aluCtrl := (aluCtrlTypeI instr).getD .idle }
  unknownInst := (aluCtrlTypeI instr).isNone

def aluCtrlTypeR (instr : Word) : Option AluCtrl :=
  if funct3 instr = 0#3 ∧ funct7 instr = f7InstA then some .add
  else if funct3 instr = 0#3 ∧ funct7 instr = f7InstB then some .sub
  else if funct3 instr = 4#3 ∧ funct7 instr = f7InstA then some .xor
  else if funct3 instr = 6#3 ∧ funct7 instr = f7InstA then some .or
  else if funct3 instr = 7#3 ∧ funct7 instr = f7InstA then some .and
  else if funct3 instr = 5#3 ∧ funct7 instr = f7InstA then some .shiftRightU
  else if funct3 instr = 5#3 ∧ funct7 instr = f7InstB then some .shiftRight
  else if funct3 instr = 2#3 ∧ funct7 instr = f7InstA then some .less
  else if funct3 instr = 3#3 ∧ funct7 instr = f7InstA then some .lessU
  else if funct3 instr = 1#3 ∧ funct7 instr = f7InstA then some .shiftLeft
  else none

def decodeTypeR (instr : Word) : Decode where
  nxt := { decodeDefault instr with
    aluOpCtrl := .rs1Rs2, rfWe := true, wbCtrl := .alu,
    aluCtrl := (aluCtrlTypeR instr).getD .idle }
  unknownInst := (aluCtrlTypeR instr).isNone

def decodeJal (instr : Word) : Decode where
  nxt := { decodeDefault instr with
    aluCtrl := .add, aluOpCtrl := .pcImm, imm := immJ instr, rfWe := true, wbCtrl := .pc, jEn := true }

def decodeJalr (instr : Word) : Decode :=
  if funct3 instr = 0#3 then
    { nxt := { decodeDefault instr with
        aluCtrl := .add, aluOpCtrl := .rs1Imm, imm := immI instr, rfWe := true, wbCtrl := .pc,
        jEn := true } }
  else { nxt := decodeDefault instr, unknownInst := true }

def jCondTypeB (instr : Word) : Option JCond :=
  if funct3 instr = 0#3 then some .beq
  else if funct3 instr = 1#3 then some .bne
  else if funct3 instr = 7#3 then some .bgeU
  else if funct3 instr = 5#3 then some .bge
  else if funct3 instr = 6#3 then some .bltU
  else if funct3 instr = 4#3 then some .blt
  else none

/-- `j_en` is set first, so an unknown condition keeps the default `J_UNCOND`. -/
def decodeTypeB (instr : Word) : Decode where
  nxt := { decodeDefault instr with
    aluCtrl := .add, aluOpCtrl := .pcImm, imm := immB instr, jEn := true,
    jCond := (jCondTypeB instr).getD .uncond }
  unknownInst := (jCondTypeB instr).isNone

def decodeTypeIL (instr : Word) : Decode :=
  if funct3 instr = 0#3 ∨ funct3 instr = 1#3 ∨ funct3 instr = 2#3 then
    { nxt := { decodeDefault instr with
        aluCtrl := .add, aluOpCtrl := .rs1Imm, imm := immI instr, lsuEn := true, lsuWe := false,
        rfWe := true, wbCtrl := .mem, isUload := false } }
  else if funct3 instr = 4#3 ∨ funct3 instr = 5#3 then
    { nxt := { decodeDefault instr with
        aluCtrl := .add, aluOpCtrl := .rs1Imm, imm := immI instr, lsuEn := true, lsuWe := false,
        rfWe := true, wbCtrl := .mem, isUload := true } }
  else { nxt := decodeDefault instr, unknownInst := true }

def decodeTypeS (instr : Word) : Decode :=
  if funct3 instr = 0#3 ∨ funct3 instr = 1#3 ∨ funct3 instr = 2#3 then
    { nxt := { decodeDefault instr with
        aluCtrl := .add, aluOpCtrl := .rs1Imm, imm := immS instr, lsuEn := true, lsuWe := true } }
  else { nxt := decodeDefault instr, unknownInst := true }

/-- `rs1AddrNxt` is the register-file address of the cycle, zero under reset or flush. -/
def decodeSystem (rs1AddrNxt : RegAddr) (instr : Word) : Decode :=
  if immI instr = 1#32 ∧ rs1AddrNxt = 0#5 ∧ funct3 instr = 0#3 ∧ rdField instr = 0#5 then
    { nxt := { decodeDefault instr with ebreakFlag := true } }
  else if instr.extractLsb' 7 25 = 0#25 then
    { nxt := { decodeDefault instr with
        csrAddr := 0x305#12, csrEvent := true, aluCtrl := .op2, aluOpCtrl := .rs1Csr, jEn := true } }
  else if instr.extractLsb' 7 25 = 0b0011000000100000000000000#25 then
    { nxt := { decodeDefault instr with
        csrAddr := 0x341#12, aluCtrl := .op2, aluOpCtrl := .rs1Csr, jEn := true } }
  else if funct3 instr = 1#3 then
    { nxt := { decodeDefault instr with
        aluCtrl := .op2, aluOpCtrl := .rs1Csr, csrWen := true, rfWe := true, wbCtrl := .alu } }
  else if funct3 instr = 2#3 then
    { nxt := { decodeDefault instr with
        aluCtrl := .or, aluOpCtrl := .rs1Csr, csrWen := false, rfWe := true, wbCtrl := .alu } }
  else { nxt := decodeDefault instr, unknownInst := true }

def decode (rs1AddrNxt : RegAddr) (ifIdInstrValid : Bool) (instr : Word) : Decode :=
  if ifIdInstrValid then
    if opcode instr = instAuipc then decodeAuipc instr
    else if opcode instr = instLui then decodeLui instr
    else if opcode instr = instTypeI then decodeTypeI instr
    else if opcode instr = instTypeR then decodeTypeR instr
    else if opcode instr = instJal then decodeJal instr
    else if opcode instr = instJalr then decodeJalr instr
    else if opcode instr = instTypeB then decodeTypeB instr
    else if opcode instr = instTypeIL then decodeTypeIL instr
    else if opcode instr = instTypeS then decodeTypeS instr
    else if opcode instr = instSystem then decodeSystem rs1AddrNxt instr
    else { nxt := decodeDefault instr, unknownInst := true }
  else { nxt := decodeDefault instr }

def usesRs1 (instr : Word) : Bool :=
  opcode instr = instTypeR || opcode instr = instTypeI || opcode instr = instTypeIL ||
    opcode instr = instJalr || opcode instr = instTypeS || opcode instr = instTypeB ||
    opcode instr = instSystem

def usesRs2 (instr : Word) : Bool :=
  opcode instr = instTypeR || opcode instr = instTypeS || opcode instr = instTypeB

structure IdEx extends Decoded where
  valid : Bool
  pc : Word
  rs1Addr : RegAddr
  rs2Addr : RegAddr
  deriving DecidableEq, Repr

/-- The values of a cleared ID/EX register; only the pc differs between its uses. -/
def IdEx.bubble (pc : Word) : IdEx where
  rd := 0#5
  csrAddr := 0#12
  lsuCtrl := 0#3
  valid := false
  pc := pc
  rs1Addr := 0#5
  rs2Addr := 0#5

def idExIsLoad (r : IdEx) : Bool := r.valid && r.lsuEn && !r.lsuWe && r.rfWe

def loadUseHazard (ifIdInstrValid : Bool) (instr : Word) (r : IdEx) : Bool :=
  (ifIdInstrValid && usesRs1 instr && idExIsLoad r && r.rd ≠ 0#5 && r.rd = rs1Field instr) ||
  (ifIdInstrValid && usesRs2 instr && idExIsLoad r && r.rd ≠ 0#5 && r.rd = rs2Field instr)

def idGlbStall (rst exIdReady ifIdInstrValid : Bool) (instr : Word) (r : IdEx) : Bool :=
  if rst then false else loadUseHazard ifIdInstrValid instr r && exIdReady

def rsAddrNxt (rst exGlbFlush : Bool) (field : RegAddr) : RegAddr :=
  if rst then 0#5 else if exGlbFlush then 0#5 else field

def uncondJumpInId (ifIdInstrValid : Bool) (nxt : Decoded) : Bool :=
  ifIdInstrValid && nxt.jEn && nxt.jCond = .uncond

def idIfInstrReady (idGlbStall exIdReady : Bool) (uncondJumpInId : Bool) : Bool :=
  !idGlbStall && exIdReady && !uncondJumpInId

def idExNext (rst exGlbFlush idGlbStall ifIdInstrValid exIdReady : Bool) (ifIdPc instr : Word)
    (nxt : Decoded) (r : IdEx) : IdEx :=
  let instReadyInter := !idGlbStall && exIdReady
  if rst then .bubble 0#32
  else if exGlbFlush then .bubble r.pc
  else if idGlbStall then .bubble r.pc
  else if ifIdInstrValid && instReadyInter then
    { nxt with
      valid := true
      pc := ifIdPc
      rs1Addr := rsAddrNxt rst exGlbFlush (rs1Field instr)
      rs2Addr := rsAddrNxt rst exGlbFlush (rs2Field instr) }
  else if instReadyInter && r.valid then .bubble r.pc
  else r

end Npc
