import Npc.Idu

/-! The execute stage, `EXU.v`: operand forwarding and selection, the ALU, the branch
decision, the payload sent to the LSU, and the EX/LSU and `ex_csr_*` registers. -/

namespace Npc

/-- The EX/LSU register. `ctrl` is 00 for none, 01 for read, 10 for write; `size` is 00 for
a byte, 01 for a half-word, 10 for a word. -/
structure ExLsu where
  valid : Bool
  addr : Word
  data : Word
  ctrl : BitVec 2
  size : BitVec 2
  isUload : Bool
  wbData : Word
  wbRd : RegAddr
  wbWen : Bool
  pc : Word
  ebreak : Bool
  deriving DecidableEq, Repr

structure ExCsr where
  wen : Bool
  pc : Word
  event : Bool
  waddr : CsrAddr
  wdata : Word
  deriving DecidableEq, Repr

/-- An operand: from EX/LSU, else from the write-back port, else from the register file.
Loads are not forwarded from EX/LSU. -/
def fwdData (x : ExLsu) (wbRfWe : Bool) (wbRfRd : RegAddr) (wbRdDat : Word) (rsAddr : RegAddr)
    (rfData : Word) : Word :=
  if x.valid && x.wbWen && x.wbRd ≠ 0#5 && x.wbRd = rsAddr && x.ctrl ≠ 1#2 then x.wbData
  else if wbRfWe && wbRfRd ≠ 0#5 && wbRfRd = rsAddr then wbRdDat
  else rfData

def op1 (sel : AluOpCtrl) (pc rs1 : Word) : Word :=
  match sel with
  | .pcImm => pc
  | .rs1Imm | .rs1Csr | .rs1Rs2 => rs1

def op2 (sel : AluOpCtrl) (imm csr rs2 : Word) : Word :=
  match sel with
  | .pcImm | .rs1Imm => imm
  | .rs1Csr => csr
  | .rs1Rs2 => rs2

def alu (ctrl : AluCtrl) (op1 op2 : Word) : Word :=
  match ctrl with
  | .idle => 0#32
  | .add => op1 + op2
  | .sub => op1 - op2
  | .op2 => op2
  | .lessU => if op1.ult op2 then 1#32 else 0#32
  | .less => if op1.slt op2 then 1#32 else 0#32
  | .shiftLeft => op1 <<< op2.extractLsb' 0 5
  | .shiftRightU => op1 >>> op2.extractLsb' 0 5
  | .shiftRight => op1.sshiftRight' (op2.extractLsb' 0 5)
  | .and => op1 &&& op2
  | .xor => op1 ^^^ op2
  | .or => op1 ||| op2
  | .xxxxxx => 0#32

def jTaken (jEn : Bool) (cond : JCond) (rs1 rs2 : Word) : Bool :=
  if jEn then
    match cond with
    | .uncond => true
    | .beq => rs1 = rs2
    | .bne => rs1 ≠ rs2
    | .bge => rs2.sle rs1
    | .bgeU => rs2.ule rs1
    | .bltU => rs1.ult rs2
    | .blt => rs1.slt rs2
  else false

def aluOut (d : Decoded) (pc rs1 rs2 csr : Word) : Word :=
  alu d.aluCtrl (op1 d.aluOpCtrl pc rs1) (op2 d.aluOpCtrl d.imm csr rs2)

def lsuCtrlNxt (lsuEn lsuWe : Bool) : BitVec 2 :=
  if !lsuEn then 0#2 else if lsuWe then 2#2 else 1#2

def lsuSizeNxt (lsuCtrl : BitVec 3) : BitVec 2 :=
  if lsuCtrl = 0#3 ∨ lsuCtrl = 4#3 then 0#2
  else if lsuCtrl = 1#3 ∨ lsuCtrl = 5#3 then 1#2
  else 2#2

def wbDataNxt (wbCtrl : WbCtrl) (pc imm aluOut : Word) : Word :=
  match wbCtrl with
  | .pc => pc + 4#32
  | .imm => imm
  | .alu | .mem | .idle => aluOut

def payload (d : Decoded) (pc rs1 rs2 csr : Word) : ExLsu where
  valid := true
  addr := aluOut d pc rs1 rs2 csr
  data := rs2
  ctrl := lsuCtrlNxt d.lsuEn d.lsuWe
  size := lsuSizeNxt d.lsuCtrl
  isUload := d.isUload
  wbData := wbDataNxt d.wbCtrl pc d.imm (aluOut d pc rs1 rs2 csr)
  wbRd := d.rd
  wbWen := d.rfWe
  pc := pc
  ebreak := d.ebreakFlag

def exLsuReset : ExLsu where
  valid := false
  addr := 0#32
  data := 0#32
  ctrl := 0#2
  size := 2#2
  isUload := false
  wbData := 0#32
  wbRd := 0#5
  wbWen := false
  pc := 0#32
  ebreak := false

def exLsuEmpty (pc : Word) : ExLsu := { exLsuReset with size := 0#2, pc := pc }

/-- The clocked update of EX/LSU. With nothing in ID/EX the register is cleared whether or
not the LSU is ready. -/
def exLsuNext (rst exIdReady idExValid : Bool) (nxt x : ExLsu) : ExLsu :=
  if rst then exLsuReset
  else if exIdReady && idExValid then nxt
  else if !idExValid then exLsuEmpty x.pc
  else x

def exCsrIdle : ExCsr where
  wen := false
  pc := 0#32
  event := false
  waddr := 0#12
  wdata := 0#32

def csrPayload (d : Decoded) (pc rs1 : Word) : ExCsr where
  wen := d.csrWen
  pc := pc
  event := d.csrEvent
  waddr := d.csrAddr
  wdata := rs1

def exCsrNext (rst exIdReady idExValid : Bool) (nxt : ExCsr) : ExCsr :=
  if rst then exCsrIdle
  else if exIdReady && idExValid then nxt
  else exCsrIdle

end Npc
