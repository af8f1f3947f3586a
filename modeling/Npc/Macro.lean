import Mathlib.Data.BitVec

/-! The encodings of `macro.v` and the fields of an instruction word. Control signals
that only select an arm of a `case` are enumerations; opcodes, functs and the LSU's two-bit
codes keep their bits, because the modules compare and forward them as bits. -/

namespace Npc

abbrev Word := BitVec 32
abbrev RegAddr := BitVec 5
abbrev CsrAddr := BitVec 12

def instTypeR : BitVec 7 := 0b0110011#7
def instTypeI : BitVec 7 := 0b0010011#7
def instTypeIL : BitVec 7 := 0b0000011#7
def instTypeS : BitVec 7 := 0b0100011#7
def instTypeB : BitVec 7 := 0b1100011#7
def instJal : BitVec 7 := 0b1101111#7
def instJalr : BitVec 7 := 0b1100111#7
def instLui : BitVec 7 := 0b0110111#7
def instAuipc : BitVec 7 := 0b0010111#7
def instSystem : BitVec 7 := 0b1110011#7

def f7InstA : BitVec 7 := 0x00#7
def f7InstB : BitVec 7 := 0x20#7

/-- `ALU_*`, the ALU function. The unused code `ALU_XXXXXX` and the four codes without
a name select the same default arm. -/
inductive AluCtrl
  | idle | add | op2 | sub | lessU | less | shiftLeft | and | or | xor
  | shiftRightU | shiftRight | xxxxxx
  deriving DecidableEq, Repr

inductive AluOpCtrl
  | rs1Rs2 | rs1Imm | pcImm | rs1Csr
  deriving DecidableEq, Repr

inductive JCond
  | uncond | beq | bne | bge | bgeU | bltU | blt
  deriving DecidableEq, Repr

inductive WbCtrl
  | idle | alu | pc | imm | mem
  deriving DecidableEq, Repr

def opcode (instr : Word) : BitVec 7 := instr.extractLsb' 0 7
def funct3 (instr : Word) : BitVec 3 := instr.extractLsb' 12 3
def funct7 (instr : Word) : BitVec 7 := instr.extractLsb' 25 7
def rdField (instr : Word) : RegAddr := instr.extractLsb' 7 5
def rs1Field (instr : Word) : RegAddr := instr.extractLsb' 15 5
def rs2Field (instr : Word) : RegAddr := instr.extractLsb' 20 5
def csrField (instr : Word) : CsrAddr := instr.extractLsb' 20 12

def rep (n : Nat) (b : Bool) : BitVec n := BitVec.fill n b

def immI (instr : Word) : Word := rep 20 (instr.getLsbD 31) ++ instr.extractLsb' 20 12
def immU (instr : Word) : Word := instr.extractLsb' 12 20 ++ 0#12
def immS (instr : Word) : Word :=
  rep 20 (instr.getLsbD 31) ++ instr.extractLsb' 25 7 ++ instr.extractLsb' 7 5
def immJ (instr : Word) : Word :=
  rep 12 (instr.getLsbD 31) ++ instr.extractLsb' 12 8 ++ instr.extractLsb' 20 1 ++
    instr.extractLsb' 21 10 ++ 0#1
def immB (instr : Word) : Word :=
  rep 20 (instr.getLsbD 31) ++ instr.extractLsb' 7 1 ++ instr.extractLsb' 25 6 ++
    instr.extractLsb' 8 4 ++ 0#1

end Npc
