import Mathlib.Data.BitVec

/-! The RV32I base integer instructions, without FENCE and SYSTEM: syntax, encoding and the
effect of one instruction on registers, pc and memory. -/

namespace Rv32i

abbrev Word := BitVec 32
abbrev Reg := BitVec 5

inductive Op
  | add | sub | sll | slt | sltu | xor | srl | sra | or | and
  deriving DecidableEq, Repr

inductive OpImm
  | addi | slti | sltiu | xori | ori | andi
  deriving DecidableEq, Repr

inductive ShiftImm
  | slli | srli | srai
  deriving DecidableEq, Repr

inductive Cond
  | beq | bne | blt | bge | bltu | bgeu
  deriving DecidableEq, Repr

inductive Load
  | lb | lh | lw | lbu | lhu
  deriving DecidableEq, Repr

inductive Store
  | sb | sh | sw
  deriving DecidableEq, Repr

/-- An instruction. The immediates of jal and branch are the offset without its zero bit. -/
inductive Instr
  | lui (rd : Reg) (imm : BitVec 20)
  | auipc (rd : Reg) (imm : BitVec 20)
  | jal (rd : Reg) (imm : BitVec 20)
  | jalr (rd rs1 : Reg) (imm : BitVec 12)
  | branch (c : Cond) (rs1 rs2 : Reg) (imm : BitVec 12)
  | load (l : Load) (rd rs1 : Reg) (imm : BitVec 12)
  | store (s : Store) (rs1 rs2 : Reg) (imm : BitVec 12)
  | opImm (o : OpImm) (rd rs1 : Reg) (imm : BitVec 12)
  | shiftImm (o : ShiftImm) (rd rs1 : Reg) (shamt : BitVec 5)
  | op (o : Op) (rd rs1 rs2 : Reg)
  deriving DecidableEq, Repr

section Encoding

def format (top : BitVec 12) (rs1 : Reg) (funct3 : BitVec 3) (rd : Reg) (opcode : BitVec 7) : Word :=
  top ++ rs1 ++ funct3 ++ rd ++ opcode

def upperFormat (imm : BitVec 20) (rd : Reg) (opcode : BitVec 7) : Word := imm ++ rd ++ opcode

def rFormat (funct7 : BitVec 7) (rs2 rs1 : Reg) (funct3 : BitVec 3) (rd : Reg) (opcode : BitVec 7) : Word :=
  format (funct7 ++ rs2) rs1 funct3 rd opcode

def sFormat (imm : BitVec 12) (rs2 rs1 : Reg) (funct3 : BitVec 3) (opcode : BitVec 7) : Word :=
  format (imm.extractLsb' 5 7 ++ rs2) rs1 funct3 (imm.extractLsb' 0 5) opcode

/-- Bits 12, 10:5, 4:1 and 11 of the offset, `imm` being bits 12:1. -/
def bFormat (imm : BitVec 12) (rs2 rs1 : Reg) (funct3 : BitVec 3) (opcode : BitVec 7) : Word :=
  format (imm.extractLsb' 11 1 ++ imm.extractLsb' 4 6 ++ rs2) rs1 funct3
    (imm.extractLsb' 0 4 ++ imm.extractLsb' 10 1) opcode

/-- Bits 20, 10:1, 11 and 19:12 of the offset, `imm` being bits 20:1. -/
def jFormat (imm : BitVec 20) (rd : Reg) (opcode : BitVec 7) : Word :=
  upperFormat (imm.extractLsb' 19 1 ++ imm.extractLsb' 0 10 ++ imm.extractLsb' 10 1 ++
    imm.extractLsb' 11 8) rd opcode

def Op.funct7 : Op → BitVec 7
  | .sub | .sra => 0b0100000#7
  | _ => 0b0000000#7

def Op.funct3 : Op → BitVec 3
  | .add | .sub => 0b000#3
  | .sll => 0b001#3
  | .slt => 0b010#3
  | .sltu => 0b011#3
  | .xor => 0b100#3
  | .srl | .sra => 0b101#3
  | .or => 0b110#3
  | .and => 0b111#3

def OpImm.funct3 : OpImm → BitVec 3
  | .addi => 0b000#3
  | .slti => 0b010#3
  | .sltiu => 0b011#3
  | .xori => 0b100#3
  | .ori => 0b110#3
  | .andi => 0b111#3

def ShiftImm.funct7 : ShiftImm → BitVec 7
  | .srai => 0b0100000#7
  | _ => 0b0000000#7

def ShiftImm.funct3 : ShiftImm → BitVec 3
  | .slli => 0b001#3
  | .srli | .srai => 0b101#3

def Cond.funct3 : Cond → BitVec 3
  | .beq => 0b000#3
  | .bne => 0b001#3
  | .blt => 0b100#3
  | .bge => 0b101#3
  | .bltu => 0b110#3
  | .bgeu => 0b111#3

def Load.funct3 : Load → BitVec 3
  | .lb => 0b000#3
  | .lh => 0b001#3
  | .lw => 0b010#3
  | .lbu => 0b100#3
  | .lhu => 0b101#3

def Store.funct3 : Store → BitVec 3
  | .sb => 0b000#3
  | .sh => 0b001#3
  | .sw => 0b010#3

def Instr.encode : Instr → Word
  | .lui rd imm => upperFormat imm rd 0b0110111#7
  | .auipc rd imm => upperFormat imm rd 0b0010111#7
  | .jal rd imm => jFormat imm rd 0b1101111#7
  | .jalr rd rs1 imm => format imm rs1 0b000#3 rd 0b1100111#7
  | .branch c rs1 rs2 imm => bFormat imm rs2 rs1 c.funct3 0b1100011#7
  | .load l rd rs1 imm => format imm rs1 l.funct3 rd 0b0000011#7
  | .store s rs1 rs2 imm => sFormat imm rs2 rs1 s.funct3 0b0100011#7
  | .opImm o rd rs1 imm => format imm rs1 o.funct3 rd 0b0010011#7
  | .shiftImm o rd rs1 shamt => rFormat o.funct7 shamt rs1 o.funct3 rd 0b0010011#7
  | .op o rd rs1 rs2 => rFormat o.funct7 rs2 rs1 o.funct3 rd 0b0110011#7

end Encoding

section Semantics

inductive Width
  | byte | half | word
  deriving DecidableEq, Repr

structure LoadAccess where
  rd : Option Reg
  addr : Word
  width : Width
  signed : Bool
  deriving DecidableEq, Repr

/-- The stored value is the low part of `data`. -/
structure StoreAccess where
  addr : Word
  width : Width
  data : Word
  deriving DecidableEq, Repr

/-- What one instruction does: the register it writes other than from memory, the pc it
jumps to, its access to memory. -/
structure Effect where
  write : Option (Reg × Word) := none
  jump : Option Word := none
  load : Option LoadAccess := none
  store : Option StoreAccess := none
  deriving DecidableEq, Repr

def boolWord (p : Bool) : Word := if p then 1#32 else 0#32

def Op.eval (a b : Word) : Op → Word
  | .add => a + b
  | .sub => a - b
  | .sll => a <<< (b.toNat % 32)
  | .slt => boolWord (a.toInt < b.toInt)
  | .sltu => boolWord (a.toNat < b.toNat)
  | .xor => a ^^^ b
  | .srl => a >>> (b.toNat % 32)
  | .sra => a.sshiftRight (b.toNat % 32)
  | .or => a ||| b
  | .and => a &&& b

/-- `b` is the immediate, sign-extended. -/
def OpImm.eval (a b : Word) : OpImm → Word
  | .addi => a + b
  | .slti => boolWord (a.toInt < b.toInt)
  | .sltiu => boolWord (a.toNat < b.toNat)
  | .xori => a ^^^ b
  | .ori => a ||| b
  | .andi => a &&& b

def ShiftImm.eval (a : Word) (shamt : BitVec 5) : ShiftImm → Word
  | .slli => a <<< shamt.toNat
  | .srli => a >>> shamt.toNat
  | .srai => a.sshiftRight shamt.toNat

def Cond.holds (a b : Word) : Cond → Bool
  | .beq => a = b
  | .bne => a ≠ b
  | .blt => a.toInt < b.toInt
  | .bge => b.toInt ≤ a.toInt
  | .bltu => a.toNat < b.toNat
  | .bgeu => b.toNat ≤ a.toNat

def Load.width : Load → Width
  | .lb | .lbu => .byte
  | .lh | .lhu => .half
  | .lw => .word

def Load.signed : Load → Bool
  | .lbu | .lhu => false
  | _ => true

def Store.width : Store → Width
  | .sb => .byte
  | .sh => .half
  | .sw => .word

/-- The target of jalr before its lowest bit is cleared. -/
def jalrSum (reg : Reg → Word) (rs1 : Reg) (imm : BitVec 12) : Word := reg rs1 + imm.signExtend 32

def Instr.effect (reg : Reg → Word) (pc : Word) : Instr → Effect
  | .lui rd imm => { write := some (rd, imm ++ 0#12) }
  | .auipc rd imm => { write := some (rd, pc + (imm ++ 0#12)) }
  | .jal rd imm => { write := some (rd, pc + 4#32), jump := some (pc + (imm ++ 0#1).signExtend 32) }
  | .jalr rd rs1 imm => { write := some (rd, pc + 4#32), jump := some (jalrSum reg rs1 imm &&& ~~~1#32) }
  | .branch c rs1 rs2 imm =>
    { jump := if c.holds (reg rs1) (reg rs2) then some (pc + (imm ++ 0#1).signExtend 32) else none }
  | .load l rd rs1 imm => { load := some ⟨some rd, reg rs1 + imm.signExtend 32, l.width, l.signed⟩ }
  | .store s rs1 rs2 imm => { store := some ⟨reg rs1 + imm.signExtend 32, s.width, reg rs2⟩ }
  | .opImm o rd rs1 imm => { write := some (rd, o.eval (reg rs1) (imm.signExtend 32)) }
  | .shiftImm o rd rs1 shamt => { write := some (rd, o.eval (reg rs1) shamt) }
  | .op o rd rs1 rs2 => { write := some (rd, o.eval (reg rs1) (reg rs2)) }

/-- A jalr has an even target before its lowest bit is cleared. -/
def Instr.TargetEven (reg : Reg → Word) : Instr → Prop
  | .jalr _ rs1 imm => (jalrSum reg rs1 imm).getLsbD 0 = false
  | _ => True

end Semantics

end Rv32i
