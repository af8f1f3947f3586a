import Mathlib.Logic.Function.Basic
import Npc.RvCode

/-! RV32I with the CSRs of a trap, in machine mode alone: csrrw, csrrs, ecall and mret, with traps
to mtvec in direct mode. A CSR holds all that is written to it. -/

namespace Rv32i

open ByteMemory

inductive CsrName
  | mstatus | mtvec | mepc | mcause
  deriving DecidableEq, Repr

def CsrName.addr : CsrName → BitVec 12
  | .mstatus => 0x300#12
  | .mtvec => 0x305#12
  | .mepc => 0x341#12
  | .mcause => 0x342#12

theorem CsrName.addr_injective : Function.Injective CsrName.addr := by
  intro c c' h
  cases c <;> cases c' <;> first | rfl | exact absurd h (by decide)

inductive PrivInstr
  | base (i : Instr)
  | csrrw (rd : Reg) (csr : CsrName) (rs1 : Reg)
  | csrrs (rd : Reg) (csr : CsrName) (rs1 : Reg)
  | ecall
  | mret

structure PrivState extends State where
  csrs : CsrName → Word

/-- mstatus behind a trap: MIE goes to MPIE and is cleared, and MPP is machine mode. -/
def enterStatus (s : Word) : Word := (s &&& ~~~0x88#32) ||| ((s &&& 0x8#32) <<< 4) ||| 0x1800#32

/-- mstatus behind an mret: MPIE goes to MIE and is set, and MPP stays, there being no other mode. -/
def leaveStatus (s : Word) : Word := (s &&& ~~~0x88#32) ||| ((s &&& 0x80#32) >>> 4) ||| 0x80#32

namespace PrivInstr

def encode : PrivInstr → Word
  | .base i => i.encode
  | .csrrw rd csr rs1 => format csr.addr rs1 0b001#3 rd 0b1110011#7
  | .csrrs rd csr rs1 => format csr.addr rs1 0b010#3 rd 0b1110011#7
  | .ecall => 0x00000073#32
  | .mret => 0x30200073#32

/-- The CSR whose value the instruction puts to use. -/
def reads : PrivInstr → Option CsrName
  | .base _ => none
  | .csrrw rd csr _ | .csrrs rd csr _ => if rd = 0#5 then none else some csr
  | .ecall => some .mtvec
  | .mret => some .mepc

def changes (t : PrivState) : PrivInstr → Option CsrName
  | .csrrw _ csr rs1 => if t.regs rs1 = t.csrs csr then none else some csr
  | _ => none

/-- No exception but that of ecall itself. -/
def Aligned (t : PrivState) : PrivInstr → Prop
  | .base i => i.TargetEven t.regs ∧ (i.effect t.regs t.pc).Aligned
  | .ecall => 4 ∣ (t.csrs .mtvec).toNat
  | .mret => 4 ∣ (t.csrs .mepc).toNat
  | _ => True

end PrivInstr

namespace PrivState

open Function (update)

def exec (t : PrivState) : PrivInstr → PrivState
  | .base i => { t with toState := t.toState.exec i }
  | .csrrw rd csr rs1 =>
    ⟨⟨t.pc + 4#32, t.regs.set rd (t.csrs csr), t.mem⟩, update t.csrs csr (t.regs rs1)⟩
  | .csrrs rd csr rs1 =>
    ⟨⟨t.pc + 4#32, t.regs.set rd (t.csrs csr), t.mem⟩, update t.csrs csr (t.csrs csr ||| t.regs rs1)⟩
  | .ecall =>
    ⟨⟨t.csrs .mtvec, t.regs, t.mem⟩, update (update (update t.csrs .mepc t.pc) .mcause 11#32) .mstatus
      (enterStatus (t.csrs .mstatus))⟩
  | .mret =>
    ⟨⟨t.csrs .mepc, t.regs, t.mem⟩, update t.csrs .mstatus (leaveStatus (t.csrs .mstatus))⟩

end PrivState

structure PrivLegal (code : Mem 32) (i : PrivInstr) (t : PrivState) : Prop where
  fetched : fetch code t.pc = i.encode
  pc_aligned : 4 ∣ t.pc.toNat
  aligned : i.Aligned t

theorem PrivLegal.base {code : Mem 32} {i : Instr} {t : PrivState} (h : PrivLegal code (.base i) t) :
    Legal code i t.toState :=
  ⟨h.fetched, h.pc_aligned, h.aligned.1, h.aligned.2⟩

/-- A csrrw leaves every CSR as it was but the one it changes. -/
theorem PrivState.exec_csrs {t : PrivState} {rd rs1 : Reg} {c c' : CsrName}
    (h : PrivInstr.changes t (.csrrw rd c rs1) ≠ some c') :
    (t.exec (.csrrw rd c rs1)).csrs c' = t.csrs c' := by
  by_cases hc : c' = c
  · subst hc
    have hv : t.regs rs1 = t.csrs c' := by
      by_contra hne
      exact h (if_neg hne)
    simp [exec, hv]
  · simp [exec, hc]

end Rv32i
