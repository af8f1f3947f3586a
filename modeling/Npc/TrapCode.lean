import Npc.PrivRefinement
import Npc.Trap

/-! `trap.S` on the core: the machine code of `__am_asm_trap` at mtvec does what the trap entry and
exit do to a hart, and the core runs it, from the ecall to behind the mret. -/

namespace Npc

open Rv32i ByteMemory

namespace Am

def TrapCsr.name : TrapCsr → CsrName
  | .mstatus => .mstatus
  | .mepc => .mepc
  | .mcause => .mcause

/-- csrr and csrw are csrrs and csrrw with x0. -/
def TrapInst.instr : TrapInst → PrivInstr
  | .base i => .base i
  | .csrr rd csr => .csrrs rd csr.name 0#5
  | .csrw csr rs1 => .csrrw 0#5 csr.name rs1
  | .mret => .mret

def hart (t : PrivState) : Hart where
  gpr := t.regs
  pc := t.pc
  pmem := t.mem
  mstatus := t.csrs .mstatus
  mtvec := t.csrs .mtvec
  mepc := t.csrs .mepc
  mcause := t.csrs .mcause

section Exec

variable (t : TrapState)

end Exec

section InLine

/-- The accesses are to words of the frame at the stack pointer, which stays aligned. -/
def onFrame : Instr → Bool
  | .store s rs1 _ imm => s = .sw && rs1 = sp && imm.toNat % 4 = 0
  | .load l rd rs1 imm => l = .lw && rd ≠ sp && rs1 = sp && imm.toNat % 4 = 0
  | .opImm o rd rs1 imm => o = .addi && (rd ≠ sp || rs1 = sp && imm.toNat % 4 = 0)
  | _ => false

namespace TrapInst

def straight : TrapInst → Bool
  | .base i => onFrame i
  | .csrr rd _ => rd ≠ sp
  | .csrw _ _ => true
  | .mret => false

end TrapInst

/-- What is known of the CSRs: the one that the last instruction wrote, and whether mstatus is as it
was last set. -/
structure CsrUse where
  written : Option CsrName
  settled : Bool

namespace CsrUse

def next (u : CsrUse) : TrapInst → CsrUse
  | .csrw csr _ => ⟨some csr.name, u.settled || csr = .mstatus⟩
  | _ => ⟨none, u.settled⟩

structure Holds (u : CsrUse) (t : TrapState) : Prop where
  changed : ∀ c, t.changed = some c → u.written = some c
  settled : u.settled = true → t.csrs .mstatus = t.kept

end CsrUse

variable {code : Pmem} {t : TrapState} {i : TrapInst} {u : CsrUse}

theorem CsrUse.Holds.exec (hu : u.Holds t) (h : i.straight = true) : (u.next i).Holds (t.exec i.instr) := by
  cases i with
  | base i => exact ⟨nofun, hu.settled⟩
  | csrr rd c =>
    refine ⟨nofun, fun hs => ?_⟩
    simpa [TrapState.exec, PrivState.exec, TrapInst.instr] using hu.settled hs
  | csrw c rs1 =>
    constructor
    case changed =>
      intro c' hc
      obtain ⟨-, hh⟩ := Option.ite_none_left_eq_some.mp hc
      exact hh
    case settled =>
      intro hs
      have hkeep : c ≠ .mstatus → t.csrs .mstatus = t.kept := fun hc => hu.settled (by simpa [next, hc] using hs)
      cases c with
      | mstatus => simp [TrapState.exec, PrivState.exec, TrapInst.instr, TrapCsr.name]
      | mepc => simpa [TrapState.exec, PrivState.exec, TrapInst.instr, TrapCsr.name] using hkeep (by decide)
      | mcause => simpa [TrapState.exec, PrivState.exec, TrapInst.instr, TrapCsr.name] using hkeep (by decide)
  | mret => cases h

end InLine

section Text

abbrev Reaches (code : Pmem) := Relation.ReflTransGen (TrapState.Step code)

variable {code : Pmem} {base : Word} {is : List PrivInstr}

end Text

section Trap

section Places

variable {offset : BitVec 20} {i : TrapInst} {j : Nat}

end Places

section Runs

variable {code : Pmem} {base : Word} {offset : BitVec 20}

end Runs

section Resume

variable {code : Pmem} {entry p : Word} {r : RegFile} {m : Pmem}

end Resume

end Trap

end Am

end Npc
