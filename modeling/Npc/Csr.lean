import Npc.Refinement

/-! The CSR file, `CSR.v`, wired to the core as in `top.v`. The address read is that of the
instruction in ID/EX; a write arrives through the `ex_csr_*` registers, one cycle after its
instruction leaves EX. -/

namespace Npc

/-- `csr[0]`, ..., `csr[3]`. -/
structure Csr where
  mstatus : Word
  mtvec : Word
  mepc : Word
  mcause : Word
  deriving DecidableEq, Repr

def csrReset : Csr := ⟨0x1800#32, 0#32, 0#32, 0#32⟩

/-- The clocked update. The arms that call `unknow_inst` leave the register alone. -/
def csrNext (rst : Bool) (w : ExCsr) (c : Csr) : Csr :=
  if rst then csrReset
  else if w.event then
    { c with mepc := w.pc, mcause := if c.mstatus = 0x1800#32 then 0xb#32 else c.mcause }
  else if w.wen then
    if w.waddr = 0x300#12 then { c with mstatus := w.wdata }
    else if w.waddr = 0x305#12 then { c with mtvec := w.wdata }
    else if w.waddr = 0x341#12 then { c with mepc := w.wdata }
    else if w.waddr = 0x342#12 then { c with mcause := w.wdata }
    else c
  else c

def csrRdata (c : Csr) (raddr : CsrAddr) : Word :=
  if raddr = 0x300#12 then c.mstatus
  else if raddr = 0x305#12 then c.mtvec
  else if raddr = 0x341#12 then c.mepc
  else if raddr = 0x342#12 then c.mcause
  else 0#32

structure Top where
  core : Core
  csr : Csr

namespace Top

def coreIn (cacheHit : Bool) (t : Top) : CoreIn := ⟨cacheHit, csrRdata t.csr t.core.idEx.csrAddr⟩

def step (imem : Pmem) (rst : Bool) (cacheHit : Bool) (t : Top) : Top where
  core := t.core.step imem rst (t.coreIn cacheHit)
  csr := csrNext rst t.core.exCsr t.csr

def reset (dmem : Pmem) : Top := ⟨Core.reset dmem, csrReset⟩

def runFrom (imem dmem : Pmem) (hits : Nat → Bool) (n : Nat) : Top :=
  Clocked.run (step imem false) (reset dmem) hits n

def consumed (cacheHit : Bool) (t : Top) : Option Word := t.core.consumed (t.coreIn cacheHit)

def retired (cacheHit : Bool) (t : Top) : Option Word := t.core.retired (t.coreIn cacheHit)

def csrOperands (imem dmem : Pmem) (hits : Nat → Bool) (n : Nat) : List Word :=
  Clocked.emitted (step imem false) (reset dmem) hits consumed n

def seqRun (imem dmem : Pmem) (hits : Nat → Bool) (n k : Nat) : Arch :=
  Clocked.after (seqStep imem) (archReset dmem) (csrOperands imem dmem hits n) k

end Top

end Npc
