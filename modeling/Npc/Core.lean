import Npc.Clocked
import Npc.Lsu

/-! The core of `top.v`: IFU, IDU, EXU, LSU, WBU and Regfile wired together, with the
instruction memory as a constant, the data memory as a plain map, and the cache outcome
and `csr_ex_rdata` of each cycle as inputs. -/

namespace Npc

/-- The registers of IFU: the pc, IF/ID and the delayed redirect. -/
structure Ifu where
  pc : Word
  ifIdInstr : Word
  ifIdPc : Word
  ifIdInstrValid : Bool
  exIfPcValidR : Bool
  deriving DecidableEq, Repr

def imemArvalid (rst idIfInstrReady exGlbFlush : Bool) (f : Ifu) : Bool :=
  !rst && (idIfInstrReady || f.exIfPcValidR) && !exGlbFlush

def imemRdata (imem : Pmem) (araddr : Word) : Word := paddrRead imem araddr

/-- The clocked update of IFU. A redirect and a flush are the same event of EXU. -/
def ifuNext (rst idIfInstrReady exGlbFlush : Bool) (exIfPc rdata : Word) (f : Ifu) : Ifu :=
  let pc := if rst then 0x80000000#32
    else if exGlbFlush then exIfPc
    else if idIfInstrReady then f.pc + 4#32
    else f.pc
  if rst then ⟨pc, 0#32, 0#32, false, exGlbFlush⟩
  else if exGlbFlush then ⟨pc, f.ifIdInstr, f.ifIdPc, false, exGlbFlush⟩
  else if !idIfInstrReady then ⟨pc, f.ifIdInstr, f.ifIdPc, f.ifIdInstrValid, exGlbFlush⟩
  else if imemArvalid rst idIfInstrReady exGlbFlush f then ⟨pc, rdata, f.pc, true, exGlbFlush⟩
  else ⟨pc, f.ifIdInstr, f.ifIdPc, true, exGlbFlush⟩

structure Wbu where
  instCpmmit : Bool
  commitPc : Word
  deriving DecidableEq, Repr

def wbuNext (rst : Bool) (l : LsuReg) : Wbu :=
  if rst then ⟨false, 0#32⟩ else ⟨l.wbuValid, l.wbPc⟩

abbrev Regs := RegAddr → Word

def rfWrite (regs : Regs) (we : Bool) (rdAddr : RegAddr) (rdData : Word) : Regs :=
  fun a => if (we && rdAddr ≠ 0#5 && a = rdAddr) = true then rdData else regs a

def rfNext (rst : Bool) (regs : Regs) (we : Bool) (rdAddr : RegAddr) (rdData : Word) : Regs :=
  if rst then fun _ => 0#32 else rfWrite regs we rdAddr rdData

/-- A read port, with the write of the same cycle bypassed. -/
def rfRead (regs : Regs) (we : Bool) (rdAddr : RegAddr) (rdData : Word) (rsAddr : RegAddr) : Word :=
  if rsAddr = 0#5 then 0#32
  else if we && rdAddr ≠ 0#5 && rdAddr = rsAddr then rdData
  else regs rsAddr

structure Core where
  ifu : Ifu
  idEx : IdEx
  exLsu : ExLsu
  exCsr : ExCsr
  lsu : LsuReg
  wbu : Wbu
  regs : Regs
  dmem : Pmem

structure CoreIn where
  cacheHit : Bool
  csrExRdata : Word

namespace Core

def hit (i : CoreIn) (s : Core) : Bool := cacheLsuHit i.cacheHit (cacheReq s.lsu s.exLsu)

def exIdReady (i : CoreIn) (s : Core) : Bool := lsuExReady s.lsu s.exLsu (s.hit i)

def wbRfWen (s : Core) : Bool := s.lsu.wbuValid && s.lsu.wbuWen

def rfExData (s : Core) (rsAddr : RegAddr) : Word :=
  rfRead s.regs s.wbRfWen s.lsu.wbuRd s.lsu.wbuData rsAddr

def fwdRs1Data (s : Core) : Word :=
  fwdData s.exLsu s.wbRfWen s.lsu.wbuRd s.lsu.wbuData s.idEx.rs1Addr (s.rfExData s.idEx.rs1Addr)

def fwdRs2Data (s : Core) : Word :=
  fwdData s.exLsu s.wbRfWen s.lsu.wbuRd s.lsu.wbuData s.idEx.rs2Addr (s.rfExData s.idEx.rs2Addr)

def exLeaves (i : CoreIn) (s : Core) : Bool := s.exIdReady i && s.idEx.valid

/-- `ex_glb_flush`, which is `ex_if_pc_valid`. -/
def exGlbFlush (i : CoreIn) (s : Core) : Bool :=
  s.idEx.valid && s.exIdReady i && jTaken s.idEx.jEn s.idEx.jCond s.fwdRs1Data s.fwdRs2Data

def exIfPc (i : CoreIn) (s : Core) : Word :=
  if s.exGlbFlush i then
    aluOut s.idEx.toDecoded s.idEx.pc s.fwdRs1Data s.fwdRs2Data i.csrExRdata
  else 0#32

def decoded (rst : Bool) (i : CoreIn) (s : Core) : Decode :=
  decode (rsAddrNxt rst (s.exGlbFlush i) (rs1Field s.ifu.ifIdInstr)) s.ifu.ifIdInstrValid
    s.ifu.ifIdInstr

def stall (rst : Bool) (i : CoreIn) (s : Core) : Bool :=
  idGlbStall rst (s.exIdReady i) s.ifu.ifIdInstrValid s.ifu.ifIdInstr s.idEx

def ifReady (rst : Bool) (i : CoreIn) (s : Core) : Bool :=
  idIfInstrReady (s.stall rst i) (s.exIdReady i)
    (uncondJumpInId s.ifu.ifIdInstrValid (s.decoded rst i).nxt)

def step (imem : Pmem) (rst : Bool) (i : CoreIn) (s : Core) : Core where
  ifu := ifuNext rst (s.ifReady rst i) (s.exGlbFlush i) (s.exIfPc i) (imemRdata imem s.ifu.pc) s.ifu
  idEx := idExNext rst (s.exGlbFlush i) (s.stall rst i) s.ifu.ifIdInstrValid (s.exIdReady i)
    s.ifu.ifIdPc s.ifu.ifIdInstr (s.decoded rst i).nxt s.idEx
  exLsu := exLsuNext rst (s.exIdReady i) s.idEx.valid
    (payload s.idEx.toDecoded s.idEx.pc s.fwdRs1Data s.fwdRs2Data i.csrExRdata) s.exLsu
  exCsr := exCsrNext rst (s.exIdReady i) s.idEx.valid
    (csrPayload s.idEx.toDecoded s.idEx.pc s.fwdRs1Data)
  lsu := lsuNext rst s.lsu s.exLsu (s.hit i) (cacheLsuRdata s.dmem (cacheReq s.lsu s.exLsu))
  wbu := wbuNext rst s.lsu
  regs := rfNext rst s.regs s.wbRfWen s.lsu.wbuRd s.lsu.wbuData
  dmem := cacheNext rst s.dmem (cacheReq s.lsu s.exLsu) (s.hit i)

/-- The state reset leaves behind; the data memory is not reset. -/
def reset (dmem : Pmem) : Core where
  ifu := ⟨0x80000000#32, 0#32, 0#32, false, false⟩
  idEx := .bubble 0#32
  exLsu := exLsuReset
  exCsr := exCsrIdle
  lsu := lsuReset
  wbu := ⟨false, 0#32⟩
  regs := fun _ => 0#32
  dmem := dmem

def runFrom (imem dmem : Pmem) (inp : Nat → CoreIn) (n : Nat) : Core :=
  Clocked.run (step imem false) (reset dmem) inp n

end Core

end Npc
