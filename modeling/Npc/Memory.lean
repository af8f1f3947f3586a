import Npc.Macro

/-! The byte array of `memory.cpp` and the in-memory branch of its two entry points:
both work on the aligned word around the address. -/

namespace Npc

abbrev Pmem := Word → BitVec 8

def memBase : Word := 0x80000000#32

def inMem (addr : Word) : Bool := addr - memBase < 0x8000000#32

def paddr (addr : Word) : Word := addr &&& ~~~3#32

def paddrRead (pmem : Pmem) (raddr : Word) : Word :=
  pmem (paddr raddr + 3#32) ++ pmem (paddr raddr + 2#32) ++ pmem (paddr raddr + 1#32) ++
    pmem (paddr raddr)

def setByte (pmem : Pmem) (a : Word) (b : BitVec 8) : Pmem :=
  fun x => if x = a then b else pmem x

/-- One `if (wmask & (1 << i)) paddr[i] = (wdata >> (8 * i)) & 0xff;` -/
def paddrWriteLane (waddr wdata : Word) (wmask : BitVec 4) (i : Nat) (pmem : Pmem) : Pmem :=
  if wmask.getLsbD i then
    setByte pmem (paddr waddr + BitVec.ofNat 32 i) (wdata.extractLsb' (8 * i) 8)
  else pmem

def paddrWrite (pmem : Pmem) (waddr wdata : Word) (wmask : BitVec 4) : Pmem :=
  paddrWriteLane waddr wdata wmask 3 (paddrWriteLane waddr wdata wmask 2
    (paddrWriteLane waddr wdata wmask 1 (paddrWriteLane waddr wdata wmask 0 pmem)))

/-- A memory that holds the words of a program from the reset pc on. -/
def image (ws : List Word) : Pmem := fun a =>
  let off := (a - 0x80000000#32).toNat
  (ws.getD (off / 4) 0#32).extractLsb' (8 * (off % 4)) 8

end Npc
