import Npc.Exu
import Npc.Memory

/-! The load/store unit, `LSU.v`, and the data path of `L1_cache.v`. A request that
misses is saved in the `pending_*` registers and repeated until it hits. -/

namespace Npc

structure CacheReq where
  valid : Bool
  wen : Bool
  addr : Word
  wdata : Word
  wmask : BitVec 4
  size : BitVec 2
  deriving DecidableEq, Repr

/-- The registers of the LSU; `waiting` is `lsu_state == WAITING`. -/
structure LsuReg where
  waiting : Bool
  pendingAddr : Word
  pendingWdata : Word
  pendingWmask : BitVec 4
  pendingSize : BitVec 2
  pendingRd : RegAddr
  pendingUload : Bool
  pendingCacheWen : Bool
  wbuValid : Bool
  wbuData : Word
  wbuRd : RegAddr
  wbuWen : Bool
  wbPc : Word
  ebreakLsuWbu : Bool
  deriving DecidableEq, Repr

def byteShift (addr : Word) : Nat := (addr.extractLsb' 0 2).toNat * 8

def wmask (x : ExLsu) : BitVec 4 :=
  if x.valid && x.ctrl = 2#2 then
    if x.size = 0#2 then 1#4 <<< x.addr.extractLsb' 0 2
    else if x.size = 1#2 then 3#4 <<< x.addr.extractLsb' 0 2
    else if x.size = 2#2 then 15#4
    else 0#4
  else 0#4

def wdata (x : ExLsu) : Word :=
  if x.valid && x.ctrl = 2#2 then
    if x.size = 0#2 then x.data <<< byteShift x.addr
    else if x.size = 1#2 then x.data <<< byteShift x.addr
    else x.data
  else x.data

def cacheWen (x : ExLsu) : Bool := if x.valid then x.ctrl = 2#2 else false

def cacheReq (l : LsuReg) (x : ExLsu) : CacheReq where
  valid := l.waiting || (x.valid && x.ctrl ≠ 0#2)
  wen := if l.waiting then l.pendingCacheWen else cacheWen x
  addr := if l.waiting then l.pendingAddr else x.addr
  wdata := if l.waiting then l.pendingWdata else wdata x
  wmask := if l.waiting then l.pendingWmask else wmask x
  size := if l.waiting then l.pendingSize else x.size

def lsuExReady (l : LsuReg) (x : ExLsu) (hit : Bool) : Bool :=
  (!l.waiting && x.ctrl = 0#2) || (!l.waiting && x.valid && x.ctrl ≠ 0#2 && hit) ||
    (l.waiting && hit)

/-- The sign or zero extension of the addressed lane. The codes not listed end the
simulation and leave the default. -/
def extendLane (size : BitVec 2) (isUload : Bool) (rdata dflt : Word) : Word :=
  if size = 0#2 then
    if isUload then 0#24 ++ rdata.extractLsb' 0 8
    else rep 24 (rdata.getLsbD 7) ++ rdata.extractLsb' 0 8
  else if size = 1#2 then
    if isUload then 0#16 ++ rdata.extractLsb' 0 16
    else rep 16 (rdata.getLsbD 15) ++ rdata.extractLsb' 0 16
  else if size = 2#2 then rdata
  else dflt

def wbData (l : LsuReg) (x : ExLsu) (hit : Bool) (rdata : Word) : Word :=
  if hit && !(cacheReq l x).wen then
    if l.waiting then extendLane l.pendingSize l.pendingUload rdata x.wbData
    else extendLane x.size x.isUload rdata x.wbData
  else x.wbData

def lsuReset : LsuReg where
  waiting := false
  pendingAddr := 0#32
  pendingWdata := 0#32
  pendingWmask := 0#4
  pendingSize := 0#2
  pendingRd := 0#5
  pendingUload := false
  pendingCacheWen := false
  wbuValid := false
  wbuData := 0#32
  wbuRd := 0#5
  wbuWen := false
  wbPc := 0#32
  ebreakLsuWbu := false

def lsuNext (rst : Bool) (l : LsuReg) (x : ExLsu) (hit : Bool) (rdata : Word) : LsuReg :=
  if rst then lsuReset
  else
    -- the assignments made before the `case`
    let d := { l with
      wbuValid := false, wbuData := 0#32, wbuRd := 0#5, wbuWen := false, ebreakLsuWbu := x.ebreak }
    if l.waiting then
      if hit then
        { d with
          wbuValid := true, wbuData := wbData l x hit rdata, wbuRd := l.pendingRd,
          wbuWen := !l.pendingCacheWen, waiting := false, pendingCacheWen := false,
          pendingAddr := 0#32, pendingWdata := 0#32, pendingWmask := 0#4, pendingSize := 0#2,
          pendingRd := 0#5, pendingUload := false, wbPc := x.pc }
      else { d with waiting := true }
    else if x.valid && x.ctrl ≠ 0#2 then
      if hit then
        { d with
          wbuValid := true, wbuData := wbData l x hit rdata, wbuRd := x.wbRd, wbuWen := x.wbWen,
          waiting := false, wbPc := x.pc }
      else
        { d with
          pendingCacheWen := cacheWen x, pendingAddr := x.addr, pendingWdata := wdata x,
          pendingWmask := wmask x, pendingSize := x.size, pendingRd := x.wbRd,
          pendingUload := x.isUload, waiting := true }
    else if x.valid then
      { d with
        wbuValid := true, wbuData := wbData l x hit rdata, wbuRd := x.wbRd, wbuWen := x.wbWen,
        waiting := false, wbPc := x.pc }
    else { d with waiting := false }

/-- `hit`, the outcome `cache_hit` of the cycle gated by the request. -/
def cacheLsuHit (cacheHit : Bool) (r : CacheReq) : Bool := cacheHit && r.valid

/-- The word `pmem_read` returns, its addressed lane shifted down. -/
def readLane (size : BitVec 2) (addr word : Word) : Word :=
  if size = 0#2 then word >>> byteShift addr
  else if size = 1#2 then word >>> ((addr.extractLsb' 1 1).toNat * 16)
  else word

/-- `rdata` on a read hit. Without one the source keeps the last value, which nothing reads. -/
def cacheLsuRdata (pmem : Pmem) (r : CacheReq) : Word :=
  readLane r.size r.addr (paddrRead pmem r.addr)

def cacheNext (rst : Bool) (pmem : Pmem) (r : CacheReq) (hit : Bool) : Pmem :=
  if rst then pmem
  else if hit && r.wen then paddrWrite pmem r.addr r.wdata r.wmask
  else pmem

end Npc
