import Npc.Lsu

/-! The request outstanding in the LSU. While it waits, the request is known from the
`pending_*` registers and EX/LSU may hold it still or be empty. One cycle of the LSU either
serves the request, with an effect that does not depend on how long it waited, or keeps
it. -/

namespace Npc

/-- A slot as EXU fills it. A memory request writes a register exactly when it is a load. -/
structure ExLsu.IsRequest (x : ExLsu) : Prop where
  valid : x.valid = true
  ctrl : x.ctrl ≠ 3#2
  size : x.size ≠ 3#2
  wen : x.ctrl ≠ 0#2 → x.wbWen = decide (x.ctrl = 1#2)

def ExLsu.IsEmpty (x : ExLsu) : Prop := x.valid = false ∧ x.ctrl = 0#2

/-- The value written back when the request `x` is served from `pmem`. -/
def retireData (x : ExLsu) (pmem : Pmem) : Word :=
  if x.ctrl = 1#2 then
    extendLane x.size x.isUload (readLane x.size x.addr (paddrRead pmem x.addr)) x.wbData
  else x.wbData

def retireMem (x : ExLsu) (pmem : Pmem) : Pmem :=
  if x.ctrl = 2#2 then paddrWrite pmem x.addr (wdata x) (wmask x) else pmem

structure LsuReg.Saved (l : LsuReg) (q : ExLsu) : Prop where
  addr : l.pendingAddr = q.addr
  wdata : l.pendingWdata = wdata q
  wmask : l.pendingWmask = wmask q
  size : l.pendingSize = q.size
  rd : l.pendingRd = q.wbRd
  uload : l.pendingUload = q.isUload
  cacheWen : l.pendingCacheWen = cacheWen q

/-- The request the LSU has accepted from EX/LSU and not served, if there is one. -/
def Outstanding (l : LsuReg) (x : ExLsu) : Option ExLsu → Prop
  | none => l.waiting = false ∧ x.IsEmpty
  | some q => q.IsRequest ∧ (l.waiting = false ∧ x = q ∨
      l.waiting = true ∧ q.ctrl ≠ 0#2 ∧ l.Saved q ∧ (x = q ∨ x.IsEmpty))

/-- A cycle with cache outcome `cacheHit` serves what is outstanding. -/
def served (cacheHit : Bool) : Option ExLsu → Bool
  | none => true
  | some q => q.ctrl = 0#2 || cacheHit

section Cycle

variable {l : LsuReg} {x q : ExLsu} {cacheHit : Bool}

theorem Outstanding.ready {o : Option ExLsu} (h : Outstanding l x o) :
    lsuExReady l x (cacheLsuHit cacheHit (cacheReq l x)) = served cacheHit o := by
  cases o with
  | none => simp [lsuExReady, served, h.1, h.2.2]
  | some q =>
    obtain ⟨hq, ⟨hw, rfl⟩ | ⟨hw, hc, -, -⟩⟩ := h
    · by_cases hc : x.ctrl = 0#2 <;>
        simp [lsuExReady, cacheLsuHit, cacheReq, served, hw, hq.valid, hc]
    · simp [lsuExReady, cacheLsuHit, cacheReq, served, hw, hc]

theorem Outstanding.cache_valid_iff {o : Option ExLsu} (h : Outstanding l x o) :
    (cacheReq l x).valid = true ↔ ∃ q, o = some q ∧ q.ctrl ≠ 0#2 := by
  cases o with
  | none => simp [cacheReq, h.1, h.2.1]
  | some q =>
    obtain ⟨hq, ⟨hw, rfl⟩ | ⟨hw, hc, -⟩⟩ := h
    · simp [cacheReq, hw, hq.valid]
    · simp [cacheReq, hw, hc]

theorem Outstanding.cache_valid {o : Option ExLsu} (h : Outstanding l x o)
    (hr : lsuExReady l x (cacheLsuHit cacheHit (cacheReq l x)) = false) :
    (cacheReq l x).valid = true := by
  rw [h.ready] at hr
  cases o with
  | none => simp [served] at hr
  | some q =>
    simp only [served, Bool.or_eq_false_iff, decide_eq_false_iff_not] at hr
    exact h.cache_valid_iff.mpr ⟨q, rfl, hr.1⟩

theorem cacheWen_eq (hq : q.IsRequest) : cacheWen q = decide (q.ctrl = 2#2) := by
  simp [cacheWen, hq.valid]

theorem ExLsu.IsRequest.ctrl_cases (hq : q.IsRequest) :
    q.ctrl = 0#2 ∨ q.ctrl = 1#2 ∨ q.ctrl = 2#2 := by
  have h := hq.ctrl
  generalize q.ctrl = c at h ⊢
  revert c
  decide

theorem extendLane_default {size : BitVec 2} (hs : size ≠ 3#2) (u : Bool) (rdata d d' : Word) :
    extendLane size u rdata d = extendLane size u rdata d' := by
  have h : size = 0#2 ∨ size = 1#2 ∨ size = 2#2 := by
    revert size
    decide
  rcases h with rfl | rfl | rfl <;> simp [extendLane]

section Idle

variable (hw : l.waiting = false) (hq : q.IsRequest) (pmem : Pmem)
include hw hq

theorem wbData_idle (hc : q.ctrl ≠ 2#2) (hs : q.ctrl = 0#2 ∨ cacheHit = true) :
    wbData l q (cacheLsuHit cacheHit (cacheReq l q)) (cacheLsuRdata pmem (cacheReq l q)) =
      retireData q pmem := by
  have hwen : (cacheReq l q).wen = false := by simp [cacheReq, hw, cacheWen_eq hq, hc]
  by_cases h0 : q.ctrl = 0#2
  · simp [wbData, retireData, cacheLsuHit, cacheReq, hw, h0]
  · have h1 : q.ctrl = 1#2 := by
      rcases hq.ctrl_cases with h | h | h
      · exact absurd h h0
      · exact h
      · exact absurd h hc
    have hh : cacheHit = true := hs.resolve_left h0
    simp only [wbData, hwen, hw, retireData, h1]
    simp [cacheLsuHit, cacheReq, cacheLsuRdata, hw, hh, hq.valid, h1]

theorem cacheNext_idle (hs : q.ctrl = 0#2 ∨ cacheHit = true) :
    cacheNext false pmem (cacheReq l q) (cacheLsuHit cacheHit (cacheReq l q)) =
      retireMem q pmem := by
  by_cases hc : q.ctrl = 2#2
  · have hh : cacheHit = true := hs.resolve_left (by simp [hc])
    simp [cacheNext, cacheReq, cacheLsuHit, hw, hh, hq.valid, hc, cacheWen, retireMem]
  · simp [cacheNext, cacheReq, hw, cacheWen_eq hq, hc, retireMem]

end Idle

section Waiting

variable (hw : l.waiting = true) (hl : l.Saved q) (hq : q.IsRequest) (pmem : Pmem)
include hw hl hq

theorem wbData_waiting (hc : q.ctrl ≠ 0#2) (h2 : q.ctrl ≠ 2#2) :
    wbData l x (cacheLsuHit true (cacheReq l x)) (cacheLsuRdata pmem (cacheReq l x)) =
      retireData q pmem := by
  have h1 : q.ctrl = 1#2 := by
    rcases hq.ctrl_cases with h | h | h
    · exact absurd h hc
    · exact h
    · exact absurd h h2
  simp only [wbData, cacheLsuHit, cacheReq, hw, if_true, hl.cacheWen, cacheWen_eq hq, h1,
    cacheLsuRdata, hl.size, hl.addr, hl.uload, retireData]
  simpa using extendLane_default hq.size _ _ _ _

theorem cacheNext_waiting :
    cacheNext false pmem (cacheReq l x) (cacheLsuHit true (cacheReq l x)) = retireMem q pmem := by
  simp [cacheNext, cacheLsuHit, cacheReq, hw, hl.cacheWen, cacheWen_eq hq, hl.addr, hl.wdata,
    hl.wmask, retireMem]

end Waiting

/-- What one cycle leaves in the LSU registers and the memory after serving `o`. -/
structure ServedCycle (l' : LsuReg) (x : ExLsu) (pmem pmem' : Pmem) (o : Option ExLsu) : Prop where
  idle : l'.waiting = false
  valid : l'.wbuValid = o.isSome
  rd : ∀ q ∈ o, l'.wbuRd = q.wbRd
  wen : ∀ q ∈ o, l'.wbuWen = q.wbWen
  data : ∀ q ∈ o, q.ctrl ≠ 2#2 → l'.wbuData = retireData q pmem
  pc : o.isSome → l'.wbPc = x.pc
  mem : pmem' = o.elim pmem fun q => retireMem q pmem

theorem Outstanding.serve {o : Option ExLsu} (h : Outstanding l x o) (hs : served cacheHit o = true)
    (pmem : Pmem) :
    ServedCycle (lsuNext false l x (cacheLsuHit cacheHit (cacheReq l x))
        (cacheLsuRdata pmem (cacheReq l x))) x pmem
      (cacheNext false pmem (cacheReq l x) (cacheLsuHit cacheHit (cacheReq l x))) o := by
  cases o with
  | none =>
    obtain ⟨hw, hv, hc⟩ := h
    constructor <;> simp [lsuNext, cacheNext, cacheLsuHit, cacheReq, hw, hv]
  | some q =>
    obtain ⟨hq, ⟨hw, rfl⟩ | ⟨hw, hc, hl, -⟩⟩ := h
    · have hs' : x.ctrl = 0#2 ∨ cacheHit = true := by simpa [served] using hs
      have hhit : x.ctrl ≠ 0#2 → cacheLsuHit cacheHit (cacheReq l x) = true := by
        intro hc
        simp [cacheLsuHit, cacheReq, hs'.resolve_left hc, hq.valid, hc]
      have hnext : x.ctrl ≠ 2#2 → x.ctrl = 0#2 ∨ cacheHit = true → wbData l x _ _ = retireData x pmem :=
        wbData_idle hw hq pmem
      constructor
      case mem => exact cacheNext_idle hw hq pmem hs'
      case data =>
        intro q' hq' hc2
        obtain rfl : x = q' := by simpa using hq'
        rw [← hnext hc2 hs']
        by_cases hc : x.ctrl = 0#2
        · simp [lsuNext, hw, hq.valid, hc]
        · simp [lsuNext, hw, hq.valid, hc, hhit hc]
      all_goals
        by_cases hc : x.ctrl = 0#2
        · simp [lsuNext, hw, hq.valid, hc]
        · simp [lsuNext, hw, hq.valid, hc, hhit hc]
    · obtain rfl : cacheHit = true := by simpa [served, hc] using hs
      have hhit : cacheLsuHit true (cacheReq l x) = true := by simp [cacheLsuHit, cacheReq, hw]
      constructor
      case mem => exact cacheNext_waiting hw hl hq pmem
      case data =>
        intro q' hq' hc2
        obtain rfl : q = q' := by simpa using hq'
        rw [← wbData_waiting hw hl hq pmem hc hc2 (x := x)]
        simp [lsuNext, hw, hhit]
      case wen =>
        intro q' hq'
        obtain rfl : q = q' := by simpa using hq'
        simp only [lsuNext, hw, hhit, if_true, hl.cacheWen, cacheWen_eq hq, hq.wen hc]
        rcases hq.ctrl_cases with h | h | h
        · exact absurd h hc
        all_goals simp [h]
      all_goals simp [lsuNext, hw, hhit, hl.rd]

/-- A cycle that does not serve the request leaves it saved, and nothing else changes. -/
structure MissedCycle (l' : LsuReg) (pmem pmem' : Pmem) (q : ExLsu) : Prop where
  waiting : l'.waiting = true
  ctrl : q.ctrl ≠ 0#2
  saved : l'.Saved q
  valid : l'.wbuValid = false
  mem : pmem' = pmem

theorem Outstanding.miss {o : Option ExLsu} (h : Outstanding l x o)
    (hs : served cacheHit o = false) (pmem : Pmem) :
    ∃ q, o = some q ∧
      MissedCycle (lsuNext false l x (cacheLsuHit cacheHit (cacheReq l x))
        (cacheLsuRdata pmem (cacheReq l x))) pmem
        (cacheNext false pmem (cacheReq l x) (cacheLsuHit cacheHit (cacheReq l x))) q := by
  cases o with
  | none => simp [served] at hs
  | some q =>
    refine ⟨q, rfl, ?_⟩
    have hs' : q.ctrl ≠ 0#2 ∧ cacheHit = false := by simpa [served] using hs
    obtain ⟨hc, rfl⟩ := hs'
    have hhit : cacheLsuHit false (cacheReq l x) = false := by simp [cacheLsuHit]
    obtain ⟨hq, ⟨hw, rfl⟩ | ⟨hw, -, hl, -⟩⟩ := h
    · constructor
      case saved => constructor <;> simp [lsuNext, hw, hq.valid, hc, hhit]
      all_goals simp [lsuNext, cacheNext, hw, hq.valid, hc, hhit]
    · constructor
      case saved =>
        obtain ⟨h1, h2, h3, h4, h5, h6, h7⟩ := hl
        constructor <;> simpa only [lsuNext, hw, hhit, Bool.false_eq_true, if_true, if_false]
      all_goals simp [lsuNext, cacheNext, hw, hc, hhit]

theorem MissedCycle.outstanding {l' : LsuReg} {pmem pmem' : Pmem}
    (h : MissedCycle l' pmem pmem' q) (hq : q.IsRequest) {x' : ExLsu} (hx : x' = q ∨ x'.IsEmpty) :
    Outstanding l' x' (some q) :=
  ⟨hq, Or.inr ⟨h.waiting, h.ctrl, h.saved, hx⟩⟩

end Cycle

end Npc
