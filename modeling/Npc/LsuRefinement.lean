import Npc.Clocked
import Npc.Lanes

/-! LSU and L1_cache against an atomic byte memory. The bench drives them as EXU does: a
slot stays in EX/LSU until `lsu_ex_ready`, or is replaced by an empty one after its first
miss. -/

namespace Npc

open ByteMemory

/-- One slot of EX/LSU: a request, aligned if it accesses memory, or nothing. `gap` is what
stands in its place when it is replaced. -/
structure LsuSlot where
  x : ExLsu
  form : x.IsRequest ∧ (x.ctrl ≠ 0#2 → x.Aligned) ∨ x.IsEmpty
  replaced : Bool
  gap : ExLsu
  gap_empty : gap.IsEmpty

def LsuSlot.request (s : LsuSlot) : Option ExLsu := if s.x.valid then some s.x else none

structure Pulse where
  data : Word
  rd : RegAddr
  wen : Bool
  deriving DecidableEq, Repr

structure LsuBench where
  lsu : LsuReg
  dmem : Pmem
  next : Nat
  gone : Bool

namespace LsuBench

def start (dmem : Pmem) : LsuBench := ⟨lsuReset, dmem, 0, false⟩

def live (slots : Nat → LsuSlot) (b : LsuBench) : ExLsu :=
  if b.gone then (slots b.next).gap else (slots b.next).x

def hit (slots : Nat → LsuSlot) (cacheHit : Bool) (b : LsuBench) : Bool :=
  cacheLsuHit cacheHit (cacheReq b.lsu (b.live slots))

def ready (slots : Nat → LsuSlot) (cacheHit : Bool) (b : LsuBench) : Bool :=
  lsuExReady b.lsu (b.live slots) (b.hit slots cacheHit)

def step (slots : Nat → LsuSlot) (cacheHit : Bool) (b : LsuBench) : LsuBench where
  lsu := lsuNext false b.lsu (b.live slots) (b.hit slots cacheHit)
    (cacheLsuRdata b.dmem (cacheReq b.lsu (b.live slots)))
  dmem := cacheNext false b.dmem (cacheReq b.lsu (b.live slots)) (b.hit slots cacheHit)
  next := if b.ready slots cacheHit then b.next + 1 else b.next
  gone := !b.ready slots cacheHit && (b.gone || (slots b.next).replaced)

def runFrom (slots : Nat → LsuSlot) (dmem : Pmem) (hits : Nat → Bool) (n : Nat) : LsuBench :=
  Clocked.run (step slots) (start dmem) hits n

def pulse (b : LsuBench) : Option Pulse :=
  if b.lsu.wbuValid then some ⟨b.lsu.wbuData, b.lsu.wbuRd, b.lsu.wbuWen⟩ else none

/-- The pulses seen in the cycles `0, ..., n`. -/
def pulses (slots : Nat → LsuSlot) (dmem : Pmem) (hits : Nat → Bool) (n : Nat) : List Pulse :=
  Clocked.observed (step slots) (start dmem) hits pulse n

end LsuBench

def requests (slots : Nat → LsuSlot) (k : Nat) : List ExLsu :=
  (List.range k).filterMap fun i => (slots i).request

def atomicMem (x : ExLsu) (m : Mem 32) : Mem 32 :=
  if x.ctrl = 2#2 then store m x.addr (sizeBytes x.size) x.data else m

def atomicLoad (x : ExLsu) (m : Mem 32) : Word :=
  if x.isUload then (load m x.addr (sizeBytes x.size)).setWidth 32
  else (load m x.addr (sizeBytes x.size)).signExtend 32

/-- The pulse `p` is right for a request served on the memory `m`. -/
def Answers (m : Mem 32) (x : ExLsu) (p : Pulse) : Prop :=
  if x.ctrl = 0#2 then p = ⟨x.wbData, x.wbRd, x.wbWen⟩
  else if x.ctrl = 1#2 then p = ⟨atomicLoad x m, x.wbRd, true⟩
  else p.wen = false

/-- The requests `xs`, served one after the other from the memory `m`, are answered by the
pulses `ps` and leave `m'`. -/
inductive Serves (m : Mem 32) : List ExLsu → List Pulse → Mem 32 → Prop
  | nil : Serves m [] [] m
  | snoc {xs ps m' x p} : Serves m xs ps m' → Answers m' x p →
      Serves m (xs ++ [x]) (ps ++ [p]) (atomicMem x m')

theorem requests_succ (slots : Nat → LsuSlot) (k : Nat) :
    requests slots (k + 1) = requests slots k ++ (slots k).request.toList := by
  simp only [requests, List.range_succ, List.filterMap_append]
  cases h : (slots k).request <;> simp [h]

theorem LsuSlot.request_eq_some {s : LsuSlot} {q : ExLsu} (h : s.request = some q) :
    q = s.x ∧ q.IsRequest ∧ (q.ctrl ≠ 0#2 → q.Aligned) := by
  by_cases hv : s.x.valid = true
  · obtain rfl : s.x = q := by simpa [request, hv] using h
    rcases s.form with hf | hf
    · exact ⟨rfl, hf⟩
    · simp [hf.1] at hv
  · simp [request, hv] at h

theorem LsuSlot.outstanding (s : LsuSlot) {l : LsuReg} (hw : l.waiting = false) :
    Outstanding l s.x s.request := by
  rcases s.form with hf | hf
  · simp only [request, hf.1.valid, if_true]
    exact ⟨hf.1, Or.inl ⟨hw, rfl⟩⟩
  · simp only [request, hf.1, Bool.false_eq_true, if_false]
    exact ⟨hw, hf⟩

theorem retireMem_eq_atomicMem {x : ExLsu} (hx : x.IsRequest) (ha : x.ctrl ≠ 0#2 → x.Aligned)
    (m : Pmem) : retireMem x m = atomicMem x m := by
  by_cases hc : x.ctrl = 2#2
  · rw [retireMem_store hx (ha (by simp [hc])) hc, atomicMem, if_pos hc]
  · simp [retireMem, atomicMem, hc]

theorem ServedCycle.answers {l' : LsuReg} {x q : ExLsu} {m m' : Pmem}
    (h : ServedCycle l' x m m' (some q)) (hq : q.IsRequest) (ha : q.ctrl ≠ 0#2 → q.Aligned) :
    Answers m q ⟨l'.wbuData, l'.wbuRd, l'.wbuWen⟩ := by
  have hrd := h.rd q rfl
  have hwen := h.wen q rfl
  have hdata := h.data q rfl
  rcases hq.ctrl_cases with hc | hc | hc
  · simp [Answers, hc, hrd, hwen, hdata (by simp [hc]), retireData]
  · have hl := retireData_load hq.size (ha (by simp [hc])) hc m
    simp [Answers, hc, hrd, hwen, hq.wen (by simp [hc]), hdata (by simp [hc]), hl, atomicLoad]
  · simp [Answers, hc, hwen, hq.wen (by simp [hc])]

namespace LsuBench

variable {slots : Nat → LsuSlot} {cacheHit : Bool} {b : LsuBench}

/-- The slot in turn is the request outstanding in the LSU. -/
def Inv (slots : Nat → LsuSlot) (b : LsuBench) : Prop :=
  Outstanding b.lsu (b.live slots) (slots b.next).request

theorem Inv.ready (h : b.Inv slots) :
    b.ready slots cacheHit = served cacheHit (slots b.next).request :=
  Outstanding.ready h

theorem Inv.serve (h : b.Inv slots) (hs : served cacheHit (slots b.next).request = true) :
    ServedCycle (b.step slots cacheHit).lsu (b.live slots) b.dmem (b.step slots cacheHit).dmem
      (slots b.next).request :=
  Outstanding.serve h hs b.dmem

theorem Inv.miss (h : b.Inv slots) (hs : served cacheHit (slots b.next).request = false) :
    ∃ q, (slots b.next).request = some q ∧
      MissedCycle (b.step slots cacheHit).lsu b.dmem (b.step slots cacheHit).dmem q :=
  Outstanding.miss h hs b.dmem

theorem step_of_ready (hr : b.ready slots cacheHit = true) :
    (b.step slots cacheHit).next = b.next + 1 ∧ (b.step slots cacheHit).gone = false := by
  simp [LsuBench.step, hr]

theorem step_of_not_ready (hr : b.ready slots cacheHit = false) :
    (b.step slots cacheHit).next = b.next ∧
      (b.step slots cacheHit).gone = (b.gone || (slots b.next).replaced) := by
  simp [LsuBench.step, hr]

theorem Inv.step (h : b.Inv slots) (cacheHit : Bool) : (b.step slots cacheHit).Inv slots := by
  cases hs : served cacheHit (slots b.next).request with
  | true =>
    obtain ⟨hn, hg⟩ := step_of_ready (h.ready.trans hs)
    rw [Inv, live, hg, hn]
    exact (slots (b.next + 1)).outstanding (h.serve hs).idle
  | false =>
    obtain ⟨q, hq, hmiss⟩ := h.miss hs
    obtain ⟨rfl, hreq, -⟩ := LsuSlot.request_eq_some hq
    obtain ⟨hn, hg⟩ := step_of_not_ready (h.ready.trans hs)
    rw [Inv, live, hg, hn, hq]
    apply hmiss.outstanding hreq
    cases b.gone || (slots b.next).replaced with
    | false => exact Or.inl rfl
    | true => exact Or.inr (slots b.next).gap_empty

theorem inv_runFrom (slots : Nat → LsuSlot) (dmem : Pmem) (hits : Nat → Bool) (n : Nat) :
    (runFrom slots dmem hits n).Inv slots :=
  Clocked.run_invariant _ _ _ (show (start dmem).Inv slots from (slots 0).outstanding rfl)
    (fun i _ h => h.step i) n

theorem Inv.serves (h : b.Inv slots) {m : Pmem} {ps : List Pulse}
    (hs : Serves m (requests slots b.next) ps b.dmem) (cacheHit : Bool) :
    Serves m (requests slots (b.step slots cacheHit).next)
      (ps ++ (b.step slots cacheHit).pulse.toList) (b.step slots cacheHit).dmem := by
  cases hsv : served cacheHit (slots b.next).request with
  | true =>
    have hserve := h.serve hsv
    rw [(step_of_ready (h.ready.trans hsv)).1, requests_succ]
    cases hq : (slots b.next).request with
    | none =>
      rw [hq] at hserve
      simpa [pulse, hserve.valid, hserve.mem] using hs
    | some q =>
      obtain ⟨-, hreq, hal⟩ := LsuSlot.request_eq_some hq
      rw [hq] at hserve
      have hans := Serves.snoc hs (hserve.answers hreq hal)
      rw [← retireMem_eq_atomicMem hreq hal] at hans
      simpa [pulse, hserve.valid, hserve.mem] using hans
  | false =>
    obtain ⟨q, hq, hmiss⟩ := h.miss hsv
    rw [(step_of_not_ready (h.ready.trans hsv)).1]
    simpa [pulse, hmiss.valid, hmiss.mem] using hs

theorem Inv.next (h : b.Inv slots) (cacheHit : Bool) :
    (b.step slots cacheHit).next =
      if (slots b.next).x.valid && (slots b.next).x.ctrl ≠ 0#2 && !cacheHit then b.next
      else b.next + 1 := by
  have hr : b.ready slots cacheHit = served cacheHit (slots b.next).request := h.ready
  simp only [LsuBench.step, hr]
  by_cases hv : (slots b.next).x.valid = true
  · by_cases hc : (slots b.next).x.ctrl = 0#2 <;> cases cacheHit <;>
      simp [served, LsuSlot.request, hv, hc]
  · simp [served, LsuSlot.request, hv]

end LsuBench

/-- LSU with L1_cache is an atomic byte memory. After any number of cycles the pulses seen
are, one each and in order, the answers to the slots already left, and the data memory is
that of the atomic machine after them. A slot is left in every cycle, unless it accesses
memory and misses. -/
theorem lsu_refines_atomic_memory (slots : Nat → LsuSlot) (dmem : Pmem) (hits : Nat → Bool)
    (n : Nat) :
    let b := LsuBench.runFrom slots dmem hits n
    Serves dmem (requests slots b.next) (LsuBench.pulses slots dmem hits n) b.dmem ∧
      (LsuBench.runFrom slots dmem hits (n + 1)).next =
        if (slots b.next).x.valid && (slots b.next).x.ctrl ≠ 0#2 && !hits n then b.next
        else b.next + 1 := by
  refine ⟨?_, (LsuBench.inv_runFrom slots dmem hits n).next (hits n)⟩
  induction n with
  | zero => exact Serves.nil
  | succ n ih =>
    have hh := (LsuBench.inv_runFrom slots dmem hits n).serves ih (hits n)
    rwa [LsuBench.pulses, Clocked.observed_succ]

/-- The request of a store, a load, or a value for a register. -/
def requestOf (ctrl size : BitVec 2) (addr data : Word) (rd : RegAddr) : ExLsu where
  valid := true
  addr := addr
  data := data
  ctrl := ctrl
  size := size
  isUload := false
  wbData := data
  wbRd := rd
  wbWen := ctrl ≠ 2#2
  pc := 0#32
  ebreak := false

def noRequest : ExLsu := { requestOf 0#2 0#2 0#32 0#32 0#5 with valid := false }

theorem noRequest_empty : noRequest.IsEmpty := ⟨rfl, rfl⟩

theorem requestOf_wen {ctrl size : BitVec 2} {addr data : Word} {rd : RegAddr} (h : ctrl ≠ 3#2) :
    ctrl ≠ 0#2 → (requestOf ctrl size addr data rd).wbWen = decide (ctrl = 1#2) := by
  have hh : ∀ c : BitVec 2, c ≠ 3#2 → c ≠ 0#2 → decide (c ≠ 2#2) = decide (c = 1#2) := by decide
  exact hh ctrl h

def slotOf (ctrl size : BitVec 2) (addr data : Word) (rd : RegAddr) (replaced : Bool)
    (h : ctrl ≠ 3#2 ∧ size ≠ 3#2 ∧ sizeBytes size ∣ addr.toNat) : LsuSlot where
  x := requestOf ctrl size addr data rd
  form := Or.inl ⟨⟨rfl, h.1, h.2.1, requestOf_wen h.1⟩, fun _ => h.2.2⟩
  replaced := replaced
  gap := noRequest
  gap_empty := noRequest_empty

/-- A store that is replaced when it misses, the load of its upper half, a value, then nothing. -/
def storeLoadSlots : Nat → LsuSlot
  | 0 => slotOf 2#2 2#2 0x80000008#32 0xfedc1234#32 0#5 true (by decide)
  | 1 => slotOf 1#2 1#2 0x8000000a#32 0#32 5#5 false (by decide)
  | 2 => slotOf 0#2 0#2 0#32 7#32 6#5 false (by decide)
  | _ => ⟨noRequest, Or.inr noRequest_empty, false, noRequest, noRequest_empty⟩

/-- With a miss in front of each hit. -/
theorem lsu_refines_atomic_memory_storeLoad :
    let b := LsuBench.runFrom storeLoadSlots (fun _ => 0#8) (fun n => n % 2 = 1) 5
    Serves (fun _ => 0#8) [requestOf 2#2 2#2 0x80000008#32 0xfedc1234#32 0#5,
      requestOf 1#2 1#2 0x8000000a#32 0#32 5#5, requestOf 0#2 0#2 0#32 7#32 6#5]
      [⟨0#32, 0#5, false⟩, ⟨0xfffffedc#32, 5#5, true⟩, ⟨7#32, 6#5, true⟩] b.dmem ∧ b.next = 3 := by
  intro b
  obtain ⟨hserves, -⟩ := lsu_refines_atomic_memory storeLoadSlots (fun _ => 0#8) (fun n => n % 2 = 1) 5
  have hnext : b.next = 3 := by decide
  have hpulses : LsuBench.pulses storeLoadSlots (fun _ => 0#8) (fun n => n % 2 = 1) 5 =
      [⟨0#32, 0#5, false⟩, ⟨0xfffffedc#32, 5#5, true⟩, ⟨7#32, 6#5, true⟩] := by decide
  change Serves _ (requests storeLoadSlots b.next) _ b.dmem at hserves
  rw [hnext, hpulses] at hserves
  exact ⟨hserves, hnext⟩

end Npc
