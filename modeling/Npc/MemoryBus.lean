import Npc.IsaRefinement

/-! The calls of `pmem_read` and `pmem_write` that a run of the core makes for its loads and stores, and
the characters that it sends to the serial port. A device sees every access, so none may be lost,
repeated or made for an instruction that is not executed. -/

namespace Npc

open ByteMemory Rv32i

/-- A call of one of the two functions of `memory.cpp`. -/
inductive Access
  | read (raddr : Word)
  | write (waddr wdata : Word) (wmask : BitVec 4)
  deriving DecidableEq, Repr

/-- What `L1_cache.v` calls in a cycle. -/
def cacheAccess (r : CacheReq) (hit : Bool) : Option Access :=
  if hit then if r.wen then some (.write r.addr r.wdata r.wmask) else some (.read r.addr) else none

def ExLsu.access (x : ExLsu) : Option Access :=
  if x.ctrl = 1#2 then some (.read x.addr)
  else if x.ctrl = 2#2 then some (.write x.addr (wdata x) (wmask x)) else none

/-- The call for the access of an instruction: a store moves its value to the lanes it writes. -/
def instAccess (e : Effect) : Option Access :=
  match e.load, e.store with
  | some l, _ => some (.read l.addr)
  | none, some a => some (.write a.addr (a.data <<< (8 * (a.addr.toNat % 4)))
      (BitVec.ofNat 4 (2 ^ a.width.bytes - 1) <<< (a.addr.toNat % 4)))
  | none, none => none

/-- Whether the call returns. Outside the memory the clock answers reads, which is not modelled, the
serial port takes writes, and all else panics. -/
def Access.served : Access → Bool
  | .read raddr => inMem raddr
  | .write waddr _ _ => inMem waddr || waddr = 0x10000000#32

/-- An instruction that loads from the memory and stores to it or to the serial port. -/
structure Served (e : Effect) : Prop where
  load : ∀ l, e.load = some l → inMem l.addr = true
  store : ∀ a, e.store = some a → inMem a.addr = true ∨ a.addr = 0x10000000#32

/-- What `mmio_write` puts out on the serial port. -/
def serialOut : Access → Option (BitVec 8)
  | .read _ => none
  | .write waddr wdata _ => if waddr = 0x10000000#32 then some (wdata.setWidth 8) else none

/-- The character that an instruction stores to the serial port. -/
def instPutch (e : Effect) : Option (BitVec 8) :=
  e.store.bind fun a => if a.addr = 0x10000000#32 then some (a.data.setWidth 8) else none

/-- The sequential machine with the access of the instruction it executed last. -/
def seqAccess (imem : Pmem) (csr : Word) (a : Arch × Option Access) : Arch × Option Access :=
  (seqStep imem csr a.1, (a.1.payload imem csr).access)

namespace Core

def access (i : CoreIn) (s : Core) : Option Access := cacheAccess (cacheReq s.lsu s.exLsu) (s.hit i)

/-- The calls of the first `n` cycles, in order. -/
def accesses (imem dmem : Pmem) (inp : Nat → CoreIn) (n : Nat) : List Access :=
  Clocked.emitted (step imem false) (reset dmem) inp access n

end Core

section Request

variable {l : LsuReg} {x : ExLsu} {cacheHit : Bool} {o : Option ExLsu}

/-- A cycle makes the access of the request it serves. -/
theorem Outstanding.access (h : Outstanding l x o) :
    cacheAccess (cacheReq l x) (cacheLsuHit cacheHit (cacheReq l x)) =
      if served cacheHit o then o.bind ExLsu.access else none := by
  cases o with
  | none =>
    obtain ⟨hw, hv, -⟩ := h
    simp [cacheAccess, cacheLsuHit, cacheReq, hw, hv]
  | some q =>
    obtain ⟨hq, hcase⟩ := h
    by_cases hc : q.ctrl = 0#2
    · obtain ⟨hw, rfl⟩ | ⟨-, hne, -⟩ := hcase
      · simp [cacheAccess, cacheLsuHit, cacheReq, hw, hc, served, ExLsu.access]
      · exact absurd hc hne
    · have hreq : cacheReq l x = ⟨true, decide (q.ctrl = 2#2), q.addr, wdata q, wmask q, q.size⟩ := by
        obtain ⟨hw, rfl⟩ | ⟨hw, -, hs, -⟩ := hcase
        · simp [cacheReq, hw, hq.valid, hc, cacheWen_eq hq]
        · simp [cacheReq, hw, hs.cacheWen, cacheWen_eq hq, hs.addr, hs.wdata, hs.wmask, hs.size]
      rw [hreq]
      cases cacheHit with
      | false => simp [cacheAccess, cacheLsuHit, served, hc]
      | true =>
        rcases hq.ctrl_cases with h | h | h
        · exact absurd h hc
        · simp [cacheAccess, cacheLsuHit, served, ExLsu.access, h]
        · simp [cacheAccess, cacheLsuHit, served, ExLsu.access, h]

end Request

theorem Agree.access {instr r1 r2 r1' r2' : Word} (h : Agree instr r1 r2 r1' r2') (pc csr : Word) :
    (Npc.payload (decodeInst instr) pc r1 r2 csr).access =
      (Npc.payload (decodeInst instr) pc r1' r2' csr).access := by
  cases hu : usesRs2 instr with
  | true =>
    obtain rfl := h.rs2 hu
    rw [h.payload pc csr]
    rfl
  | false =>
    have hs : lsuCtrlNxt (decodeInst instr).lsuEn (decodeInst instr).lsuWe ≠ 2#2 := by
      have hh := (decode_ignoresRs2 hu (rs1Field instr)).store
      change (decodeInst instr).lsuEn = true → (decodeInst instr).lsuWe = false at hh
      cases he : (decodeInst instr).lsuEn with
      | false => simp [lsuCtrlNxt]
      | true => simp [lsuCtrlNxt, hh he]
    rw [h.payload pc csr]
    simp [ExLsu.access, Npc.payload, hs]

/-- The pipeline invariant, over the trace of the sequential machine and its accesses. -/
def BusSim (imem : Pmem) (A : Nat → Arch × Option Access) (e c : Nat) (s : Core) : Prop :=
  ∃ o, Pipe imem (fun k => (A k).1) e c o s ∧ ∀ q ∈ o, q.access = (A (c + s.lsu.wbuValid.toNat + 1)).2

section Sim

variable {imem : Pmem} {A : Nat → Arch × Option Access} {e c : Nat} {s : Core} {i : CoreIn}

theorem Pipe.nextExLsu_access {A : Nat → Arch} {o : Option ExLsu} (h : Pipe imem A e c o s)
    (hv : s.idEx.valid = true) : (s.nextExLsu i).access = ((A e).payload imem i.csrExRdata).access := by
  rw [Core.nextExLsu, h.idEx_decoded hv, h.idEx_pc hv]
  exact (h.agree hv).access _ _

theorem BusSim.step (h : BusSim imem A e c s) (i : CoreIn)
    (hA : ∀ x, s.consumed i = some x → A (e + 1) = seqAccess imem x (A e)) :
    BusSim imem A (e + (s.consumed i).toList.length) (c + (s.retired i).toList.length) (s.step imem false i) := by
  obtain ⟨o, hp, hq⟩ := h
  have hret : (s.retired i).toList.length = s.lsu.wbuValid.toNat := by
    cases hv : s.lsu.wbuValid <;> simp [Core.retired, hv]
  rw [hret]
  cases hs : served i.cacheHit o with
  | false =>
    have hcon : s.consumed i = none := by simp [Core.consumed, Core.exLeaves, hp.ready, hs]
    obtain ⟨q, rfl, hmiss⟩ := hp.step_lsu_miss (i := i) hs
    rw [hcon]
    refine ⟨some q, hp.step_miss hs, fun q' hq' => ?_⟩
    have hvalid : (s.step imem false i).lsu.wbuValid = false := hmiss.valid
    rw [hvalid]
    exact hq q' hq'
  | true =>
    have hcon : s.consumed i = if s.idEx.valid then some i.csrExRdata else none := by
      cases hv : s.idEx.valid <;> simp [Core.consumed, Core.exLeaves, hp.ready, hs, hv]
    have hlen : (s.consumed i).toList.length = s.idEx.valid.toNat := by
      rw [hcon]
      cases s.idEx.valid <;> rfl
    have hserve := hp.step_serve (i := i) hs fun hv => by
      have hh := hA _ (hcon.trans (if_pos hv))
      exact congrArg Prod.fst hh
    rw [hlen]
    refine ⟨_, hserve, fun q hq' => ?_⟩
    cases hv : s.idEx.valid with
    | false => simp [hv] at hq'
    | true =>
      obtain rfl : s.nextExLsu i = q := by simpa [hv] using hq'
      have hcount := hp.count
      have hvalid : (s.step imem false i).lsu.wbuValid = o.isSome := (hp.step_lsu (i := i) hs).valid
      rw [hp.nextExLsu_access hv, hvalid, ← hcount, hA _ (hcon.trans (if_pos hv))]
      rfl

end Sim

namespace Core

section Run

variable (imem dmem : Pmem) (inp : Nat → CoreIn)

/-- The sequential machine behind `k` instructions, and the access of the last of them. -/
def seqAccesses (n k : Nat) : Arch × Option Access :=
  Clocked.after (seqAccess imem) (archReset dmem, none) (csrOperands imem dmem inp n) k

theorem seqAccesses_fst (n k : Nat) : (seqAccesses imem dmem inp n k).1 = seqRun imem dmem inp n k := by
  rw [seqAccesses, seqRun, Clocked.after, Clocked.after]
  generalize (csrOperands imem dmem inp n).take k = l
  generalize (none : Option Access) = x
  generalize archReset dmem = a
  induction l generalizing a x with
  | nil => rfl
  | cons csr l ih => exact ih _ _

theorem runFrom_busSim {n m : Nat} (hnm : n ≤ m) :
    BusSim imem (seqAccesses imem dmem inp m) (csrOperands imem dmem inp n).length
      (writtenBack imem dmem inp n).length (runFrom imem dmem inp n) := by
  refine Clocked.retirement _ _ _ _ _ _ _ (fun A hA => ?_) (fun _ _ _ i _ h hA => h.step i hA) hnm
  obtain ⟨o, hp⟩ := sim_reset imem dmem (fun k => (A k).1) (congrArg Prod.fst hA)
  refine ⟨o, hp, fun q hq => ?_⟩
  have hcount := hp.count
  obtain rfl : o = some q := hq
  simp at hcount

/-- The instructions that have passed the LSU. -/
def passed (n : Nat) : Nat := (commits imem dmem inp n).length + (runFrom imem dmem inp n).lsu.wbuValid.toNat

theorem commits_length_succ (n : Nat) : (commits imem dmem inp (n + 1)).length = passed imem dmem inp n := by
  rw [passed, commits_eq_writtenBack, commits_eq_writtenBack, writtenBack_succ, List.length_append, retired]
  cases (runFrom imem dmem inp n).lsu.wbuValid <;> rfl

theorem passed_succ (n : Nat) : passed imem dmem inp (n + 1) =
    passed imem dmem inp n + (runFrom imem dmem inp (n + 1)).lsu.wbuValid.toNat := by
  rw [passed, commits_length_succ]

theorem accesses_eq {n m : Nat} (hnm : n ≤ m) :
    accesses imem dmem inp n =
      (List.range (passed imem dmem inp n)).filterMap fun k => (seqAccesses imem dmem inp m (k + 1)).2 := by
  induction n with
  | zero => rfl
  | succ n ih =>
    have hih := ih (by omega)
    obtain ⟨o, hp, hq⟩ := runFrom_busSim imem dmem inp (by omega : n ≤ m)
    have haccess : access (inp n) (runFrom imem dmem inp n) =
        if served (inp n).cacheHit o then o.bind ExLsu.access else none := hp.outstanding.access
    have hsucc : accesses imem dmem inp (n + 1) =
        accesses imem dmem inp n ++ (access (inp n) (runFrom imem dmem inp n)).toList := rfl
    have hpassed : passed imem dmem inp n = (writtenBack imem dmem inp n).length +
        (runFrom imem dmem inp n).lsu.wbuValid.toNat := by rw [passed, commits_eq_writtenBack]
    have hrun : runFrom imem dmem inp (n + 1) = (runFrom imem dmem inp n).step imem false (inp n) := rfl
    rw [hsucc, haccess, hih, passed_succ, hrun]
    cases hs : served (inp n).cacheHit o with
    | false =>
      obtain ⟨q, rfl, hmiss⟩ := hp.step_lsu_miss (i := inp n) hs
      have hvalid : ((runFrom imem dmem inp n).step imem false (inp n)).lsu.wbuValid = false := hmiss.valid
      simp [hvalid]
    | true =>
      have hvalid : ((runFrom imem dmem inp n).step imem false (inp n)).lsu.wbuValid = o.isSome :=
        (hp.step_lsu (i := inp n) hs).valid
      cases o with
      | none => simp [hvalid]
      | some q =>
        have hx := hq q rfl
        rw [← hpassed] at hx
        simp only [hvalid, Option.bind_some, hx, if_true, Option.isSome_some, Bool.toNat_true, List.range_succ,
          List.filterMap_append]
        cases h : (seqAccesses imem dmem inp m (passed imem dmem inp n + 1)).2 <;> simp [h]

/-- The access of a cycle is that of the instruction in the LSU. -/
theorem access_eq {n : Nat} {a : Access} (h : access (inp n) (runFrom imem dmem inp n) = some a) :
    passed imem dmem inp n < (csrOperands imem dmem inp n).length ∧
      (seqAccesses imem dmem inp n (passed imem dmem inp n + 1)).2 = some a := by
  obtain ⟨o, hp, hq⟩ := runFrom_busSim imem dmem inp (le_refl n)
  have hcount := hp.count
  have haccess : access (inp n) (runFrom imem dmem inp n) =
      if served (inp n).cacheHit o then o.bind ExLsu.access else none := hp.outstanding.access
  rw [haccess] at h
  split_ifs at h
  obtain ⟨q, rfl, hqa⟩ := Option.bind_eq_some_iff.mp h
  have hx := hq q rfl
  rw [passed, commits_eq_writtenBack, ← hx]
  exact ⟨by simp at hcount; omega, hqa⟩

end Run

end Core

section Inst

variable {x : ExLsu} {j : Option Word}

theorem toNat_low2 (a : Word) : (a.extractLsb' 0 2).toNat = a.toNat % 4 := by
  rw [BitVec.extractLsb'_toNat, Nat.shiftRight_zero]

theorem ExLsu.access_effect (hx : x.IsRequest) (ha : (x.effect j).Aligned) :
    x.access = instAccess (x.effect j) := by
  rcases hx.ctrl_cases with h | h | h
  · simp [ExLsu.access, ExLsu.effect, instAccess, h]
  · simp [ExLsu.access, ExLsu.effect, instAccess, h]
  · have hdvd := ha.store _ (by rw [ExLsu.effect, if_pos h])
    have hshift : byteShift x.addr = 8 * (x.addr.toNat % 4) := by
      rw [byteShift, toNat_low2, Nat.mul_comm]
    rcases sizeBytes_cases hx.size with ⟨hs, -⟩ | ⟨hs, -⟩ | ⟨hs, -⟩
    · simp [ExLsu.access, ExLsu.effect, instAccess, h, wdata, wmask, hx.valid, hs, accessWidth, Width.bytes,
        hshift, BitVec.shiftLeft_eq']
    · simp [ExLsu.access, ExLsu.effect, instAccess, h, wdata, wmask, hx.valid, hs, accessWidth, Width.bytes,
        hshift, BitVec.shiftLeft_eq']
    · have hzero : x.addr.toNat % 4 = 0 := by
        have hw : accessWidth x.size = .word := by simp [accessWidth, hs]
        rw [hw] at hdvd
        exact Nat.mod_eq_zero_of_dvd hdvd
      simp [ExLsu.access, ExLsu.effect, instAccess, h, wdata, wmask, hx.valid, hs, accessWidth,
        Width.bytes, hzero]

theorem Served.instAccess {e : Effect} {a : Access} (h : Served e) (ha : instAccess e = some a) :
    a.served = true := by
  cases hl : e.load with
  | some l =>
    obtain rfl : Access.read l.addr = a := by simpa [Npc.instAccess, hl] using ha
    exact h.load l hl
  | none =>
    cases hs : e.store with
    | none => simp [Npc.instAccess, hl, hs] at ha
    | some st =>
      simp only [Npc.instAccess, hl, hs, Option.some.injEq] at ha
      rw [← ha]
      simpa [Access.served] using h.store st hs

theorem instAccess_putch (i : Instr) (reg : Reg → Word) (pc : Word) :
    (instAccess (i.effect reg pc)).bind serialOut = instPutch (i.effect reg pc) := by
  cases i with
  | store s rs1 rs2 imm =>
    by_cases ha : reg rs1 + imm.signExtend 32 = 0x10000000#32
    · simp [instAccess, instPutch, serialOut, Instr.effect, ha]
    · simp [instAccess, instPutch, serialOut, Instr.effect, ha]
  | _ => rfl

end Inst

namespace Core

section Trace

variable {imem dmem : Pmem} {inp : Nat → CoreIn} {T : Nat → State} {I : Nat → Instr} {m n : Nat}

theorem passed_le (imem dmem : Pmem) (inp : Nat → CoreIn) (n : Nat) :
    passed imem dmem inp n ≤ (csrOperands imem dmem inp n).length := by
  rw [passed, commits_eq_writtenBack]
  exact writtenBack_le imem dmem inp n

theorem seqAccesses_succ {k : Nat} (hn : k < (csrOperands imem dmem inp n).length) :
    (seqAccesses imem dmem inp n (k + 1)).2 =
      ((seqRun imem dmem inp n k).payload imem (csrOperands imem dmem inp n)[k]).access := by
  have hx : (csrOperands imem dmem inp n)[k]? = some (csrOperands imem dmem inp n)[k] :=
    List.getElem?_eq_getElem hn
  rw [seqAccesses, Clocked.after_succ _ _ _ hx, ← seqAccesses_fst]
  rfl

/-- The access of an instruction of the sequential machine is that of the ISA machine. -/
theorem seqAccesses_eq {t : State} {i : Instr} {k : Nat} (hm : Matches t (seqRun imem dmem inp n k))
    (hl : Legal imem i t) (hn : k < (csrOperands imem dmem inp n).length) :
    (seqAccesses imem dmem inp n (k + 1)).2 = instAccess (i.effect t.regs t.pc) := by
  have he := Legal.payload_effect hl hm (csrOperands imem dmem inp n)[k]
  have hal := hl.aligned
  rw [← he] at hal
  rw [seqAccesses_succ hn, ← he]
  exact ExLsu.access_effect (payload_isRequest _ _ _ _ _) hal

theorem accesses_trace (h0 : T 0 = .reset dmem)
    (hT : ∀ k < m, Legal imem (I k) (T k) ∧ T (k + 1) = (T k).exec (I k)) (hn : passed imem dmem inp n ≤ m) :
    accesses imem dmem inp n = (List.range (passed imem dmem inp n)).filterMap
      fun k => instAccess ((I k).effect (T k).regs (T k).pc) := by
  have ht : Trace imem T m := fun k hk => ⟨I k, hT k hk⟩
  have hle := passed_le imem dmem inp n
  rw [accesses_eq imem dmem inp (le_refl n)]
  refine List.filterMap_congr fun k hk => ?_
  have hlt := List.mem_range.mp hk
  have hm : Matches (T k) (seqRun imem dmem inp n k) := seqRun_matches h0 ht (by omega) (by omega)
  exact seqAccesses_eq hm (hT k (by omega)).1 (by omega)

theorem serial_trace (h0 : T 0 = .reset dmem)
    (hT : ∀ k < m, Legal imem (I k) (T k) ∧ T (k + 1) = (T k).exec (I k)) (hn : passed imem dmem inp n ≤ m) :
    (accesses imem dmem inp n).filterMap serialOut = (List.range (passed imem dmem inp n)).filterMap
      fun k => instPutch ((I k).effect (T k).regs (T k).pc) := by
  rw [accesses_trace h0 hT hn, List.filterMap_filterMap]
  simp only [instAccess_putch]

theorem accesses_served (h0 : T 0 = .reset dmem)
    (hT : ∀ k < m, Legal imem (I k) (T k) ∧ T (k + 1) = (T k).exec (I k))
    (hs : ∀ k < m, Served ((I k).effect (T k).regs (T k).pc)) (hn : passed imem dmem inp n ≤ m) :
    ∀ a ∈ accesses imem dmem inp n, a.served = true := by
  intro a ha
  rw [accesses_trace h0 hT hn] at ha
  obtain ⟨k, hk, hka⟩ := List.mem_filterMap.mp ha
  have hlt := List.mem_range.mp hk
  exact (hs k (by omega)).instAccess hka

end Trace

end Core

open Npc.Core

/-- The core makes the accesses of the program and no others. Take a program that loads from the memory and
stores to it or to the serial port. As long as the ISA machine executes without an exception what has passed
the LSU, the calls of `pmem_read` and `pmem_write` in the first `n` cycles are those of these instructions,
one for each access and in their order, whatever misses, stalls and flushes there were; so are the
characters on the serial port; and no call panics. -/
theorem accesses_exact (imem dmem : Pmem) (inp : Nat → CoreIn) (T : Nat → State) (I : Nat → Instr) (m : Nat)
    (h0 : T 0 = .reset dmem) (hT : ∀ k < m, Legal imem (I k) (T k) ∧ T (k + 1) = (T k).exec (I k))
    (hs : ∀ k < m, Served ((I k).effect (T k).regs (T k).pc)) (n : Nat) (hn : passed imem dmem inp n ≤ m) :
    accesses imem dmem inp n = (List.range (passed imem dmem inp n)).filterMap
        (fun k => instAccess ((I k).effect (T k).regs (T k).pc)) ∧
      (accesses imem dmem inp n).filterMap serialOut = (List.range (passed imem dmem inp n)).filterMap
        (fun k => instPutch ((I k).effect (T k).regs (T k).pc)) ∧
      ∀ a ∈ accesses imem dmem inp n, a.served = true :=
  ⟨accesses_trace h0 hT hn, serial_trace h0 hT hn, accesses_served h0 hT hs hn⟩

/-- `lui x1, 0x10000`, `addi x2, x0, 65`, `sb x2, 0(x1)` and nops. -/
def putchInst : Nat → Instr
  | 0 => .lui 1#5 0x10000#20
  | 1 => .opImm .addi 2#5 0#5 65#12
  | 2 => .store .sb 1#5 2#5 0#12
  | _ => .opImm .addi 0#5 0#5 0#12

def putchProgram : Pmem :=
  image [0x100000b7#32, 0x04100113#32, 0x00208023#32, 0x00000013#32, 0x00000013#32, 0x00000013#32]

def putchTrace : Nat → State
  | 0 => .reset putchProgram
  | k + 1 => (putchTrace k).exec (putchInst k)

theorem putchTrace_legal : ∀ k < 6, Legal putchProgram (putchInst k) (putchTrace k) ∧
    putchTrace (k + 1) = (putchTrace k).exec (putchInst k) := by
  intro k hk
  refine ⟨?_, rfl⟩
  obtain rfl | rfl | rfl | rfl | rfl | rfl : k = 0 ∨ k = 1 ∨ k = 2 ∨ k = 3 ∨ k = 4 ∨ k = 5 := by omega
  all_goals
    refine ⟨by decide, by decide, trivial, ?_⟩
    constructor <;> intro _ ha <;> cases ha
  -- the address of the byte store is left
  exact one_dvd _

theorem putchTrace_served : ∀ k < 6, Served ((putchInst k).effect (putchTrace k).regs (putchTrace k).pc) := by
  intro k hk
  obtain rfl | rfl | rfl | rfl | rfl | rfl : k = 0 ∨ k = 1 ∨ k = 2 ∨ k = 3 ∨ k = 4 ∨ k = 5 := by omega
  all_goals constructor <;> intro _ ha <;> cases ha
  exact Or.inr rfl

theorem accesses_exact_putch :
    ∃ n, (accesses putchProgram putchProgram (fun _ => ⟨true, 0#32⟩) n).filterMap serialOut = [65#8] := by
  obtain ⟨n, hn⟩ := commits_reaches putchProgram putchProgram (fun _ => ⟨true, 0#32⟩)
    (fun n => ⟨n, le_refl n, rfl⟩) 3
  have hp : passed putchProgram putchProgram (fun _ => ⟨true, 0#32⟩) n = 3 ∨
      passed putchProgram putchProgram (fun _ => ⟨true, 0#32⟩) n = 4 := by
    rw [passed, hn]
    cases (runFrom putchProgram putchProgram (fun _ => ⟨true, 0#32⟩) n).lsu.wbuValid
    · exact Or.inl rfl
    · exact Or.inr rfl
  have hh := accesses_exact putchProgram putchProgram (fun _ => ⟨true, 0#32⟩) putchTrace putchInst 6 rfl
    putchTrace_legal putchTrace_served n (by omega)
  refine ⟨n, hh.2.1.trans ?_⟩
  rcases hp with hp | hp <;> rw [hp] <;> decide

end Npc
