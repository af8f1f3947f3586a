import Npc.Isa
import Npc.Progress
import Npc.RvMachine

/-! The core runs RV32I. As long as the ISA machine steps, the sequential machine of the core
goes through the same states, so the pipeline commits what the ISA executes. It goes on
committing if the cache hits again and again. -/

namespace Npc

open Rv32i ByteMemory

structure Matches (t : State) (a : Arch) : Prop where
  pc : a.pc = t.pc
  regs : ∀ r, readReg a.regs r = t.regs r
  mem : a.dmem = t.mem

theorem matches_reset (mem : Pmem) : Matches (.reset mem) (archReset mem) := by
  refine ⟨rfl, fun r => ?_, rfl⟩
  simp [readReg, archReset, State.reset, RegFile.reset]

theorem paddr_of_aligned {a : Word} (h : 4 ∣ a.toNat) : paddr a = a := by
  apply BitVec.eq_of_toNat_eq
  rw [paddr_toNat]
  omega

theorem imemRdata_eq_fetch (code : Pmem) {pc : Word} (h : 4 ∣ pc.toNat) :
    imemRdata code pc = fetch code pc := by
  rw [imemRdata, paddrRead_eq_load, paddr_of_aligned h, fetch]

theorem bytes_accessWidth {size : BitVec 2} (h : size ≠ 3#2) :
    (accessWidth size).bytes = sizeBytes size := by
  rcases sizeBytes_cases h with ⟨rfl, hn⟩ | ⟨rfl, hn⟩ | ⟨rfl, hn⟩ <;> rw [hn] <;> rfl

theorem LoadAccess.value_accessWidth {size : BitVec 2} (hs : size ≠ 3#2) (u : Bool) (rd : Option RegAddr)
    (addr : Word) (m : Pmem) :
    LoadAccess.value m ⟨rd, addr, accessWidth size, !u⟩ =
      if u then (load m addr (sizeBytes size)).setWidth 32 else (load m addr (sizeBytes size)).signExtend 32 := by
  rw [LoadAccess.value, ← bytes_accessWidth hs]
  cases u <;> rfl

section Effect

variable {x : ExLsu} {j : Option Word} {t : State} {a : Arch}

theorem ExLsu.effect_aligned (hx : x.IsRequest) (ha : (x.effect j).Aligned) (hc : x.ctrl ≠ 0#2) :
    x.Aligned := by
  have hcases : x.ctrl = 1#2 ∨ x.ctrl = 2#2 := by
    have h3 := hx.ctrl
    generalize x.ctrl = c at hc h3
    revert c
    decide
  rw [ExLsu.Aligned, ← bytes_accessWidth hx.size]
  rcases hcases with h | h
  · exact ha.load _ (by rw [ExLsu.effect, if_pos h])
  · exact ha.store _ (by rw [ExLsu.effect, if_pos h])

theorem ExLsu.effect_regs (hx : x.IsRequest) (ha : (x.effect j).Aligned) (h : Matches t a) (r : RegAddr) :
    readReg (rfWrite a.regs x.wbWen x.wbRd (retireData x a.dmem)) r = (t.apply (x.effect j)).regs r := by
  rw [readReg_rfWrite, h.regs]
  by_cases hc : x.ctrl = 1#2
  · have hd := retireData_load hx.size (x.effect_aligned hx ha (by simp [hc])) hc a.dmem
    have hw : x.wbWen = true := by simp [hx.wen, hc]
    rw [hd, h.mem]
    simp [State.apply, ExLsu.effect, hc, hw, LoadAccess.value_accessWidth hx.size, RegFile.set_apply]
  · have hd : retireData x a.dmem = x.wbData := by simp [retireData, hc]
    rw [hd]
    cases hw : x.wbWen <;> simp [State.apply, ExLsu.effect, hc, hw, RegFile.set_apply]

theorem ExLsu.effect_mem (hx : x.IsRequest) (ha : (x.effect j).Aligned) (h : Matches t a) :
    retireMem x a.dmem = (t.apply (x.effect j)).mem := by
  by_cases hc : x.ctrl = 2#2
  · rw [retireMem_store hx (x.effect_aligned hx ha (by simp [hc])) hc, h.mem]
    simp [State.apply, ExLsu.effect, hc, bytes_accessWidth hx.size]
  · simp [retireMem, State.apply, ExLsu.effect, hc, h.mem]

end Effect

theorem Legal.payload_effect {code : Pmem} {i : Instr} {t : State} {a : Arch} (hl : Legal code i t)
    (h : Matches t a) (csr : Word) :
    (a.payload code csr).effect
      (if a.jTaken code then some (aluOut (a.decoded code) a.pc (a.rs1 code) (a.rs2 code) csr) else none) =
        i.effect t.regs t.pc := by
  have hw : a.inst code = i.encode := by
    rw [Arch.inst, h.pc, imemRdata_eq_fetch code hl.pc_aligned, hl.fetched]
  have h1 : a.rs1 code = t.regs (rs1Field i.encode) := by rw [Arch.rs1, hw, h.regs]
  have h2 : a.rs2 code = t.regs (rs2Field i.encode) := by rw [Arch.rs2, hw, h.regs]
  have hi := (implements_encode t.regs t.pc csr hl.even).effect
  rw [← hi]
  simp only [Arch.payload, Arch.jTaken, Arch.decoded, redirect, hw, h1, h2, h.pc]

/-- One step of the sequential machine, whatever its CSR operand. -/
theorem Matches.step {code : Pmem} {t t' : State} {a : Arch} (h : Matches t a) (hs : Step code t t')
    (csr : Word) : Matches t' (seqStep code csr a) := by
  obtain ⟨i, hl, rfl⟩ := hs
  have he := Legal.payload_effect hl h csr
  have hx : (a.payload code csr).IsRequest := payload_isRequest _ _ _ _ _
  have ha := hl.aligned
  rw [← he] at ha
  constructor
  case pc =>
    rw [State.exec, ← he]
    simp only [seqStep, State.apply, ExLsu.effect, h.pc]
    split_ifs <;> rfl
  case regs =>
    intro r
    rw [State.exec, ← he]
    exact ExLsu.effect_regs hx ha h r
  case mem =>
    rw [State.exec, ← he]
    exact ExLsu.effect_mem hx ha h

namespace Core

section Run

variable {imem dmem : Pmem} {inp : Nat → CoreIn} {T : Nat → State} {m : Nat}

theorem seqRun_matches (h0 : T 0 = .reset dmem) (ht : Trace imem T m) {n k : Nat} (hk : k ≤ m)
    (hn : k ≤ (csrOperands imem dmem inp n).length) : Matches (T k) (seqRun imem dmem inp n k) := by
  induction k with
  | zero =>
    rw [h0]
    exact matches_reset dmem
  | succ k ih =>
    have hx : (csrOperands imem dmem inp n)[k]? = some (csrOperands imem dmem inp n)[k] :=
      List.getElem?_eq_getElem (by omega)
    rw [seqRun, Clocked.after_succ _ _ _ hx]
    exact (ih (by omega) (by omega)).step (ht k (by omega)) _

end Run

section Liveness

variable {imem dmem : Pmem} {s : Core} {i : CoreIn}

theorem Reachable.lag_keep (h : Reachable imem dmem s) (hr : s.exIdReady i = false) :
    (s.step imem false i).wbu.instCpmmit = true ∨ (s.step imem false i).lag ≤ s.lag := by
  cases hv : s.lsu.wbuValid with
  | true => exact Or.inl (by simp [Core.step, wbuNext, hv])
  | false =>
    right
    obtain ⟨A, e, c, o, hp⟩ := h.sim
    obtain ⟨q, rfl, hmiss⟩ := hp.step_lsu_miss (hp.ready.symm.trans hr)
    have hq : (s.lsu.waiting || s.exLsu.valid) = true := by
      obtain ⟨hq, ⟨-, hx⟩ | ⟨hw, -⟩⟩ := hp.outstanding
      · simp [hx, hq.valid]
      · simp [hw]
    have hlag : s.lag = 1 := by simp [lag, hv, hq]
    have hlag' : (s.step imem false i).lag = 1 := by simp [lag, hmiss.valid, hmiss.waiting]
    omega

theorem commits_succ (imem dmem : Pmem) (inp : Nat → CoreIn) (n : Nat) :
    commits imem dmem inp (n + 1) =
      commits imem dmem inp n ++ (commit (runFrom imem dmem inp (n + 1))).toList :=
  Clocked.observed_succ _ _ _ _ _

theorem commits_length_succ_le (imem dmem : Pmem) (inp : Nat → CoreIn) (n : Nat) :
    (commits imem dmem inp (n + 1)).length ≤ (commits imem dmem inp n).length + 1 := by
  rw [commits_succ, List.length_append]
  cases commit (runFrom imem dmem inp (n + 1)) <;> simp

theorem commits_length_mono (imem dmem : Pmem) (inp : Nat → CoreIn) {n n' : Nat} (h : n ≤ n') :
    (commits imem dmem inp n).length ≤ (commits imem dmem inp n').length := by
  induction n', h using Nat.le_induction with
  | base => exact le_refl _
  | succ k _ ih =>
    rw [commits_succ, List.length_append]
    omega

/-- Hits that recur are enough for any number of commits. -/
theorem commits_unbounded (imem dmem : Pmem) (inp : Nat → CoreIn)
    (hfair : ∀ n, ∃ k, n ≤ k ∧ (inp k).cacheHit = true) (m : Nat) :
    ∃ n, m ≤ (commits imem dmem inp n).length := by
  induction m with
  | zero => exact ⟨0, Nat.zero_le _⟩
  | succ m ih =>
    obtain ⟨n, hn⟩ := ih
    have hreach : Reachable imem dmem (runFrom imem dmem inp n) := ⟨inp, n, rfl⟩
    obtain ⟨k, h1, hg⟩ := Clocked.exists_run_of_fair (Core.step imem false) (runFrom imem dmem inp n)
      (fun t => inp (n + t)) (fun s => s.wbu.instCpmmit = true) lag (fun i => i.cacheHit = true) hreach
      (fun j => by
        obtain ⟨k, hk, hh⟩ := hfair (n + j)
        exact ⟨k - n, by omega, by rwa [Nat.add_sub_cancel' (by omega)]⟩)
      (fun i s hs => by
        cases hr : s.exIdReady i with
        | true =>
          rcases hs.lag_step hr with hc | hlt
          · exact Or.inl hc
          · exact Or.inr ⟨hs.step i, hlt.le, fun _ => hlt⟩
        | false =>
          rcases hs.lag_keep hr with hc | hle
          · exact Or.inl hc
          · refine Or.inr ⟨hs.step i, hle, fun hh => ?_⟩
            have hready := hs.ready_of_hit i.csrExRdata
            rw [show (⟨true, i.csrExRdata⟩ : CoreIn) = i by rw [← hh], hr] at hready
            cases hready)
    obtain ⟨k, rfl⟩ := Nat.exists_eq_add_of_le' h1
    rw [runFrom, ← Clocked.run_add] at hg
    refine ⟨n + (k + 1), ?_⟩
    have hmono := commits_length_mono imem dmem inp (by omega : n ≤ n + k)
    have hc : commit (runFrom imem dmem inp (n + k + 1)) =
        some (runFrom imem dmem inp (n + k + 1)).wbu.commitPc :=
      if_pos hg
    rw [← Nat.add_assoc, commits_succ, hc, List.length_append, Option.toList_some, List.length_singleton]
    omega

/-- At most one instruction commits in a cycle, so every number of commits is met. -/
theorem commits_reaches (imem dmem : Pmem) (inp : Nat → CoreIn)
    (hfair : ∀ n, ∃ k, n ≤ k ∧ (inp k).cacheHit = true) (m : Nat) :
    ∃ n, (commits imem dmem inp n).length = m := by
  obtain ⟨n, hn⟩ := commits_unbounded imem dmem inp hfair m
  induction n with
  | zero => exact ⟨0, by have h0 : (commits imem dmem inp 0).length = 0 := rfl; omega⟩
  | succ n ih =>
    by_cases hm : m ≤ (commits imem dmem inp n).length
    · exact ih hm
    · have hle := commits_length_succ_le imem dmem inp n
      exact ⟨n + 1, by omega⟩

end Liveness

section Run

variable {imem dmem : Pmem} {inp : Nat → CoreIn} {T : Nat → State} {m : Nat}

/-- What the core commits, if the sequential machine goes through the states `T`. -/
theorem run_of_matches {n : Nat} (hm : ∀ k ≤ m, k ≤ (csrOperands imem dmem inp n).length →
      Matches (T k) (seqRun imem dmem inp n k)) (hc : (commits imem dmem inp n).length ≤ m) :
    let s := runFrom imem dmem inp n
    let c := (commits imem dmem inp n).length
    commits imem dmem inp n = (List.range c).map (fun k => (T k).pc) ∧
      (∀ r, readReg s.regs r = (T c).regs r) ∧
      (c + s.lsu.wbuValid.toNat ≤ m → s.dmem = (T (c + s.lsu.wbuValid.toNat)).mem) := by
  intro s c
  obtain ⟨o, hsim⟩ := runFrom_sim imem dmem inp (le_refl n)
  have hlen := writtenBack_le imem dmem inp n
  have hcw : commits imem dmem inp n = writtenBack imem dmem inp n := commits_eq_writtenBack imem dmem inp n
  have hclen : c = (writtenBack imem dmem inp n).length := by rw [← hcw]
  refine ⟨?_, fun r => ?_, fun hw => ?_⟩
  · rw [hcw, writtenBack_eq imem dmem inp (le_refl n), ← hclen]
    apply List.map_congr_left
    intro k hk
    have hkc := List.mem_range.mp hk
    exact (hm k (by omega) (by omega)).pc
  · rw [hsim.regs, ← hclen]
    exact (hm c hc (by omega)).regs r
  · rw [hsim.dmem, ← hclen]
    exact (hm _ hw (by rw [hclen]; exact hlen)).mem

theorem regs_of_trace (h0 : T 0 = .reset dmem) (ht : Trace imem T m) {n : Nat}
    (hc : (commits imem dmem inp n).length ≤ m) (r : RegAddr) :
    readReg (runFrom imem dmem inp n).regs r = (T (commits imem dmem inp n).length).regs r :=
  (run_of_matches (fun _ hk hn => seqRun_matches h0 ht hk hn) hc).2.1 r

theorem commits_trace (h0 : T 0 = .reset dmem) (ht : Trace imem T m)
    (hfair : ∀ n, ∃ k, n ≤ k ∧ (inp k).cacheHit = true) :
    ∃ n, (commits imem dmem inp n).length = m ∧
      ∀ r, readReg (runFrom imem dmem inp n).regs r = (T m).regs r := by
  obtain ⟨n, hn⟩ := commits_reaches imem dmem inp hfair m
  refine ⟨n, hn, fun r => ?_⟩
  rw [regs_of_trace h0 ht hn.le, hn]

end Run

end Core

open Npc.Core

/-- The core implements RV32I. As long as it has not committed more instructions than the ISA
machine executes without an exception, the pcs committed are those of the ISA machine, the
registers are those after the instructions committed, and the memory that after those that passed
the LSU. If hits recur, it commits all of them. -/
theorem core_implements_rv32i (imem dmem : Pmem) (inp : Nat → CoreIn) (T : Nat → State) (m : Nat)
    (h0 : T 0 = .reset dmem) (ht : Trace imem T m) :
    (∀ n, let s := runFrom imem dmem inp n
      let c := (commits imem dmem inp n).length
      c ≤ m →
        commits imem dmem inp n = (List.range c).map (fun k => (T k).pc) ∧
        (∀ r, readReg s.regs r = (T c).regs r) ∧
        (c + s.lsu.wbuValid.toNat ≤ m → s.dmem = (T (c + s.lsu.wbuValid.toNat)).mem)) ∧
    ((∀ n, ∃ k, n ≤ k ∧ (inp k).cacheHit = true) →
      ∃ n, (commits imem dmem inp n).length = m ∧
        ∀ r, readReg (runFrom imem dmem inp n).regs r = (T m).regs r) := by
  refine ⟨?_, commits_trace h0 ht⟩
  intro n s c hc
  exact run_of_matches (fun _ hk hn => seqRun_matches h0 ht hk hn) hc

/-- A load, its value put to use at once, and a jump over an instruction. -/
def loadUseProgram : List Instr :=
  [.auipc 2#5 0#20, .load .lw 1#5 2#5 0#12, .opImm .addi 1#5 1#5 1#12, .jal 0#5 4#20, .opImm .addi 1#5 0#5 0#12,
    .opImm .addi 3#5 1#5 1#12]

def loadUseImage : Pmem := image (loadUseProgram.map Instr.encode)

def loadUseTrace (k : Nat) : State :=
  ([0, 1, 2, 3, 5].take k).foldl (fun t j => t.exec (loadUseProgram.getD j (.lui 0#5 0#20)))
    (.reset (image [0x29#32]))

theorem loadUseTrace_legal : Trace loadUseImage loadUseTrace 5 := by
  intro k hk
  obtain rfl | rfl | rfl | rfl | rfl : k = 0 ∨ k = 1 ∨ k = 2 ∨ k = 3 ∨ k = 4 := by omega
  · exact ⟨.auipc 2#5 0#20, ⟨by decide +kernel, by decide, trivial, nofun, nofun, nofun⟩, rfl⟩
  · refine ⟨.load .lw 1#5 2#5 0#12, ⟨by decide +kernel, by decide, trivial, nofun, fun l hl => ?_, nofun⟩, rfl⟩
    obtain rfl := Option.some.inj hl
    decide
  · exact ⟨.opImm .addi 1#5 1#5 1#12, ⟨by decide +kernel, by decide, trivial, nofun, nofun, nofun⟩, rfl⟩
  · refine ⟨.jal 0#5 4#20, ⟨by decide +kernel, by decide, trivial, fun a ha => ?_, nofun, nofun⟩, rfl⟩
    obtain rfl := Option.some.inj ha
    decide
  · exact ⟨.opImm .addi 3#5 1#5 1#12, ⟨by decide +kernel, by decide, trivial, nofun, nofun, nofun⟩, rfl⟩

/-- With a miss in front of each hit. -/
theorem core_implements_rv32i_loadUse :
    let inp : Nat → CoreIn := fun n => ⟨n % 2 = 1, 0#32⟩
    ∃ n, (commits loadUseImage (image [0x29#32]) inp n).length = 5 ∧
      readReg (runFrom loadUseImage (image [0x29#32]) inp n).regs 1#5 = 0x2a#32 ∧
      readReg (runFrom loadUseImage (image [0x29#32]) inp n).regs 3#5 = 0x2b#32 := by
  intro inp
  obtain ⟨n, hn, hregs⟩ := (core_implements_rv32i loadUseImage (image [0x29#32]) inp loadUseTrace 5 rfl
    loadUseTrace_legal).2 fun n => ⟨2 * n + 1, by omega, by simp [inp]⟩
  exact ⟨n, hn, by rw [hregs]; decide, by rw [hregs]; decide⟩

end Npc
