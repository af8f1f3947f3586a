import Npc.Csr

/-! CSR accesses against program order. The write of an instruction reaches the CSR file
two cycles after the instruction is in EX. A csrrw is followed into EX in the next cycle, an
ecall is not, because it flushes; so an instruction reads the file without the write of a
csrrw right before it and with all earlier writes. -/

namespace Npc

def Arch.csrPayload (imem : Pmem) (a : Arch) : ExCsr :=
  Npc.csrPayload (a.decoded imem) a.pc (a.rs1 imem)

/-- The CSR file after the first `k` instructions, each write taking effect at once. -/
def csrFile (imem : Pmem) (A : Nat → Arch) : Nat → Csr
  | 0 => csrReset
  | k + 1 => csrNext false ((A k).csrPayload imem) (csrFile imem A k)

def csrrwBefore (imem : Pmem) (A : Nat → Arch) : Nat → Bool
  | 0 => false
  | k + 1 => ((A k).csrPayload imem).wen

def csrSeen (imem : Pmem) (A : Nat → Arch) (k : Nat) : Csr :=
  if csrrwBefore imem A k then csrFile imem A (k - 1) else csrFile imem A k

/-- Where the CSR file of the core stands after `e` instructions have left EX. -/
structure CsrLag (imem : Pmem) (A : Nat → Arch) (e : Nat) (t : Top) : Prop where
  next : csrNext false t.core.exCsr t.csr = csrFile imem A e
  wen : t.core.exCsr.wen = csrrwBefore imem A e
  behind : t.core.exCsr.wen = true → t.csr = csrFile imem A (e - 1)
  follows : t.core.exCsr.wen = true →
    t.core.idEx.valid = true ∧ t.core.lsu.waiting = false ∧ t.core.exLsu.ctrl = 0#2
  event : t.core.exCsr.event = true → t.core.idEx.valid = false

def TopSim (imem : Pmem) (A : Nat → Arch) (e c : Nat) (t : Top) : Prop :=
  Sim imem A e c t.core ∧ CsrLag imem A e t

theorem topSim_reset (imem dmem : Pmem) (A : Nat → Arch) (hA : A 0 = archReset dmem) :
    TopSim imem A 0 0 (Top.reset dmem) := by
  refine ⟨sim_reset imem dmem A hA, ?_⟩
  constructor <;> simp [Top.reset, Core.reset, exCsrIdle, csrNext, csrFile, csrrwBefore]

theorem csrNext_congr (w w' : ExCsr) (hwen : w.wen = w'.wen) (hevent : w.event = w'.event)
    (hpc : w.pc = w'.pc) (haddr : w.waddr = w'.waddr) (hdata : w.wen = true → w.wdata = w'.wdata)
    (c : Csr) : csrNext false w c = csrNext false w' c := by
  cases hw : w.wen with
  | true => simp [csrNext, ← hwen, ← hevent, ← hpc, ← haddr, ← hdata hw]
  | false => simp [csrNext, ← hwen, ← hevent, ← hpc, hw]

section Step

variable {imem : Pmem} {A : Nat → Arch} {e c : Nat} {o : Option ExLsu} {t : Top} {cacheHit : Bool}

theorem CsrLag.read (h : CsrLag imem A e t) (hv : t.core.idEx.valid = true) :
    t.csr = csrSeen imem A e := by
  have he : t.core.exCsr.event = false := by
    by_contra he
    rw [h.event (by simpa using he)] at hv
    exact Bool.false_ne_true hv
  rw [csrSeen, ← h.wen]
  split_ifs with hw
  · exact h.behind hw
  · rw [← h.next]
    simp [csrNext, he, hw]

theorem Pipe.csrPayload_wdata {s : Core} (h : Pipe imem A e c o s) (hv : s.idEx.valid = true)
    (hw : ((A e).csrPayload imem).wen = true) : s.fwdRs1Data = (A e).rs1 imem := by
  apply (h.agree hv).rs1
  by_contra hu
  have hh := (decode_ignoresRs1 (by simpa using hu) (rs1Field ((A e).inst imem))).csr
  exact absurd (hh.symm.trans hw) (by decide)

theorem CsrLag.step_leave (h : CsrLag imem A e t) (hp : Pipe imem A e c o t.core)
    (hv : t.core.idEx.valid = true) (hr : t.core.exIdReady (t.coreIn cacheHit) = true) :
    CsrLag imem A (e + 1) (t.step imem false cacheHit) := by
  have hin := h.next
  have hfront := hp.front.inEx hv
  have hd := hp.idEx_decoded hv
  have hpc := hp.idEx_pc hv
  have hcoh : ((A e).decoded imem).Coherent := decode_coherent _ _
  have hx : (t.step imem false cacheHit).core.exCsr =
      Npc.csrPayload ((A e).decoded imem) (A e).pc t.core.fwdRs1Data := by
    simp [Top.step, Core.step, exCsrNext, hv, hr, hd, hpc]
  have hl := hp.step_lsu (i := t.coreIn cacheHit) (hp.ready.symm.trans hr)
  have hexl := Pipe.step_exLsu_leave imem hv hr
  constructor
  case next =>
    rw [hx, csrFile, ← h.next]
    apply csrNext_congr
    case hdata => exact hp.csrPayload_wdata hv
    all_goals rfl
  case wen => rw [hx]; rfl
  case behind => exact fun _ => h.next
  case follows =>
    rw [hx]
    intro hw
    have hmem : t.core.idEx.lsuEn = false := by rw [hd]; exact hcoh.csr_mem hw
    have hj : t.core.idEx.jEn = false := by rw [hd]; exact hcoh.csr_jump hw
    have hf : t.core.exGlbFlush (t.coreIn cacheHit) = false := by simp [Core.exGlbFlush, jTaken, hj]
    have hs : t.core.stall false (t.coreIn cacheHit) = false := by
      simp [Core.stall, idGlbStall, loadUseHazard, idExIsLoad, hmem]
    have hnext := hfront.next (by simp [Decoded.uncondJump, hj])
    refine ⟨?_, hl.idle, ?_⟩
    · have hacc := (hnext.accept hf hs hr).idEx
      simp only [Top.step]
      rw [hacc]
      rfl
    · simp only [Top.step]
      rw [hexl]
      simp [Core.nextExLsu, payload, lsuCtrlNxt, hmem]
  case event =>
    rw [hx]
    intro he
    obtain ⟨hj, hc⟩ := hcoh.event_jump he
    rw [← hd] at hj hc
    have hf : t.core.exGlbFlush (t.coreIn cacheHit) = true := by
      simp [Core.exGlbFlush, jTaken, hv, hr, hj, hc]
    simp only [Top.step]
    rw [Core.step_idEx_flush imem hf]
    rfl

/-- A cycle in which none does. A csrrw is not the last instruction that left then. -/
theorem CsrLag.step_stay (h : CsrLag imem A e t)
    (hl : t.core.exLeaves (t.coreIn cacheHit) = false) :
    CsrLag imem A e (t.step imem false cacheHit) := by
  have hx : (t.step imem false cacheHit).core.exCsr = exCsrIdle := by
    rw [Core.exLeaves] at hl
    simp [Top.step, Core.step, exCsrNext, hl]
  constructor
  case next => rw [hx]; exact h.next
  case wen =>
    rw [hx, ← h.wen]
    by_contra hw
    obtain ⟨hv, hwait, hc⟩ := h.follows (by simpa [exCsrIdle] using hw)
    simp [Core.exLeaves, Core.exIdReady, lsuExReady, hv, hwait, hc] at hl
  all_goals simp [hx, exCsrIdle]

theorem TopSim.step (h : TopSim imem A e c t) (cacheHit : Bool)
    (hA : ∀ x, t.consumed cacheHit = some x → A (e + 1) = seqStep imem x (A e)) :
    TopSim imem A (e + (t.consumed cacheHit).toList.length) (c + (t.retired cacheHit).toList.length)
      (t.step imem false cacheHit) := by
  refine ⟨h.1.step (t.coreIn cacheHit) hA, ?_⟩
  obtain ⟨⟨o, hp⟩, hlag⟩ := h
  cases hl : t.core.exLeaves (t.coreIn cacheHit) with
  | false => simpa [Top.consumed, Core.consumed, hl] using hlag.step_stay hl
  | true =>
    have hvr : t.core.exIdReady (t.coreIn cacheHit) = true ∧ t.core.idEx.valid = true := by
      simpa [Core.exLeaves] using hl
    simpa [Top.consumed, Core.consumed, hl] using hlag.step_leave hp hvr.2 hvr.1

end Step

def csrs : List CsrAddr := [0x300#12, 0x305#12, 0x341#12, 0x342#12]

def Arch.csrWritten (imem : Pmem) (a : Arch) (addr : CsrAddr) : Option Word :=
  if isCsrrw (a.inst imem) && csrField (a.inst imem) = addr then some (a.rs1 imem)
  else if a.inst imem = ecall ∧ addr = 0x341#12 then some a.pc
  else if a.inst imem = ecall ∧ addr = 0x342#12 then some 0xb#32
  else none

/-- The value the latest of the first `k` instructions that writes the CSR `addr` leaves in it. -/
def csrValue (imem : Pmem) (A : Nat → Arch) (addr : CsrAddr) : Nat → Word
  | 0 => csrRdata csrReset addr
  | k + 1 => ((A k).csrWritten imem addr).getD (csrValue imem A addr k)

/-- The instruction touches only the CSRs of the file and leaves mstatus at 0x1800. -/
def Arch.csrLegal (imem : Pmem) (a : Arch) : Bool :=
  (csrAccess (a.inst imem)).all (· ∈ csrs) && (a.csrWritten imem 0x300#12).all (· = 0x1800#32)

theorem Arch.csrLegal_known {imem : Pmem} {a : Arch} (h : a.csrLegal imem = true) {addr : CsrAddr}
    (ha : csrAccess (a.inst imem) = some addr) : addr ∈ csrs := by
  simp only [csrLegal, ha, Option.all_some, Bool.and_eq_true, decide_eq_true_eq] at h
  exact h.1

theorem Arch.csrLegal_mstatus {imem : Pmem} {a : Arch} (h : a.csrLegal imem = true) {v : Word}
    (hv : a.csrWritten imem 0x300#12 = some v) : v = 0x1800#32 := by
  simp only [csrLegal, hv, Option.all_some, Bool.and_eq_true, decide_eq_true_eq] at h
  exact h.2

/-- The instruction before instruction `k` is a csrrw that changes the CSR `addr`. -/
def CsrHazard (imem : Pmem) (A : Nat → Arch) (addr : CsrAddr) : Nat → Prop
  | 0 => False
  | k + 1 => isCsrrw ((A k).inst imem) = true ∧ csrField ((A k).inst imem) = addr ∧
      (A k).rs1 imem ≠ csrValue imem A addr k

theorem csrAccess_of_isCsrrw {w : Word} (h : isCsrrw w = true) : csrAccess w = some (csrField w) := by
  have h1 : w ≠ ecall := by rintro rfl; exact absurd h (by decide)
  have h2 : w ≠ mret := by rintro rfl; exact absurd h (by decide)
  simp [csrAccess, h1, h2, h]

theorem ecall_not_csrrw : isCsrrw ecall = false := by decide

section File

variable {imem : Pmem} {A : Nat → Arch}

theorem csrRdata_csrNext {a : Arch} (hl : a.csrLegal imem = true) {c : Csr} (hc : c.mstatus = 0x1800#32)
    {addr : CsrAddr} (ha : addr ∈ csrs) :
    csrRdata (csrNext false (a.csrPayload imem) c) addr =
      (a.csrWritten imem addr).getD (csrRdata c addr) := by
  obtain ⟨hwen, hevent, haddr⟩ := decodeInst_csr (a.inst imem)
  have hp : a.csrPayload imem = ⟨isCsrrw (a.inst imem), a.pc, decide (a.inst imem = ecall),
      (decodeInst (a.inst imem)).csrAddr, a.rs1 imem⟩ := by
    rw [← hwen, ← hevent]
    rfl
  rw [hp]
  by_cases hec : a.inst imem = ecall
  · simp only [csrs, List.mem_cons, List.not_mem_nil, or_false] at ha
    rcases ha with rfl | rfl | rfl | rfl <;>
      simp [csrNext, csrRdata, Arch.csrWritten, hec, hc, ecall_not_csrrw]
  · cases hw : isCsrrw (a.inst imem) with
    | false => simp [csrNext, Arch.csrWritten, hec, hw]
    | true =>
      have hacc := csrAccess_of_isCsrrw hw
      have hmem := Arch.csrLegal_known hl hacc
      rw [haddr _ hacc]
      simp only [csrs, List.mem_cons, List.not_mem_nil, or_false] at ha hmem
      rcases ha with rfl | rfl | rfl | rfl <;> rcases hmem with hm | hm | hm | hm <;>
        simp [csrNext, csrRdata, Arch.csrWritten, hec, hw, hm]

theorem csrFile_mstatus {k : Nat} (hl : ∀ j < k, (A j).csrLegal imem = true) :
    (csrFile imem A k).mstatus = 0x1800#32 := by
  induction k with
  | zero => rfl
  | succ k ih =>
    have hk := ih fun j hj => hl j (by omega)
    have hh := csrRdata_csrNext (hl k (by omega)) hk (show 0x300#12 ∈ csrs by decide)
    rw [← csrFile] at hh
    have hr : ∀ c, csrRdata c 0x300#12 = c.mstatus := fun _ => rfl
    rw [hr, hr, hk] at hh
    cases hw : (A k).csrWritten imem 0x300#12 with
    | none => simpa [hw] using hh
    | some v => simpa [hw, Arch.csrLegal_mstatus (hl k (by omega)) hw] using hh

theorem csrFile_eq_csrValue {k : Nat} (hl : ∀ j < k, (A j).csrLegal imem = true) {addr : CsrAddr}
    (ha : addr ∈ csrs) : csrRdata (csrFile imem A k) addr = csrValue imem A addr k := by
  induction k with
  | zero => rfl
  | succ k ih =>
    rw [csrFile, csrRdata_csrNext (hl k (by omega)) (csrFile_mstatus fun j hj => hl j (by omega)) ha,
      ih fun j hj => hl j (by omega), csrValue]

/-- The value seen in EX is the program-order value, except behind a csrrw that changed it. -/
theorem csrSeen_eq_iff {k : Nat} (hl : ∀ j < k, (A j).csrLegal imem = true) {addr : CsrAddr}
    (ha : addr ∈ csrs) :
    csrRdata (csrSeen imem A k) addr = csrValue imem A addr k ↔ ¬ CsrHazard imem A addr k := by
  cases k with
  | zero => simp [csrSeen, csrrwBefore, csrFile, csrValue, CsrHazard]
  | succ k =>
    have hbefore : csrrwBefore imem A (k + 1) = isCsrrw ((A k).inst imem) :=
      (decodeInst_csr ((A k).inst imem)).1
    rw [csrSeen, hbefore, CsrHazard]
    cases hw : isCsrrw ((A k).inst imem) with
    | false => simp [csrFile_eq_csrValue hl ha]
    | true =>
      have hne : (A k).inst imem ≠ ecall := by
        intro he
        rw [he, ecall_not_csrrw] at hw
        exact absurd hw (by decide)
      rw [if_pos rfl, Nat.add_sub_cancel, csrFile_eq_csrValue (fun j hj => hl j (by omega)) ha, csrValue]
      by_cases hf : csrField ((A k).inst imem) = addr
      · simp [Arch.csrWritten, hw, hf, eq_comm]
      · simp [Arch.csrWritten, hw, hf, hne]

end File

namespace Top

section Run

variable (imem dmem : Pmem) (hits : Nat → Bool)

theorem runFrom_sim {n m : Nat} (hnm : n ≤ m) :
    TopSim imem (seqRun imem dmem hits m) (csrOperands imem dmem hits n).length
      (Clocked.emitted (step imem false) (reset dmem) hits retired n).length
      (runFrom imem dmem hits n) :=
  Clocked.retirement _ _ _ _ _ _ _ (fun A hA => topSim_reset imem dmem A hA)
    (fun _ _ _ i _ h hA => h.step i hA) hnm

theorem csrOperands_eq {n m : Nat} (hnm : n ≤ m) :
    csrOperands imem dmem hits n = (List.range (csrOperands imem dmem hits n).length).map fun k =>
      csrRdata (csrSeen imem (seqRun imem dmem hits m) k)
        ((seqRun imem dmem hits m k).decoded imem).csrAddr := by
  apply Clocked.emitted_eq_map
  intro t ht x hx
  obtain ⟨⟨o, hp⟩, hlag⟩ := runFrom_sim imem dmem hits (by omega : t ≤ m)
  rw [consumed, Core.consumed] at hx
  split_ifs at hx with hl
  have hv : (runFrom imem dmem hits t).core.idEx.valid = true := by
    simp only [Core.exLeaves, Bool.and_eq_true] at hl
    exact hl.2
  have hread := hlag.read hv
  have haddr : (runFrom imem dmem hits t).core.idEx.csrAddr =
      ((seqRun imem dmem hits m (csrOperands imem dmem hits t).length).decoded imem).csrAddr := by
    rw [(hp.front.inEx hv).idEx]
    rfl
  rw [← Option.some.inj hx]
  change csrRdata (runFrom imem dmem hits t).csr (runFrom imem dmem hits t).core.idEx.csrAddr = _
  rw [hread, haddr]
  rfl

end Run

end Top

def CsrInOrder (imem dmem : Pmem) (hits : Nat → Bool) (n k : Nat) : Prop :=
  ∀ addr, csrAccess ((Top.seqRun imem dmem hits n k).inst imem) = some addr →
    (Top.csrOperands imem dmem hits n)[k]? = some (csrValue imem (Top.seqRun imem dmem hits n) addr k)

/-- Exactly the accesses right behind a csrrw that changed the same CSR are out of order. -/
theorem csr_in_order_iff (imem dmem : Pmem) (hits : Nat → Bool) (n k : Nat)
    (hk : k < (Top.csrOperands imem dmem hits n).length)
    (hl : ∀ j ≤ k, (Top.seqRun imem dmem hits n j).csrLegal imem = true) :
    CsrInOrder imem dmem hits n k ↔
      ∀ addr, csrAccess ((Top.seqRun imem dmem hits n k).inst imem) = some addr →
        ¬ CsrHazard imem (Top.seqRun imem dmem hits n) addr k := by
  have hx : (Top.csrOperands imem dmem hits n)[k]? = some (csrRdata
      (csrSeen imem (Top.seqRun imem dmem hits n) k)
      ((Top.seqRun imem dmem hits n k).decoded imem).csrAddr) := by
    rw [Top.csrOperands_eq imem dmem hits (le_refl n)]
    simp [hk]
  apply forall₂_congr
  intro addr hacc
  have hd : ((Top.seqRun imem dmem hits n k).decoded imem).csrAddr = addr := (decodeInst_csr _).2.2 _ hacc
  rw [hx, hd, Option.some.injEq]
  exact csrSeen_eq_iff (fun j hj => hl j (by omega)) (Arch.csrLegal_known (hl k (le_refl k)) hacc)

/-- `addi x1, x0, 5; csrrw x0, mtvec, x1; csrrs x2, mtvec, x0` -/
def csrrwThenCsrrs : Pmem := image [0x00500093#32, 0x30509073#32, 0x30502173#32]

/-- With hits alone, the csrrs right behind the csrrw still reads zero. -/
theorem csrrwThenCsrrs_not_in_order :
    2 < (Top.csrOperands csrrwThenCsrrs (fun _ => 0#8) (fun _ => true) 5).length ∧
      (∀ j ≤ 2, (Top.seqRun csrrwThenCsrrs (fun _ => 0#8) (fun _ => true) 5 j).csrLegal csrrwThenCsrrs = true) ∧
      ¬ CsrInOrder csrrwThenCsrrs (fun _ => 0#8) (fun _ => true) 5 2 := by
  refine ⟨by decide +kernel, by decide +kernel, fun h => ?_⟩
  have hh := h 0x305#12 (by decide +kernel)
  exact absurd hh (by decide +kernel)

theorem csr_in_order_iff_csrrwThenCsrrs :
    CsrInOrder csrrwThenCsrrs (fun _ => 0#8) (fun _ => true) 5 2 ↔
      ∀ addr, csrAccess ((Top.seqRun csrrwThenCsrrs (fun _ => 0#8) (fun _ => true) 5 2).inst csrrwThenCsrrs) =
          some addr →
        ¬ CsrHazard csrrwThenCsrrs (Top.seqRun csrrwThenCsrrs (fun _ => 0#8) (fun _ => true) 5) addr 2 :=
  csr_in_order_iff _ _ _ _ _ (by decide +kernel) (by decide +kernel)

end Npc
