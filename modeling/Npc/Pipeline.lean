import Npc.FrontEnd

/-! The pipelined core against its sequential reading. Of a trace of the sequential machine,
`c` instructions are written back, the next one may be in the write-back registers, the
next one outstanding in the LSU, and the one after it is first in the front end. -/

namespace Npc

def Arch.ebreak (imem : Pmem) (a : Arch) : Bool := (a.decoded imem).ebreakFlag

namespace Core

/-- The value of `csr_ex_rdata` taken by the instruction that leaves EX. -/
def consumed (i : CoreIn) (s : Core) : Option Word := if s.exLeaves i then some i.csrExRdata else none

def retired (_ : CoreIn) (s : Core) : Option Word := if s.lsu.wbuValid then some s.lsu.wbPc else none

def nextExLsu (i : CoreIn) (s : Core) : ExLsu :=
  payload s.idEx.toDecoded s.idEx.pc s.fwdRs1Data s.fwdRs2Data i.csrExRdata

end Core

/-- The outstanding request `q` is that of instruction `w`, and the instruction in ID/EX, if
there is one, can take its operands. -/
structure Executes (imem : Pmem) (A : Nat → Arch) (w : Nat) (s : Core) (q : ExLsu) : Prop where
  pc : s.exLsu.pc = (A w).pc
  regs : (A (w + 1)).regs = rfWrite (A w).regs q.wbWen q.wbRd (retireData q (A w).dmem)
  dmem : (A (w + 1)).dmem = retireMem q (A w).dmem
  ebreak : q.ctrl ≠ 0#2 → (A w).ebreak imem = false
  held : s.idEx.valid = true → s.exLsu = q
  rs1 : s.idEx.valid = true → q.ctrl = 1#2 → usesRs1 ((A (w + 1)).inst imem) = true →
    q.wbRd ≠ 0#5 → q.wbRd ≠ rs1Field ((A (w + 1)).inst imem)
  rs2 : s.idEx.valid = true → q.ctrl = 1#2 → usesRs2 ((A (w + 1)).inst imem) = true →
    q.wbRd ≠ 0#5 → q.wbRd ≠ rs2Field ((A (w + 1)).inst imem)

/-- The pipeline invariant: with `w` instructions through the LSU and `o` outstanding in it,
`e` have left EX. -/
structure Pipe (imem : Pmem) (A : Nat → Arch) (e c : Nat) (o : Option ExLsu) (s : Core) : Prop where
  outstanding : Outstanding s.lsu s.exLsu o
  count : e = c + s.lsu.wbuValid.toNat + o.isSome.toNat
  regs : s.regs = (A c).regs
  written : rfWrite s.regs s.wbRfWen s.lsu.wbuRd s.lsu.wbuData = (A (c + s.lsu.wbuValid.toNat)).regs
  wbPc : s.lsu.wbuValid = true → s.lsu.wbPc = (A c).pc
  dmem : s.dmem = (A (c + s.lsu.wbuValid.toNat)).dmem
  executes : ∀ q ∈ o, Executes imem A (c + s.lsu.wbuValid.toNat) s q
  front : Front imem s (A e).pc
  trap : s.lsu.ebreakLsuWbu = (s.lsu.wbuValid && (A c).ebreak imem)
  ebreak : s.exLsu.ebreak = (o.isSome && (A (c + s.lsu.wbuValid.toNat)).ebreak imem)

def Sim (imem : Pmem) (A : Nat → Arch) (e c : Nat) (s : Core) : Prop := ∃ o, Pipe imem A e c o s

theorem sim_reset (imem dmem : Pmem) (A : Nat → Arch) (hA : A 0 = archReset dmem) :
    Sim imem A 0 0 (Core.reset dmem) := by
  refine ⟨none, ?_⟩
  constructor
  case outstanding => exact ⟨rfl, rfl, rfl⟩
  case front =>
    rw [hA]
    exact front_reset imem dmem
  case executes => simp
  all_goals simp [Core.reset, lsuReset, exLsuReset, Core.wbRfWen, hA, archReset]

section Operands

variable {x : ExLsu} {regs : Regs} {we : Bool} {rd rs : RegAddr} {v : Word}

theorem fwdData_empty (hx : x.valid = false) :
    fwdData x we rd v rs (rfRead regs we rd v rs) = readReg (rfWrite regs we rd v) rs := by
  rw [rfRead_eq, readReg_rfWrite]
  simp only [fwdData, hx, Bool.false_and, Bool.false_eq_true, if_false]
  split_ifs <;> rfl

theorem fwdData_request (hx : x.valid = true) (hl : x.ctrl = 1#2 → x.wbRd ≠ 0#5 → x.wbRd ≠ rs)
    (m : Pmem) :
    fwdData x we rd v rs (rfRead regs we rd v rs) =
      readReg (rfWrite (rfWrite regs we rd v) x.wbWen x.wbRd (retireData x m)) rs := by
  have hwb : (if we && rd ≠ 0#5 && rd = rs then v else rfRead regs we rd v rs) =
      readReg (rfWrite regs we rd v) rs := by
    rw [rfRead_eq, readReg_rfWrite]
    split_ifs <;> rfl
  rw [fwdData, hwb, readReg_rfWrite (rfWrite regs we rd v), hx, Bool.true_and]
  by_cases hc : x.ctrl = 1#2
  · by_cases h0 : x.wbRd = 0#5
    · simp [h0]
    · simp [hl hc h0]
  · simp [hc, retireData]

end Operands

theorem ServedCycle.rfWrite {l l' : LsuReg} {x : ExLsu} {m m' : Pmem} {o : Option ExLsu}
    (h : ServedCycle l' x m m' o) (ho : Outstanding l x o) (regs : Regs) :
    rfWrite regs (l'.wbuValid && l'.wbuWen) l'.wbuRd l'.wbuData =
      o.elim regs fun q => rfWrite regs q.wbWen q.wbRd (retireData q m) := by
  cases o with
  | none => simp [h.valid]
  | some q =>
    rw [h.valid, h.rd q rfl, h.wen q rfl]
    by_cases hc : q.ctrl = 2#2
    · have hwen : q.wbWen = false := by simpa [hc] using ho.1.wen (by simp [hc])
      simp [hwen]
    · simp [h.data q rfl hc]

namespace Pipe

variable {imem : Pmem} {A : Nat → Arch} {e c : Nat} {o : Option ExLsu} {s : Core} {i : CoreIn}

theorem regs_front (h : Pipe imem A e c o s) :
    (A e).regs = o.elim (rfWrite s.regs s.wbRfWen s.lsu.wbuRd s.lsu.wbuData) fun q =>
      rfWrite (rfWrite s.regs s.wbRfWen s.lsu.wbuRd s.lsu.wbuData) q.wbWen q.wbRd
        (retireData q s.dmem) := by
  have hc := h.count
  cases o with
  | none => simpa [hc] using h.written.symm
  | some q =>
    simp only [Option.isSome_some, Bool.toNat_true] at hc
    rw [hc, (h.executes q rfl).regs, ← h.written, ← h.dmem]
    rfl

theorem dmem_front (h : Pipe imem A e c o s) :
    (A e).dmem = o.elim s.dmem fun q => retireMem q s.dmem := by
  have hc := h.count
  cases o with
  | none => simpa [hc] using h.dmem.symm
  | some q =>
    simp only [Option.isSome_some, Bool.toNat_true] at hc
    rw [hc, (h.executes q rfl).dmem, ← h.dmem]
    rfl

theorem idEx_decoded (h : Pipe imem A e c o s) (hv : s.idEx.valid = true) :
    s.idEx.toDecoded = (A e).decoded imem := by
  rw [(h.front.inEx hv).idEx]
  rfl

theorem idEx_pc (h : Pipe imem A e c o s) (hv : s.idEx.valid = true) : s.idEx.pc = (A e).pc := by
  rw [(h.front.inEx hv).idEx]
  rfl

theorem agree (h : Pipe imem A e c o s) (hv : s.idEx.valid = true) :
    Agree ((A e).inst imem) s.fwdRs1Data s.fwdRs2Data ((A e).rs1 imem) ((A e).rs2 imem) := by
  have hid := (h.front.inEx hv).idEx
  have hr1 : s.idEx.rs1Addr = rs1Field ((A e).inst imem) := by rw [hid]; rfl
  have hr2 : s.idEx.rs2Addr = rs2Field ((A e).inst imem) := by rw [hid]; rfl
  have hregs := h.regs_front
  have hc := h.count
  cases o with
  | none =>
    have hx := h.outstanding.2.1
    constructor <;> intro _
    · rw [Arch.rs1, hregs, ← hr1]
      exact fwdData_empty hx
    · rw [Arch.rs2, hregs, ← hr2]
      exact fwdData_empty hx
  | some q =>
    have hex := h.executes q rfl
    have hx := h.outstanding.1.valid
    have hrs1 := hex.rs1 hv
    have hrs2 := hex.rs2 hv
    simp only [Option.isSome_some, Bool.toNat_true] at hc
    rw [← hc, ← hr1] at hrs1
    rw [← hc, ← hr2] at hrs2
    constructor <;> intro hu
    · rw [Arch.rs1, hregs, ← hr1, Core.fwdRs1Data, hex.held hv]
      exact fwdData_request hx (fun hl h0 => hrs1 hl hu h0) _
    · rw [Arch.rs2, hregs, ← hr2, Core.fwdRs2Data, hex.held hv]
      exact fwdData_request hx (fun hl h0 => hrs2 hl hu h0) _

theorem nextPc_eq (h : Pipe imem A e c o s) (hv : s.idEx.valid = true)
    (hr : s.exIdReady i = true) : s.nextPc i = (seqStep imem i.csrExRdata (A e)).pc := by
  have hag := h.agree hv
  have hd := h.idEx_decoded hv
  have hpc := h.idEx_pc hv
  have hj : s.exGlbFlush i = (A e).jTaken imem := by
    rw [Core.exGlbFlush, hv, hr, Bool.true_and, Bool.true_and, hd]
    exact hag.jTaken
  have ha : aluOut s.idEx.toDecoded s.idEx.pc s.fwdRs1Data s.fwdRs2Data i.csrExRdata =
      aluOut ((A e).decoded imem) (A e).pc ((A e).rs1 imem) ((A e).rs2 imem) i.csrExRdata := by
    rw [hd, hpc]
    exact hag.aluOut _ _
  rw [Core.nextPc, Core.exIfPc, hj, ha, hpc, seqStep]
  cases (A e).jTaken imem <;> rfl

theorem nextExLsu_eq (h : Pipe imem A e c o s) (hv : s.idEx.valid = true) :
    s.nextExLsu i = { (A e).payload imem i.csrExRdata with data := s.fwdRs2Data } := by
  rw [Core.nextExLsu, h.idEx_decoded hv, h.idEx_pc hv]
  exact (h.agree hv).payload _ _

theorem nextExLsu_isRequest (h : Pipe imem A e c o s) (hv : s.idEx.valid = true) :
    (s.nextExLsu i).IsRequest := by
  rw [Core.nextExLsu, (h.front.inEx hv).idEx]
  exact payload_isRequest _ _ _ _ _

theorem nextExLsu_retireData (h : Pipe imem A e c o s) (hv : s.idEx.valid = true) (m : Pmem) :
    retireData (s.nextExLsu i) m = retireData ((A e).payload imem i.csrExRdata) m := by
  rw [h.nextExLsu_eq hv]
  rfl

theorem nextExLsu_retireMem (h : Pipe imem A e c o s) (hv : s.idEx.valid = true) (m : Pmem) :
    retireMem (s.nextExLsu i) m = retireMem ((A e).payload imem i.csrExRdata) m := by
  rw [Core.nextExLsu, h.idEx_decoded hv, h.idEx_pc hv]
  exact (h.agree hv).retireMem _ _ m

theorem step_exLsu_leave (imem : Pmem) (hv : s.idEx.valid = true) (hr : s.exIdReady i = true) :
    (s.step imem false i).exLsu = s.nextExLsu i := by
  simp [Core.step, exLsuNext, hv, hr, Core.nextExLsu]

theorem step_exLsu_empty (imem : Pmem) (hv : s.idEx.valid = false) :
    (s.step imem false i).exLsu = exLsuEmpty s.exLsu.pc := by
  simp [Core.step, exLsuNext, hv]

theorem step_exLsu_hold (imem : Pmem) (hv : s.idEx.valid = true) (hr : s.exIdReady i = false) :
    (s.step imem false i).exLsu = s.exLsu := by
  simp [Core.step, exLsuNext, hv, hr]

theorem executes_next (h : Pipe imem A e c o s) (hv : s.idEx.valid = true)
    (hr : s.exIdReady i = true) (hA : A (e + 1) = seqStep imem i.csrExRdata (A e)) :
    Executes imem A e (s.step imem false i) (s.nextExLsu i) := by
  have hx := step_exLsu_leave imem hv hr
  have heq := h.nextExLsu_eq hv (i := i)
  have hd := h.idEx_decoded hv
  have hcoh : ((A e).decoded imem).Coherent := decode_coherent _ _
  have hnext := h.nextPc_eq hv hr
  rw [← hA] at hnext
  -- the interlock, for a load in ID/EX
  have hlock : (s.step imem false i).idEx.valid = true → (s.nextExLsu i).ctrl = 1#2 →
      idExIsLoad s.idEx = true ∧ loadUseHazard true ((A (e + 1)).inst imem) s.idEx = false := by
    intro hv' hl
    have hh := h.front.step_interlock hv hr hv'
    rw [hnext] at hh
    refine ⟨?_, hh⟩
    have hen : s.idEx.lsuEn = true ∧ s.idEx.lsuWe = false := by
      simp only [Core.nextExLsu, payload, lsuCtrlNxt] at hl
      split_ifs at hl with h1 h2 <;> simp_all
    have hwe := hcoh.mem_wen
    rw [← hd] at hwe
    simp [idExIsLoad, hv, hen.1, hen.2, hwe hen.1]
  have hrd : (s.nextExLsu i).wbRd = s.idEx.rd := rfl
  constructor
  case pc => rw [hx, heq]; rfl
  case regs => rw [hA, seqStep, h.nextExLsu_retireData hv, heq]
  case dmem => rw [hA, seqStep, h.nextExLsu_retireMem hv]
  case ebreak =>
    intro hc
    apply hcoh.mem_ebreak
    by_contra he
    rw [heq] at hc
    simp [Arch.payload, payload, lsuCtrlNxt, he] at hc
  case held => exact fun _ => hx
  case rs1 =>
    intro hv' hl hu h0 hrs
    obtain ⟨hload, hfree⟩ := hlock hv' hl
    rw [hrd] at h0 hrs
    simp [loadUseHazard, hload, hu, h0, ← hrs] at hfree
  case rs2 =>
    intro hv' hl hu h0 hrs
    obtain ⟨hload, hfree⟩ := hlock hv' hl
    rw [hrd] at h0 hrs
    simp [loadUseHazard, hload, hu, h0, ← hrs] at hfree

theorem ready (h : Pipe imem A e c o s) : s.exIdReady i = served i.cacheHit o :=
  h.outstanding.ready

theorem step_lsu (h : Pipe imem A e c o s) (hs : served i.cacheHit o = true) :
    ServedCycle (s.step imem false i).lsu s.exLsu s.dmem (s.step imem false i).dmem o :=
  h.outstanding.serve hs s.dmem

theorem step_lsu_miss (h : Pipe imem A e c o s) (hs : served i.cacheHit o = false) :
    ∃ q, o = some q ∧ MissedCycle (s.step imem false i).lsu s.dmem (s.step imem false i).dmem q :=
  h.outstanding.miss hs s.dmem

theorem step_regs (h : Pipe imem A e c o s) :
    (s.step imem false i).regs = (A (c + s.lsu.wbuValid.toNat)).regs :=
  h.written

theorem step_trap (imem : Pmem) : (s.step imem false i).lsu.ebreakLsuWbu = s.exLsu.ebreak := by
  simp only [Core.step, lsuNext, Bool.false_eq_true, if_false]
  split_ifs <;> rfl

theorem step_serve (h : Pipe imem A e c o s) (hs : served i.cacheHit o = true)
    (hA : s.idEx.valid = true → A (e + 1) = seqStep imem i.csrExRdata (A e)) :
    Pipe imem A (e + s.idEx.valid.toNat) (c + s.lsu.wbuValid.toNat)
      (if s.idEx.valid then some (s.nextExLsu i) else none) (s.step imem false i) := by
  have hr : s.exIdReady i = true := h.ready.trans hs
  have hl := h.step_lsu (i := i) hs
  have he : c + s.lsu.wbuValid.toNat + (s.step imem false i).lsu.wbuValid.toNat = e := by
    rw [hl.valid, ← h.count]
  constructor
  case outstanding =>
    cases hv : s.idEx.valid with
    | true => exact ⟨h.nextExLsu_isRequest hv, Or.inl ⟨hl.idle, step_exLsu_leave imem hv hr⟩⟩
    | false =>
      rw [step_exLsu_empty imem hv]
      exact ⟨hl.idle, rfl, rfl⟩
  case count =>
    rw [he]
    cases s.idEx.valid <;> rfl
  case regs => exact h.step_regs
  case written =>
    rw [he, h.step_regs, ← h.written, h.regs_front]
    exact hl.rfWrite h.outstanding _
  case wbPc =>
    intro hv
    rw [hl.valid] at hv
    obtain ⟨q, rfl⟩ := Option.isSome_iff_exists.mp hv
    rw [hl.pc rfl]
    exact (h.executes q rfl).pc
  case dmem => rw [he, h.dmem_front, hl.mem]
  case executes =>
    rw [he]
    intro q hq
    cases hv : s.idEx.valid with
    | true =>
      obtain rfl : s.nextExLsu i = q := by simpa [hv] using hq
      exact h.executes_next hv hr (hA hv)
    | false => simp [hv] at hq
  case front =>
    cases hv : s.idEx.valid with
    | true =>
      have hh := h.front.step_leave hv hr
      rwa [h.nextPc_eq hv hr, ← hA hv] at hh
    | false => exact h.front.step_empty hv hr
  case trap => rw [step_trap imem, h.ebreak, hl.valid]
  case ebreak =>
    rw [he]
    cases hv : s.idEx.valid with
    | true =>
      rw [step_exLsu_leave imem hv hr, h.nextExLsu_eq hv]
      rfl
    | false =>
      rw [step_exLsu_empty imem hv]
      rfl

theorem step_miss (h : Pipe imem A e c o s) (hs : served i.cacheHit o = false) :
    Pipe imem A e (c + s.lsu.wbuValid.toNat) o (s.step imem false i) := by
  have hr : s.exIdReady i = false := h.ready.trans hs
  obtain ⟨q, rfl, hl⟩ := h.step_lsu_miss (i := i) hs
  have hex := h.executes q rfl
  have hid := Core.step_idEx_hold imem hr
  have hw : c + s.lsu.wbuValid.toNat + (s.step imem false i).lsu.wbuValid.toNat =
      c + s.lsu.wbuValid.toNat := by rw [hl.valid]; rfl
  have hx : s.idEx.valid = true ∧ (s.step imem false i).exLsu = s.exLsu ∨
      s.idEx.valid = false ∧ (s.step imem false i).exLsu = exLsuEmpty s.exLsu.pc := by
    cases hv : s.idEx.valid with
    | true => exact Or.inl ⟨rfl, step_exLsu_hold imem hv hr⟩
    | false => exact Or.inr ⟨rfl, step_exLsu_empty imem hv⟩
  constructor
  case outstanding =>
    apply hl.outstanding h.outstanding.1
    rcases hx with ⟨hv, hx⟩ | ⟨-, hx⟩
    · exact Or.inl (hx.trans (hex.held hv))
    · exact Or.inr (by rw [hx]; exact ⟨rfl, rfl⟩)
  case count => rw [hw, h.count]
  case regs => exact h.step_regs
  case written => rw [hw, h.step_regs, Core.wbRfWen, hl.valid, Bool.false_and, rfWrite_false]
  case wbPc => simp [hl.valid]
  case dmem => rw [hw, hl.mem, h.dmem]
  case executes =>
    rw [hw]
    intro q' hq'
    obtain rfl : q = q' := by simpa using hq'
    constructor
    case pc =>
      rcases hx with ⟨-, hx⟩ | ⟨-, hx⟩ <;> rw [hx]
      · exact hex.pc
      · exact hex.pc
    case regs => exact hex.regs
    case dmem => exact hex.dmem
    case ebreak => exact hex.ebreak
    case held =>
      rw [hid]
      intro hv
      rw [step_exLsu_hold imem hv hr, hex.held hv]
    case rs1 => rw [hid]; exact hex.rs1
    case rs2 => rw [hid]; exact hex.rs2
  case front => exact h.front.step_hold hr
  case trap => rw [step_trap imem, h.ebreak, hl.valid, hex.ebreak hl.ctrl]; rfl
  case ebreak =>
    rw [hw, hex.ebreak hl.ctrl]
    rcases hx with ⟨-, hx⟩ | ⟨-, hx⟩ <;> rw [hx]
    · rw [h.ebreak, hex.ebreak hl.ctrl]
    · rfl

end Pipe

theorem Sim.step {imem : Pmem} {A : Nat → Arch} {e c : Nat} {s : Core} (h : Sim imem A e c s)
    (i : CoreIn) (hA : ∀ x, s.consumed i = some x → A (e + 1) = seqStep imem x (A e)) :
    Sim imem A (e + (s.consumed i).toList.length) (c + (s.retired i).toList.length)
      (s.step imem false i) := by
  obtain ⟨o, h⟩ := h
  have hret : (s.retired i).toList.length = s.lsu.wbuValid.toNat := by
    cases hv : s.lsu.wbuValid <;> simp [Core.retired, hv]
  rw [hret]
  cases hs : served i.cacheHit o with
  | false =>
    have hcon : s.consumed i = none := by simp [Core.consumed, Core.exLeaves, h.ready, hs]
    rw [hcon]
    exact ⟨o, h.step_miss hs⟩
  | true =>
    have hcon : (s.consumed i).toList.length = s.idEx.valid.toNat := by
      cases hv : s.idEx.valid <;> simp [Core.consumed, Core.exLeaves, h.ready, hs, hv]
    rw [hcon]
    refine ⟨_, h.step_serve hs fun hv => hA _ ?_⟩
    simp [Core.consumed, Core.exLeaves, h.ready, hs, hv]

end Npc
