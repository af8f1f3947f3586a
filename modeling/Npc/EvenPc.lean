import Npc.Lanes
import Npc.Progress

/-! Even pcs. A branch or JAL adds an even immediate to the pc, but JALR redirects to the plain
sum of its operands, so the pcs stay even as long as these agree in their lowest bit. -/

namespace Npc

def IsEven (x : Word) : Prop := x.toNat % 2 = 0

instance : DecidablePred IsEven := fun _ => inferInstanceAs (Decidable (_ = _))

theorem IsEven.add {x y : Word} (hx : IsEven x) (hy : IsEven y) : IsEven (x + y) := by
  unfold IsEven at *
  rw [BitVec.toNat_add]
  omega

theorem isEven_add_iff (x y : Word) : IsEven (x + y) ↔ (x.toNat + y.toNat) % 2 = 0 := by
  unfold IsEven
  rw [BitVec.toNat_add]
  omega

theorem isEven_iff_getLsbD (x : Word) : IsEven x ↔ x.getLsbD 0 = false := by
  rw [IsEven, BitVec.getLsbD, Nat.testBit_zero]
  simp

theorem and_not_one_eq_iff (x : Word) : x &&& ~~~1#32 = x ↔ IsEven x := by
  have h1 : ∀ i : Fin 32, (~~~1#32).getLsbD i = decide (i.val ≠ 0) := by decide
  rw [isEven_iff_getLsbD]
  constructor
  · intro h
    have hh := congrArg (fun y : Word => y.getLsbD 0) h
    simpa using hh
  · intro h
    apply BitVec.eq_of_getLsbD_eq
    intro i hi
    rw [BitVec.getLsbD_and, h1 ⟨i, hi⟩]
    cases i with
    | zero => simpa using h
    | succ i => simp

theorem isEven_immJ (w : Word) : IsEven (immJ w) := by
  rw [isEven_iff_getLsbD, immJ, BitVec.getLsbD_append]
  rfl

theorem isEven_immB (w : Word) : IsEven (immB w) := by
  rw [isEven_iff_getLsbD, immB, BitVec.getLsbD_append]
  rfl

/-- The wire `is_jalr` of EXU. -/
def isJalr (d : Decoded) : Bool := d.jEn && d.jCond = .uncond && d.aluOpCtrl = .rs1Imm

/-- What a word that jumps adds up, unless it takes its target from a CSR. -/
structure JumpOperands (d : Decoded) : Prop where
  add : d.aluCtrl = .add
  operands : d.aluOpCtrl = .pcImm ∧ IsEven d.imm ∨ isJalr d = true

theorem jumpOperands_of_jEn {w : Word} (hc : csrAccess w = none) (hj : (decodeInst w).jEn = true) :
    JumpOperands (decodeInst w) := by
  revert hj
  apply decode_arms (P := fun _ d => d.nxt.jEn = true → JumpOperands d.nxt)
  case jal =>
    intro _ _
    exact ⟨rfl, Or.inl ⟨rfl, isEven_immJ w⟩⟩
  case typeB =>
    intro _ _
    exact ⟨rfl, Or.inl ⟨rfl, isEven_immB w⟩⟩
  case jalr =>
    intro _
    unfold decodeJalr
    split_ifs
    · exact fun _ => ⟨rfl, Or.inr rfl⟩
    · simp [decodeDefault]
  case system =>
    intro ho
    have h1 : w.extractLsb' 7 25 ≠ 0#25 := fun hx => by
      rw [system_eq ho hx] at hc
      exact absurd hc (by decide)
    have h2 : w.extractLsb' 7 25 ≠ 0b0011000000100000000000000#25 := fun hx => by
      rw [system_eq ho hx] at hc
      exact absurd hc (by decide)
    rw [decodeSystem, if_neg h1, if_neg h2]
    split_ifs <;> simp [decodeDefault]
  case typeIL => intro _; unfold decodeTypeIL; split_ifs <;> simp [decodeDefault]
  case typeS => intro _; unfold decodeTypeS; split_ifs <;> simp [decodeDefault]
  all_goals intros; simp_all [decodeAuipc, decodeLui, decodeTypeI, decodeTypeR, decodeDefault]

theorem JumpOperands.not_jalr {d : Decoded} (h : JumpOperands d) (hn : isJalr d = false) :
    d.aluOpCtrl = .pcImm ∧ IsEven d.imm := by
  rcases h.operands with h | h
  · exact h
  · exact absurd (h.symm.trans hn) (by decide)

theorem isJalr_jEn {d : Decoded} (h : isJalr d = true) :
    d.jEn = true ∧ d.jCond = .uncond ∧ d.aluOpCtrl = .rs1Imm := by
  simpa [isJalr, and_assoc] using h

theorem aluCtrl_of_isJalr {w : Word} (hj : isJalr (decodeInst w) = true) :
    (decodeInst w).aluCtrl = .add := by
  revert hj
  apply decode_arms (P := fun _ d => isJalr d.nxt = true → d.nxt.aluCtrl = .add)
  case jalr => intro _; unfold decodeJalr; split_ifs <;> simp [isJalr, decodeDefault]
  case system => intro _; unfold decodeSystem; split_ifs <;> simp [isJalr, decodeDefault]
  case typeIL => intro _; unfold decodeTypeIL; split_ifs <;> simp [isJalr, decodeDefault]
  case typeS => intro _; unfold decodeTypeS; split_ifs <;> simp [isJalr, decodeDefault]
  all_goals
    intros
    simp_all [isJalr, decodeAuipc, decodeLui, decodeTypeI, decodeTypeR, decodeTypeB, decodeJal, decodeDefault]

section Stages

variable {b b' b'' b''' : Bool} {target rdata instr pc : Word} {d : Decoded}

theorem isEven_ifuNext_pc {f : Ifu} (hpc : IsEven f.pc) (ht : IsEven target) :
    IsEven (ifuNext false b b' target rdata f).pc := by
  have h4 : IsEven (f.pc + 4#32) := hpc.add (by decide)
  cases b <;> cases b' <;>
    simp only [ifuNext, Bool.false_eq_true, Bool.not_true, Bool.not_false, if_true, if_false]
  · exact hpc
  · exact ht
  · split_ifs <;> exact h4
  · exact ht

theorem isEven_ifuNext_ifIdPc {f : Ifu} (hpc : IsEven f.pc) (hid : IsEven f.ifIdPc) :
    IsEven (ifuNext false b b' target rdata f).ifIdPc := by
  unfold ifuNext
  split_ifs
  all_goals first | exact hid | exact hpc | contradiction

theorem isEven_idExNext_pc {r : IdEx} (hpc : IsEven pc) (hr : IsEven r.pc) :
    IsEven (idExNext false b b' b'' b''' pc instr d r).pc := by
  unfold idExNext IdEx.bubble
  dsimp only
  split_ifs
  all_goals first | exact hr | exact hpc | contradiction

theorem isEven_exLsuNext_pc {nxt x : ExLsu} (hn : IsEven nxt.pc) (hx : IsEven x.pc) :
    IsEven (exLsuNext false b b' nxt x).pc := by
  unfold exLsuNext exLsuEmpty
  split_ifs
  all_goals first | exact hn | exact hx | contradiction

theorem isEven_lsuNext_wbPc {l : LsuReg} {x : ExLsu} (hx : IsEven x.pc) (hl : IsEven l.wbPc) :
    IsEven (lsuNext false l x b rdata).wbPc := by
  unfold lsuNext
  split_ifs
  all_goals first | exact hx | exact hl | contradiction

end Stages

namespace Core

/-- A JALR that leaves EX is sent to the sum of its operands with bit 0 cleared. -/
def JalrTarget (i : CoreIn) (s : Core) : Prop :=
  s.exLeaves i = true → isJalr s.idEx.toDecoded = true →
    s.exGlbFlush i = true ∧ s.exIfPc i = (s.fwdRs1Data + s.idEx.imm) &&& ~~~1#32

/-- The operands of a JALR that leaves EX agree in bit 0. -/
def JalrOperands (i : CoreIn) (s : Core) : Prop :=
  s.exLeaves i = true → isJalr s.idEx.toDecoded = true →
    (s.fwdRs1Data.toNat + s.idEx.imm.toNat) % 2 = 0

/-- The pcs held in the registers of the core. -/
structure PcsEven (s : Core) : Prop where
  pc : IsEven s.ifu.pc
  ifIdPc : IsEven s.ifu.ifIdPc
  idExPc : IsEven s.idEx.pc
  exLsuPc : IsEven s.exLsu.pc
  wbPc : IsEven s.lsu.wbPc
  commitPc : IsEven s.wbu.commitPc

theorem pcsEven_reset (dmem : Pmem) : PcsEven (reset dmem) := by
  have h0 : IsEven 0#32 := by decide
  exact ⟨(by decide : IsEven 0x80000000#32), h0, h0, h0, h0, h0⟩

section Step

variable {imem dmem : Pmem} {s : Core} {i : CoreIn}

theorem exGlbFlush_of_jalr (hl : s.exLeaves i = true) (hj : isJalr s.idEx.toDecoded = true) :
    s.exGlbFlush i = true := by
  obtain ⟨h1, h2, -⟩ := isJalr_jEn hj
  simp only [exLeaves, Bool.and_eq_true] at hl
  simp [exGlbFlush, hl.1, hl.2, jTaken, h1, h2]

theorem exLeaves_of_flush (hf : s.exGlbFlush i = true) : s.exLeaves i = true ∧ s.idEx.jEn = true := by
  simp only [exGlbFlush, Bool.and_eq_true] at hf
  refine ⟨by simp [exLeaves, hf.1.1, hf.1.2], ?_⟩
  by_contra hj
  simp [jTaken, hj] at hf

theorem Reachable.idEx_eq (h : Reachable imem dmem s) (hv : s.idEx.valid = true) :
    s.idEx.toDecoded = decodeInst (imemRdata imem s.idEx.pc) := by
  obtain ⟨A, e, c, o, hp⟩ := h.sim
  rw [hp.idEx_decoded hv, hp.idEx_pc hv]
  rfl

theorem Reachable.exIfPc_jalr (h : Reachable imem dmem s) (hl : s.exLeaves i = true)
    (hj : isJalr s.idEx.toDecoded = true) : s.exIfPc i = s.fwdRs1Data + s.idEx.imm := by
  have hv : s.idEx.valid = true := by
    simp only [exLeaves, Bool.and_eq_true] at hl
    exact hl.2
  have ha : s.idEx.aluCtrl = .add := by
    rw [h.idEx_eq hv] at hj ⊢
    exact aluCtrl_of_isJalr hj
  rw [exIfPc, if_pos (exGlbFlush_of_jalr hl hj), aluOut, ha, (isJalr_jEn hj).2.2]
  rfl

theorem Reachable.jalrTarget_iff (h : Reachable imem dmem s) :
    JalrTarget i s ↔ JalrOperands i s := by
  refine forall₂_congr fun hl hj => ?_
  rw [and_iff_right (exGlbFlush_of_jalr hl hj), h.exIfPc_jalr hl hj, ← isEven_add_iff,
    ← and_not_one_eq_iff]
  exact eq_comm

theorem Reachable.isEven_exIfPc (h : Reachable imem dmem s) (he : PcsEven s)
    (hc : ∀ a, csrAccess (imemRdata imem a) = none) (ho : JalrOperands i s) : IsEven (s.exIfPc i) := by
  by_cases hf : s.exGlbFlush i = true
  · obtain ⟨hl, hj⟩ := exLeaves_of_flush hf
    have hv : s.idEx.valid = true := by
      simp only [exLeaves, Bool.and_eq_true] at hl
      exact hl.2
    cases hjr : isJalr s.idEx.toDecoded with
    | true =>
      rw [h.exIfPc_jalr hl hjr, isEven_add_iff]
      exact ho hl hjr
    | false =>
      have hd := h.idEx_eq hv
      rw [hd] at hj
      have hop := jumpOperands_of_jEn (hc _) hj
      rw [← hd] at hop
      obtain ⟨hsel, himm⟩ := hop.not_jalr hjr
      rw [exIfPc, if_pos hf, aluOut, hop.add, hsel]
      exact he.idExPc.add himm
  · rw [exIfPc, if_neg hf]
    decide

theorem PcsEven.step (he : PcsEven s) (ht : IsEven (s.exIfPc i)) : PcsEven (s.step imem false i) where
  pc := isEven_ifuNext_pc he.pc ht
  ifIdPc := isEven_ifuNext_ifIdPc he.pc he.ifIdPc
  idExPc := isEven_idExNext_pc he.ifIdPc he.idExPc
  exLsuPc := isEven_exLsuNext_pc he.idExPc he.exLsuPc
  wbPc := isEven_lsuNext_wbPc he.exLsuPc he.wbPc
  commitPc := he.wbPc

end Step

end Core

def isLink (w : Word) : Bool := opcode w = instJal || (opcode w = instJalr && funct3 w = 0#3)

theorem decodeInst_link {w : Word} (h : isLink w = true) :
    (decodeInst w).wbCtrl = .pc ∧ (decodeInst w).rfWe = true ∧ (decodeInst w).lsuEn = false ∧
      (decodeInst w).rd = rdField w := by
  simp only [isLink, Bool.or_eq_true, Bool.and_eq_true, decide_eq_true_eq] at h
  rcases h with h | ⟨h, hf⟩
  · simp [decodeInst, decode, h, instJal, instAuipc, instLui, instTypeI, instTypeR, decodeJal, decodeDefault]
  · simp [decodeInst, decode, h, hf, instJalr, instJal, instAuipc, instLui, instTypeI, instTypeR, decodeJalr,
      decodeDefault]

theorem seqStep_link {imem : Pmem} {a : Arch} (h : isLink (a.inst imem) = true)
    (hrd : rdField (a.inst imem) ≠ 0#5) (csr : Word) :
    (seqStep imem csr a).regs (rdField (a.inst imem)) = a.pc + 4#32 := by
  obtain ⟨hwb, hwe, hen, hd⟩ := decodeInst_link h
  have hdata : retireData (a.payload imem csr) a.dmem = a.pc + 4#32 := by
    simp [retireData, Arch.payload, payload, lsuCtrlNxt, wbDataNxt, Arch.decoded, hwb, hen]
  have hwen : (a.payload imem csr).wbWen = true := hwe
  have hwrd : (a.payload imem csr).wbRd = rdField (a.inst imem) := hd
  simp [seqStep, rfWrite, hdata, hwen, hwrd, hrd]

namespace Core

/-- A link written back in the cycle is even. -/
def LinkEven (imem : Pmem) (i : CoreIn) (s : Core) : Prop :=
  s.lsu.wbuValid = true → isLink (imemRdata imem s.lsu.wbPc) = true →
    rdField (imemRdata imem s.lsu.wbPc) ≠ 0#5 →
    IsEven ((s.step imem false i).regs (rdField (imemRdata imem s.lsu.wbPc)))

section Run

variable (imem dmem : Pmem) (inp : Nat → CoreIn)

theorem linkEven_of_pcsEven {n : Nat} (he : PcsEven (runFrom imem dmem inp n)) :
    LinkEven imem (inp n) (runFrom imem dmem inp n) := by
  intro hv hl hrd
  obtain ⟨o, hp⟩ := runFrom_sim imem dmem inp (le_refl n)
  have hc := hp.count
  have hpc := hp.wbPc hv
  have hregs := hp.step_regs (i := inp n)
  rw [hv, Bool.toNat_true] at hc hregs
  have hx := List.getElem?_eq_getElem
    (show (writtenBack imem dmem inp n).length < (csrOperands imem dmem inp n).length by omega)
  rw [hpc] at hl hrd
  have hstep := seqStep_link hl hrd (csrOperands imem dmem inp n)[(writtenBack imem dmem inp n).length]
  rw [hregs, hpc, seqRun, Clocked.after_succ _ _ _ hx]
  rw [Arch.inst] at hstep
  rw [← seqRun, hstep, ← hpc]
  exact he.wbPc.add (by decide)

theorem pcsEven_runFrom (hc : ∀ a, csrAccess (imemRdata imem a) = none) {n : Nat}
    (h : ∀ t < n, JalrOperands (inp t) (runFrom imem dmem inp t)) :
    PcsEven (runFrom imem dmem inp n) := by
  induction n with
  | zero => exact pcsEven_reset dmem
  | succ n ih =>
    have he := ih fun t ht => h t (by omega)
    have hr : Reachable imem dmem (runFrom imem dmem inp n) := ⟨inp, n, rfl⟩
    exact he.step (hr.isEven_exIfPc he hc (h n (by omega)))

theorem jalrOperands_of_pcsEven {n : Nat} (he : PcsEven (runFrom imem dmem inp (n + 1))) :
    JalrOperands (inp n) (runFrom imem dmem inp n) := by
  intro hl hj
  have hr : Reachable imem dmem (runFrom imem dmem inp n) := ⟨inp, n, rfl⟩
  have hpc := (step_ifu_flush imem (exGlbFlush_of_jalr hl hj)).2
  rw [← isEven_add_iff, ← hr.exIfPc_jalr hl hj, ← hpc]
  exact he.pc

end Run

end Core

open Npc.Core

/-- The redirect of a JALR has bit 0 cleared exactly when its operands agree in bit 0. In a
program without CSR accesses all pcs and links up to any cycle are even exactly when those
of every JALR that has left EX before agree. -/
theorem jalr_even_iff (imem dmem : Pmem) (inp : Nat → CoreIn) (n : Nat) :
    (JalrTarget (inp n) (runFrom imem dmem inp n) ↔ JalrOperands (inp n) (runFrom imem dmem inp n)) ∧
      ((∀ a, csrAccess (imemRdata imem a) = none) →
        ((∀ m ≤ n, PcsEven (runFrom imem dmem inp m) ∧ LinkEven imem (inp m) (runFrom imem dmem inp m)) ↔
          ∀ t < n, JalrOperands (inp t) (runFrom imem dmem inp t))) := by
  refine ⟨Reachable.jalrTarget_iff ⟨inp, n, rfl⟩, fun hc => ⟨fun h t ht => ?_, fun h m hm => ?_⟩⟩
  · exact jalrOperands_of_pcsEven imem dmem inp (h (t + 1) ht).1
  · have he := pcsEven_runFrom imem dmem inp hc (n := m) fun t ht => h t (by omega)
    exact ⟨he, linkEven_of_pcsEven imem dmem inp he⟩

/-- `auipc x1, 0; jalr x0, 9(x1)` -/
def oddJalr : Pmem := image [0x00000097#32, 0x00908067#32]

def oddJalrRun (n : Nat) : Core := runFrom oddJalr (fun _ => 0#8) (fun _ => ⟨true, 0#32⟩) n

theorem csrAccess_oddJalr (a : Word) : csrAccess (imemRdata oddJalr a) = none := by
  have hm : imemRdata oddJalr a ∈ [0#32, 0x00000097#32, 0x00908067#32] := paddrRead_image_mem _ a
  simp only [List.mem_cons, List.not_mem_nil, or_false] at hm
  rcases hm with hm | hm | hm <;> rw [hm] <;> decide

/-- The JALR leaves EX in cycle 3. -/
theorem oddJalr_redirect_odd :
    (∀ a, csrAccess (imemRdata oddJalr a) = none) ∧
      ¬ JalrTarget ⟨true, 0#32⟩ (oddJalrRun 3) ∧ ¬ PcsEven (oddJalrRun 4) := by
  refine ⟨csrAccess_oddJalr, fun h => ?_, fun h => ?_⟩
  · exact absurd (h (by decide +kernel) (by decide +kernel)).2 (by decide +kernel)
  · exact absurd h.pc (by decide +kernel)

theorem jalr_even_iff_oddJalr :
    (∀ m ≤ 4, PcsEven (oddJalrRun m) ∧ LinkEven oddJalr ⟨true, 0#32⟩ (oddJalrRun m)) ↔
      ∀ t < 4, JalrOperands ⟨true, 0#32⟩ (oddJalrRun t) :=
  (jalr_even_iff oddJalr (fun _ => 0#8) (fun _ => ⟨true, 0#32⟩) 4).2 csrAccess_oddJalr

end Npc
