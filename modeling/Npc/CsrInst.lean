import Npc.CsrOrder
import Npc.SingleInst

/-! csrrw and csrrs against their Zicsr meaning. One ALU result goes to the destination
register, and the CSR is written with rs1 or not at all, so csrrs only reads right, and only
while rs1 has no bit that the CSR lacks. -/

namespace Npc

theorem system_not_event {w : Word} (ho : opcode w = instSystem) (hf : funct3 w ≠ 0#3) :
    w.extractLsb' 7 25 ≠ 0#25 ∧ w.extractLsb' 7 25 ≠ 0b0011000000100000000000000#25 := by
  constructor <;> intro hx <;> rw [system_eq ho hx] at hf <;> exact absurd (by decide) hf

theorem decodeInst_csrrw {w : Word} (h : isCsrrw w = true) :
    decodeInst w = { decodeDefault w with
      aluCtrl := .op2, aluOpCtrl := .rs1Csr, csrWen := true, rfWe := true, wbCtrl := .alu } := by
  simp only [isCsrrw, Bool.and_eq_true, decide_eq_true_eq] at h
  obtain ⟨h1, h2⟩ := system_not_event h.1 (by simp [h.2])
  rw [decodeInst, decode_system h.1, decodeSystem, if_neg (by simp [h.2]), if_neg h1, if_neg h2, if_pos h.2]

theorem decodeInst_csrrs {w : Word} (h : isCsrrs w = true) :
    decodeInst w = { decodeDefault w with
      aluCtrl := .or, aluOpCtrl := .rs1Csr, csrWen := false, rfWe := true, wbCtrl := .alu } := by
  simp only [isCsrrs, Bool.and_eq_true, decide_eq_true_eq] at h
  obtain ⟨h1, h2⟩ := system_not_event h.1 (by simp [h.2])
  rw [decodeInst, decode_system h.1, decodeSystem, if_neg (by simp [h.2]), if_neg h1, if_neg h2,
    if_neg (by simp [h.2]), if_pos h.2]

def zicsrValue (w old rs1 : Word) : Word :=
  if isCsrrw w then rs1 else if rs1Field w = 0#5 then old else old ||| rs1

/-- The CSR instruction at `pc` swaps or sets as Zicsr says: its destination, unless it is x0,
takes the old value, its CSR the new one, and nothing else changes. -/
structure ZicsrMeaning (imem : Pmem) (pc : Word) (hits : Nat → Bool) (t : Top) : Prop where
  regs : (t.run imem hits 3).core.regs = rfWrite t.core.regs true (rdField (imemRdata imem pc))
    (csrRdata t.csr (csrField (imemRdata imem pc)))
  csr : csrRdata (t.run imem hits 2).csr (csrField (imemRdata imem pc)) =
    zicsrValue (imemRdata imem pc) (csrRdata t.csr (csrField (imemRdata imem pc)))
      (readReg t.core.regs (rs1Field (imemRdata imem pc)))
  others : ∀ a ∈ csrs, a ≠ csrField (imemRdata imem pc) →
    csrRdata (t.run imem hits 2).csr a = csrRdata t.csr a

section Single

variable {imem : Pmem} {pc : Word} {t : Top} (hits : Nat → Bool)

theorem csrrw_effect (ht : Top.Single imem pc t) (hw : isCsrrw (imemRdata imem pc) = true) :
    (t.run imem hits 3).core.regs = rfWrite t.core.regs true (rdField (imemRdata imem pc))
        (csrRdata t.csr (csrField (imemRdata imem pc))) ∧
      (t.run imem hits 2).csr = csrNext false ⟨true, pc, false, csrField (imemRdata imem pc),
        readReg t.core.regs (rs1Field (imemRdata imem pc))⟩ t.csr := by
  have hd : (t.arch pc).decoded imem = _ := decodeInst_csrrw hw
  have hp : (t.arch pc).payload imem (t.csrOperand imem pc) = payload _ _ _ _ _ := rfl
  rw [hd] at hp
  constructor
  · rw [ht.run_regs (by rw [hp]; rfl), seqStep, hp, Top.csrOperand, hd]
    rfl
  · rw [ht.run_csr, hd]
    rfl

theorem csrrs_effect (ht : Top.Single imem pc t) (hw : isCsrrs (imemRdata imem pc) = true) :
    (t.run imem hits 3).core.regs = rfWrite t.core.regs true (rdField (imemRdata imem pc))
        (readReg t.core.regs (rs1Field (imemRdata imem pc)) |||
          csrRdata t.csr (csrField (imemRdata imem pc))) ∧
      (t.run imem hits 2).csr = t.csr := by
  have hd : (t.arch pc).decoded imem = _ := decodeInst_csrrs hw
  have hp : (t.arch pc).payload imem (t.csrOperand imem pc) = payload _ _ _ _ _ := rfl
  rw [hd] at hp
  constructor
  · rw [ht.run_regs (by rw [hp]; rfl), seqStep, hp, Top.csrOperand, hd]
    rfl
  · rw [ht.run_csr, hd]
    rfl

theorem csrRdata_write {a addr : CsrAddr} (ha : a ∈ csrs) (haddr : addr ∈ csrs) (pc v : Word) (c : Csr) :
    csrRdata (csrNext false ⟨true, pc, false, addr, v⟩ c) a = if a = addr then v else csrRdata c a := by
  simp only [csrs, List.mem_cons, List.not_mem_nil, or_false] at ha haddr
  rcases ha with rfl | rfl | rfl | rfl <;> rcases haddr with rfl | rfl | rfl | rfl <;>
    simp [csrNext, csrRdata]

theorem csrrw_zicsr (ht : Top.Single imem pc t) (hw : isCsrrw (imemRdata imem pc) = true)
    (ha : csrField (imemRdata imem pc) ∈ csrs) : ZicsrMeaning imem pc hits t := by
  obtain ⟨hr, hc⟩ := csrrw_effect hits ht hw
  constructor
  case regs => exact hr
  case csr => rw [hc, csrRdata_write ha ha, if_pos rfl, zicsrValue, if_pos hw]
  case others =>
    intro a ha' hne
    rw [hc, csrRdata_write ha' ha, if_neg hne]

theorem isCsrrs_not_csrrw {w : Word} (h : isCsrrs w = true) : isCsrrw w = false := by
  simp only [isCsrrs, Bool.and_eq_true, decide_eq_true_eq] at h
  simp [isCsrrw, h.2]

theorem zicsrValue_csrrs {w : Word} (h : isCsrrs w = true) (old : Word) (regs : Regs) :
    zicsrValue w old (readReg regs (rs1Field w)) = old ||| readReg regs (rs1Field w) := by
  rw [zicsrValue, isCsrrs_not_csrrw h, if_neg Bool.false_ne_true]
  split_ifs with h0
  · simp [readReg, h0]
  · rfl

/-- Right only when the bits of rs1 are all set already; then the set has nothing to do. -/
theorem csrrs_zicsr_iff (ht : Top.Single imem pc t) (hw : isCsrrs (imemRdata imem pc) = true) :
    ZicsrMeaning imem pc hits t ↔
      csrRdata t.csr (csrField (imemRdata imem pc)) |||
          readReg t.core.regs (rs1Field (imemRdata imem pc)) =
        csrRdata t.csr (csrField (imemRdata imem pc)) := by
  obtain ⟨hr, hc⟩ := csrrs_effect hits ht hw
  constructor
  · intro h
    have hh := h.csr
    rw [hc, zicsrValue_csrrs hw] at hh
    exact hh.symm
  · intro h
    constructor
    case regs => rw [hr, BitVec.or_comm, h]
    case csr => rw [hc, zicsrValue_csrrs hw, h]
    case others => exact fun a _ _ => by rw [hc]

end Single

/-- In isolation a csrrw always has its Zicsr meaning, and a csrrs has it exactly when its
operand has no bit that is clear in the CSR. -/
theorem zicsr_iff (imem : Pmem) (pc : Word) (hits : Nat → Bool) (t : Top) (ht : Top.Single imem pc t)
    (hw : (isCsrrw (imemRdata imem pc) || isCsrrs (imemRdata imem pc)) = true)
    (ha : csrField (imemRdata imem pc) ∈ csrs) :
    ZicsrMeaning imem pc hits t ↔ isCsrrw (imemRdata imem pc) = true ∨
      csrRdata t.csr (csrField (imemRdata imem pc)) |||
          readReg t.core.regs (rs1Field (imemRdata imem pc)) =
        csrRdata t.csr (csrField (imemRdata imem pc)) := by
  cases hrw : isCsrrw (imemRdata imem pc) with
  | true => simp [csrrw_zicsr hits ht hrw ha]
  | false => simpa using csrrs_zicsr_iff hits ht (by simpa [hrw] using hw)

/-- `csrrs x2, mtvec, x1` with 4 in x1 and 1 in mtvec. -/
def csrrsSets : Top :=
  .single (image [0x3050a173#32]) 0x80000000#32 (fun _ => 4#32) (fun _ => 0#8) ⟨0x1800#32, 1#32, 0#32, 0#32⟩

theorem csrrsSets_not_zicsr :
    Top.Single (image [0x3050a173#32]) 0x80000000#32 csrrsSets ∧
      isCsrrs (imemRdata (image [0x3050a173#32]) 0x80000000#32) = true ∧
      csrField (imemRdata (image [0x3050a173#32]) 0x80000000#32) ∈ csrs ∧
      ¬ ZicsrMeaning (image [0x3050a173#32]) 0x80000000#32 (fun _ => true) csrrsSets := by
  refine ⟨Top.single_single _ _ _ _ _, by decide +kernel, by decide +kernel, fun h => ?_⟩
  exact absurd h.csr (by decide +kernel)

theorem zicsr_iff_csrrsSets :
    ZicsrMeaning (image [0x3050a173#32]) 0x80000000#32 (fun _ => true) csrrsSets ↔
      isCsrrw (imemRdata (image [0x3050a173#32]) 0x80000000#32) = true ∨
        csrRdata csrrsSets.csr (csrField (imemRdata (image [0x3050a173#32]) 0x80000000#32)) |||
            readReg csrrsSets.core.regs (rs1Field (imemRdata (image [0x3050a173#32]) 0x80000000#32)) =
          csrRdata csrrsSets.csr (csrField (imemRdata (image [0x3050a173#32]) 0x80000000#32)) :=
  zicsr_iff _ _ _ _ (Top.single_single _ _ _ _ _) (by decide +kernel) (by decide +kernel)

end Npc
