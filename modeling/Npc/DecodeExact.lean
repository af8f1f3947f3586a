import Npc.Isa
import Npc.UnknownInst

/-! What the decoder knows. A word on which `unknown_inst` is not called is an RV32I
instruction other than FENCE, or one of the five SYSTEM instructions of the core. -/

namespace Npc

open Rv32i

section Fields

variable (w : Word)

theorem format_eq : format (w.extractLsb' 20 12) (rs1Field w) (funct3 w) (rdField w) (opcode w) = w := by
  apply BitVec.eq_of_getLsbD_eq
  intro i hi
  simp only [opcode, funct3, rdField, rs1Field, format, BitVec.getLsbD_extractLsb', BitVec.getLsbD_append]
  grind

theorem upperFormat_eq : upperFormat (w.extractLsb' 12 20) (rdField w) (opcode w) = w := by
  apply BitVec.eq_of_getLsbD_eq
  intro i hi
  simp only [opcode, rdField, upperFormat, BitVec.getLsbD_extractLsb', BitVec.getLsbD_append]
  grind

theorem jFormat_eq : jFormat
    (w.extractLsb' 31 1 ++ w.extractLsb' 12 8 ++ w.extractLsb' 20 1 ++ w.extractLsb' 21 10)
    (rdField w) (opcode w) = w := by
  apply BitVec.eq_of_getLsbD_eq
  intro i hi
  simp only [opcode, rdField, jFormat, upperFormat, BitVec.getLsbD_extractLsb', BitVec.getLsbD_append]
  grind

theorem rFormat_eq : rFormat (funct7 w) (rs2Field w) (rs1Field w) (funct3 w) (rdField w) (opcode w) = w := by
  apply BitVec.eq_of_getLsbD_eq
  intro i hi
  simp only [opcode, funct3, funct7, rdField, rs1Field, rs2Field, rFormat, format, BitVec.getLsbD_extractLsb',
    BitVec.getLsbD_append]
  grind

theorem sFormat_eq : sFormat (w.extractLsb' 25 7 ++ w.extractLsb' 7 5) (rs2Field w) (rs1Field w) (funct3 w)
    (opcode w) = w := by
  apply BitVec.eq_of_getLsbD_eq
  intro i hi
  simp only [opcode, funct3, rs1Field, rs2Field, sFormat, format, BitVec.getLsbD_extractLsb',
    BitVec.getLsbD_append]
  grind

theorem bFormat_eq : bFormat (w.extractLsb' 31 1 ++ w.extractLsb' 7 1 ++ w.extractLsb' 25 6 ++ w.extractLsb' 8 4)
    (rs2Field w) (rs1Field w) (funct3 w) (opcode w) = w := by
  apply BitVec.eq_of_getLsbD_eq
  intro i hi
  simp only [opcode, funct3, rs1Field, rs2Field, bFormat, format, BitVec.getLsbD_extractLsb',
    BitVec.getLsbD_append]
  grind

end Fields

inductive IsSystem : Word → Prop
  | ecall : IsSystem 0x00000073#32
  | ebreak : IsSystem 0x00100073#32
  | mret : IsSystem 0x30200073#32
  | csrrw (csr : CsrAddr) (rs1 rd : RegAddr) : IsSystem (format csr rs1 0b001#3 rd 0b1110011#7)
  | csrrs (csr : CsrAddr) (rs1 rd : RegAddr) : IsSystem (format csr rs1 0b010#3 rd 0b1110011#7)

section Arms

variable {w : Word}

theorem encode_upper (ho : opcode w = instAuipc ∨ opcode w = instLui) : ∃ i : Instr, i.encode = w := by
  have hh := upperFormat_eq w
  rcases ho with ho | ho <;> rw [ho] at hh
  · exact ⟨.auipc (rdField w) (w.extractLsb' 12 20), hh⟩
  · exact ⟨.lui (rdField w) (w.extractLsb' 12 20), hh⟩

theorem encode_jal (ho : opcode w = instJal) : ∃ i : Instr, i.encode = w := by
  have hh := jFormat_eq w
  rw [ho] at hh
  exact ⟨.jal (rdField w) _, hh⟩

theorem encode_jalr (ho : opcode w = instJalr) (h : (decodeJalr w).unknownInst = false) :
    ∃ i : Instr, i.encode = w := by
  have hh := format_eq w
  unfold decodeJalr at h
  split_ifs at h with hf
  rw [ho, hf] at hh
  exact ⟨.jalr (rdField w) (rs1Field w) (w.extractLsb' 20 12), hh⟩

theorem encode_typeI (ho : opcode w = instTypeI) (h : (aluCtrlTypeI w).isSome = true) :
    ∃ i : Instr, i.encode = w := by
  have himm : ∀ o : OpImm, funct3 w = o.funct3 → ∃ i : Instr, i.encode = w := by
    intro o hf
    have hh := format_eq w
    rw [ho, hf] at hh
    exact ⟨.opImm o (rdField w) (rs1Field w) (w.extractLsb' 20 12), hh⟩
  have hshift : ∀ o : ShiftImm, funct3 w = o.funct3 → funct7 w = o.funct7 → ∃ i : Instr, i.encode = w := by
    intro o hf h7
    have hh := rFormat_eq w
    rw [ho, hf, h7] at hh
    exact ⟨.shiftImm o (rdField w) (rs1Field w) (rs2Field w), hh⟩
  unfold aluCtrlTypeI at h
  split_ifs at h with h0 h3 h4 h6 h7 h2 hr ha hl
  · exact himm .addi h0
  · exact himm .sltiu h3
  · exact himm .xori h4
  · exact himm .ori h6
  · exact himm .andi h7
  · exact himm .slti h2
  · exact hshift .srli hr.1 hr.2
  · exact hshift .srai ha.1 ha.2
  · exact hshift .slli hl.1 hl.2
  · cases h

theorem encode_typeR (ho : opcode w = instTypeR) (h : (aluCtrlTypeR w).isSome = true) :
    ∃ i : Instr, i.encode = w := by
  have hop : ∀ o : Op, funct3 w = o.funct3 ∧ funct7 w = o.funct7 → ∃ i : Instr, i.encode = w := by
    rintro o ⟨hf, h7⟩
    have hh := rFormat_eq w
    rw [ho, hf, h7] at hh
    exact ⟨.op o (rdField w) (rs1Field w) (rs2Field w), hh⟩
  unfold aluCtrlTypeR at h
  split_ifs at h with h0 h1 h2 h3 h4 h5 h6 h7 h8 h9
  · exact hop .add h0
  · exact hop .sub h1
  · exact hop .xor h2
  · exact hop .or h3
  · exact hop .and h4
  · exact hop .srl h5
  · exact hop .sra h6
  · exact hop .slt h7
  · exact hop .sltu h8
  · exact hop .sll h9
  · cases h

theorem encode_typeB (ho : opcode w = instTypeB) (h : (jCondTypeB w).isSome = true) :
    ∃ i : Instr, i.encode = w := by
  have hcond : ∀ c : Cond, funct3 w = c.funct3 → ∃ i : Instr, i.encode = w := by
    intro c hf
    have hh := bFormat_eq w
    rw [ho, hf] at hh
    exact ⟨.branch c (rs1Field w) (rs2Field w) _, hh⟩
  unfold jCondTypeB at h
  split_ifs at h with h0 h1 h2 h3 h4 h5
  · exact hcond .beq h0
  · exact hcond .bne h1
  · exact hcond .bgeu h2
  · exact hcond .bge h3
  · exact hcond .bltu h4
  · exact hcond .blt h5
  · cases h

theorem encode_typeIL (ho : opcode w = instTypeIL) (h : (decodeTypeIL w).unknownInst = false) :
    ∃ i : Instr, i.encode = w := by
  have hload : ∀ l : Load, funct3 w = l.funct3 → ∃ i : Instr, i.encode = w := by
    intro l hf
    have hh := format_eq w
    rw [ho, hf] at hh
    exact ⟨.load l (rdField w) (rs1Field w) (w.extractLsb' 20 12), hh⟩
  unfold decodeTypeIL at h
  split_ifs at h with h1 h2
  · rcases h1 with h0 | h0 | h0
    · exact hload .lb h0
    · exact hload .lh h0
    · exact hload .lw h0
  · rcases h2 with h0 | h0
    · exact hload .lbu h0
    · exact hload .lhu h0

theorem encode_typeS (ho : opcode w = instTypeS) (h : (decodeTypeS w).unknownInst = false) :
    ∃ i : Instr, i.encode = w := by
  have hstore : ∀ s : Store, funct3 w = s.funct3 → ∃ i : Instr, i.encode = w := by
    intro s hf
    have hh := sFormat_eq w
    rw [ho, hf] at hh
    exact ⟨.store s (rs1Field w) (rs2Field w) _, hh⟩
  unfold decodeTypeS at h
  split_ifs at h with h1
  rcases h1 with h0 | h0 | h0
  · exact hstore .sb h0
  · exact hstore .sh h0
  · exact hstore .sw h0

theorem isSystem_of_known (ho : opcode w = instSystem) (h : (decodeSystem (rs1Field w) w).unknownInst = false) :
    IsSystem w := by
  have hw := format_eq w
  have hhigh : w = w.extractLsb' 7 25 ++ opcode w := by
    apply BitVec.eq_of_getLsbD_eq
    intro i hi
    simp only [opcode, BitVec.getLsbD_extractLsb', BitVec.getLsbD_append]
    grind
  unfold decodeSystem at h
  split_ifs at h with hb he hm hrw hrs
  · obtain ⟨hi, h1, hf, hd⟩ := hb
    have ht : w.extractLsb' 20 12 = 1#12 := by
      have hs := setWidth_immI w
      rw [hi] at hs
      exact hs.symm
    rw [ht, h1, hf, hd, ho] at hw
    rw [← hw]
    exact .ebreak
  · rw [hhigh, he, ho]
    exact .ecall
  · rw [hhigh, hm, ho]
    exact .mret
  · rw [hrw, ho] at hw
    rw [← hw]
    exact .csrrw _ _ _
  · rw [hrs, ho] at hw
    rw [← hw]
    exact .csrrs _ _ _

end Arms

theorem known_encode (i : Instr) : unknownInst i.encode = false := by
  have hk : ∀ reg, i.TargetEven reg → unknownInst i.encode = false := fun reg h =>
    (implements_encode reg 0#32 0#32 h).known
  cases i with
  | jalr rd rs1 imm =>
    -- some registers make the target even
    refine hk (fun _ => -imm.signExtend 32) ?_
    rw [Instr.TargetEven, jalrSum, BitVec.add_comm, BitVec.add_right_neg]
    rfl
  | _ => exact hk (fun _ => 0#32) trivial

theorem known_system {w : Word} (h : IsSystem w) : unknownInst w = false := by
  have hcsr : ∀ w, opcode w = instSystem → funct3 w = 1#3 ∨ funct3 w = 2#3 → unknownInst w = false := by
    intro w ho hf
    rw [unknownInst, decode_system ho, decodeSystem]
    split_ifs <;> simp_all
  cases h with
  | csrrw csr rs1 rd => exact hcsr _ (by simp [instSystem]) (by simp)
  | csrrs csr rs1 rd => exact hcsr _ (by simp [instSystem]) (by simp)
  | _ => decide

/-- The decoder takes a word for unknown exactly when it is no RV32I instruction (FENCE apart) and
none of the SYSTEM instructions the core has. -/
theorem unknownInst_exact (w : Word) :
    unknownInst w = true ↔ ¬ ((∃ i : Instr, i.encode = w) ∨ IsSystem w) := by
  rw [← not_iff_not, not_not, Bool.not_eq_true]
  constructor
  · apply decode_arms (P := fun w d => d.unknownInst = false → (∃ i : Instr, i.encode = w) ∨ IsSystem w)
    case auipc => exact fun ho _ => Or.inl (encode_upper (Or.inl ho))
    case lui => exact fun ho _ => Or.inl (encode_upper (Or.inr ho))
    case jal => exact fun ho _ => Or.inl (encode_jal ho)
    case jalr => exact fun ho h => Or.inl (encode_jalr ho h)
    case typeI => exact fun ho h => Or.inl (encode_typeI ho (by simpa [decodeTypeI] using h))
    case typeR => exact fun ho h => Or.inl (encode_typeR ho (by simpa [decodeTypeR] using h))
    case typeB => exact fun ho h => Or.inl (encode_typeB ho (by simpa [decodeTypeB] using h))
    case typeIL => exact fun ho h => Or.inl (encode_typeIL ho h)
    case typeS => exact fun ho h => Or.inl (encode_typeS ho h)
    case system => exact fun ho h => Or.inr (isSystem_of_known ho h)
    case other => simp
  · rintro (⟨i, rfl⟩ | h)
    · exact known_encode i
    · exact known_system h

end Npc
