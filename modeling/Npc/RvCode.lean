import Npc.RvMachine

/-! Code in memory: a list of instructions one after the other, and what the machine does at a
place of the list, by kind of instruction. -/

namespace Rv32i

open ByteMemory

def codePc (base : Word) (k : Nat) : Word := base + BitVec.ofNat 32 (4 * k)

/-- The immediate of a branch from place `k` to place `j`. -/
def branchTo (k j : Nat) : BitVec 12 := BitVec.ofInt 12 (2 * (j - k : Int))

def jumpTo (k j : Nat) : BitVec 20 := BitVec.ofInt 20 (2 * (j - k : Int))

section Pseudo

/-! The pseudo-instructions of the assembler; `call` after the linker has relaxed it. -/

def Instr.mv (rd rs : Reg) : Instr := .opImm .addi rd rs 0#12

def Instr.li (rd : Reg) (imm : BitVec 12) : Instr := .opImm .addi rd 0#5 imm

def Instr.neg (rd rs : Reg) : Instr := .op .sub rd 0#5 rs

def Instr.beqz (rs : Reg) (imm : BitVec 12) : Instr := .branch .beq rs 0#5 imm

def Instr.bnez (rs : Reg) (imm : BitVec 12) : Instr := .branch .bne rs 0#5 imm

def Instr.blez (rs : Reg) (imm : BitVec 12) : Instr := .branch .bge 0#5 rs imm

def Instr.bgez (rs : Reg) (imm : BitVec 12) : Instr := .branch .bge rs 0#5 imm

def Instr.bltz (rs : Reg) (imm : BitVec 12) : Instr := .branch .blt rs 0#5 imm

def Instr.bgtz (rs : Reg) (imm : BitVec 12) : Instr := .branch .blt 0#5 rs imm

def Instr.bltu (rs1 rs2 : Reg) (imm : BitVec 12) : Instr := .branch .bltu rs1 rs2 imm

def Instr.bgtu (rs1 rs2 : Reg) (imm : BitVec 12) : Instr := .branch .bltu rs2 rs1 imm

def Instr.bgeu (rs1 rs2 : Reg) (imm : BitVec 12) : Instr := .branch .bgeu rs1 rs2 imm

def Instr.j (imm : BitVec 20) : Instr := .jal 0#5 imm

def Instr.call (imm : BitVec 20) : Instr := .jal 1#5 imm

def Instr.jr (rs : Reg) : Instr := .jalr 0#5 rs 0#12

def Instr.ret : Instr := .jr 1#5

end Pseudo

structure CodeAt (code : Mem 32) (base : Word) (is : List Instr) : Prop where
  aligned : 4 ∣ base.toNat
  fetched : ∀ k i, is[k]? = some i → fetch code (codePc base k) = i.encode

theorem codeAt_of_forall {code : Mem 32} {base : Word} {is : List Instr} (ha : 4 ∣ base.toNat)
    (h : ∀ k : Fin is.length, fetch code (codePc base k) = is[k].encode) : CodeAt code base is := by
  refine ⟨ha, fun k i hi => ?_⟩
  obtain ⟨hk, rfl⟩ := List.getElem?_eq_some_iff.mp hi
  exact h ⟨k, hk⟩

namespace RegFile

@[simp] theorem set_zero (r : RegFile) (v : Word) : r.set 0#5 v = r := by
  ext a
  simp [set_apply]

end RegFile

section Pc

variable (base : Word) (k : Nat)

theorem codePc_succ : codePc base k + 4#32 = codePc base (k + 1) := by
  rw [codePc, codePc, BitVec.add_assoc, Nat.mul_add, BitVec.ofNat_add]

theorem codePc_add {j : Nat} {off : Word} (h : BitVec.ofNat 32 (4 * k) + off = BitVec.ofNat 32 (4 * j)) :
    codePc base k + off = codePc base j := by
  rw [codePc, codePc, BitVec.add_assoc, h]

variable {base} in
theorem codePc_aligned (h : 4 ∣ base.toNat) : 4 ∣ (codePc base k).toNat := by
  rw [codePc, BitVec.toNat_add, BitVec.toNat_ofNat]
  omega

end Pc

namespace CodeAt

variable {code : Mem 32} {base : Word} {is : List Instr} {k : Nat} {r : RegFile} {m : Mem 32}
  {rd rs1 rs2 : Reg}

/-- One step at place `k`, of an instruction without access to memory. -/
theorem reaches {i : Instr} (h : CodeAt code base is) (hi : is[k]? = some i)
    (heven : i.TargetEven r) {e : Effect} (he : i.effect r (codePc base k) = e)
    (hjump : ∀ t, e.jump = some t → 4 ∣ t.toNat) (hload : e.load = none) (hstore : e.store = none) :
    Reaches code ⟨codePc base k, r, m⟩ (State.apply e ⟨codePc base k, r, m⟩) := by
  apply Relation.ReflTransGen.single
  refine ⟨i, ⟨h.fetched k i hi, codePc_aligned k h.aligned, heven, ?_⟩, ?_⟩
  · rw [he]
    refine ⟨hjump, fun l hl => ?_, fun a ha => ?_⟩
    · simp [hload] at hl
    · simp [hstore] at ha
  · rw [State.exec, he]

/-- The instruction writes a register and the next one follows. -/
theorem write {i : Instr} {v : Word} (h : CodeAt code base is) (hi : is[k]? = some i)
    (heven : i.TargetEven r) (he : i.effect r (codePc base k) = { write := some (rd, v) }) :
    Reaches code ⟨codePc base k, r, m⟩ ⟨codePc base (k + 1), r.set rd v, m⟩ := by
  have hh := h.reaches hi heven he (by simp) rfl rfl (m := m)
  rw [← codePc_succ]
  exact hh

theorem opImm {o : OpImm} {imm : BitVec 12} (h : CodeAt code base is)
    (hi : is[k]? = some (.opImm o rd rs1 imm)) :
    Reaches code ⟨codePc base k, r, m⟩
      ⟨codePc base (k + 1), r.set rd (o.eval (r rs1) (imm.signExtend 32)), m⟩ :=
  h.write hi trivial rfl

theorem shiftImm {o : ShiftImm} {shamt : BitVec 5} (h : CodeAt code base is)
    (hi : is[k]? = some (.shiftImm o rd rs1 shamt)) :
    Reaches code ⟨codePc base k, r, m⟩ ⟨codePc base (k + 1), r.set rd (o.eval (r rs1) shamt), m⟩ :=
  h.write hi trivial rfl

theorem op {o : Op} (h : CodeAt code base is) (hi : is[k]? = some (.op o rd rs1 rs2)) :
    Reaches code ⟨codePc base k, r, m⟩ ⟨codePc base (k + 1), r.set rd (o.eval (r rs1) (r rs2)), m⟩ :=
  h.write hi trivial rfl

theorem mv (h : CodeAt code base is) (hi : is[k]? = some (.mv rd rs1)) :
    Reaches code ⟨codePc base k, r, m⟩ ⟨codePc base (k + 1), r.set rd (r rs1), m⟩ := by
  simpa [OpImm.eval] using h.opImm hi (r := r) (m := m)

theorem li {imm : BitVec 12} (h : CodeAt code base is) (hi : is[k]? = some (.li rd imm)) :
    Reaches code ⟨codePc base k, r, m⟩ ⟨codePc base (k + 1), r.set rd (imm.signExtend 32), m⟩ := by
  simpa [OpImm.eval] using h.opImm hi (r := r) (m := m)

theorem neg (h : CodeAt code base is) (hi : is[k]? = some (.neg rd rs1)) :
    Reaches code ⟨codePc base k, r, m⟩ ⟨codePc base (k + 1), r.set rd (-r rs1), m⟩ := by
  simpa [Op.eval] using h.op hi (r := r) (m := m)

theorem lw {imm : BitVec 12} (h : CodeAt code base is) (hi : is[k]? = some (.load .lw rd rs1 imm))
    (ha : 4 ∣ (r rs1 + imm.signExtend 32).toNat) :
    Reaches code ⟨codePc base k, r, m⟩
      ⟨codePc base (k + 1), r.set rd (load m (r rs1 + imm.signExtend 32) 4), m⟩ := by
  refine Relation.ReflTransGen.single ⟨.load .lw rd rs1 imm,
    ⟨h.fetched k _ hi, codePc_aligned k h.aligned, trivial, nofun, fun l hl => ?_, nofun⟩, ?_⟩
  · obtain rfl := Option.some.inj hl
    exact ha
  · rw [← codePc_succ]
    simp [State.exec, State.apply, Instr.effect, LoadAccess.value, Load.signed, Load.width, Width.bytes]

theorem sw {imm : BitVec 12} (h : CodeAt code base is) (hi : is[k]? = some (.store .sw rs1 rs2 imm))
    (ha : 4 ∣ (r rs1 + imm.signExtend 32).toNat) :
    Reaches code ⟨codePc base k, r, m⟩
      ⟨codePc base (k + 1), r, store m (r rs1 + imm.signExtend 32) 4 (r rs2)⟩ := by
  refine Relation.ReflTransGen.single ⟨.store .sw rs1 rs2 imm,
    ⟨h.fetched k _ hi, codePc_aligned k h.aligned, trivial, nofun, nofun, fun a ha' => ?_⟩, ?_⟩
  · obtain rfl := Option.some.inj ha'
    exact ha
  · rw [← codePc_succ]
    rfl

theorem branch_taken {c : Cond} {imm : BitVec 12} (h : CodeAt code base is)
    (hi : is[k]? = some (.branch c rs1 rs2 imm)) (hc : c.holds (r rs1) (r rs2) = true) {j : Nat}
    (hj : BitVec.ofNat 32 (4 * k) + (imm ++ 0#1).signExtend 32 = BitVec.ofNat 32 (4 * j)) :
    Reaches code ⟨codePc base k, r, m⟩ ⟨codePc base j, r, m⟩ := by
  have ht := codePc_add base k hj
  have he : Instr.effect r (codePc base k) (.branch c rs1 rs2 imm) = { jump := some (codePc base j) } := by
    rw [Instr.effect, if_pos hc, ht]
  refine h.reaches hi trivial he (fun t htt => ?_) rfl rfl
  obtain rfl := Option.some.inj htt
  exact codePc_aligned j h.aligned

theorem branch_not_taken {c : Cond} {imm : BitVec 12} (h : CodeAt code base is)
    (hi : is[k]? = some (.branch c rs1 rs2 imm)) (hc : c.holds (r rs1) (r rs2) = false) :
    Reaches code ⟨codePc base k, r, m⟩ ⟨codePc base (k + 1), r, m⟩ := by
  have he : Instr.effect r (codePc base k) (.branch c rs1 rs2 imm) = {} := by
    rw [Instr.effect, hc, if_neg Bool.false_ne_true]
  have hh := h.reaches hi trivial he (by simp) rfl rfl (m := m)
  rw [← codePc_succ]
  exact hh

theorem jal {imm : BitVec 20} (h : CodeAt code base is) (hi : is[k]? = some (.jal rd imm)) {j : Nat}
    (hj : BitVec.ofNat 32 (4 * k) + (imm ++ 0#1).signExtend 32 = BitVec.ofNat 32 (4 * j)) :
    Reaches code ⟨codePc base k, r, m⟩ ⟨codePc base j, r.set rd (codePc base (k + 1)), m⟩ := by
  have he : Instr.effect r (codePc base k) (.jal rd imm) =
      { write := some (rd, codePc base (k + 1)), jump := some (codePc base j) } := by
    rw [Instr.effect, codePc_add base k hj, codePc_succ]
  refine h.reaches hi trivial he (fun t htt => ?_) rfl rfl
  obtain rfl := Option.some.inj htt
  exact codePc_aligned j h.aligned

/-- A jump to an aligned address in a register, with no offset and no link. -/
theorem jr (h : CodeAt code base is) (hi : is[k]? = some (.jr rs1)) (ha : 4 ∣ (r rs1).toNat) :
    Reaches code ⟨codePc base k, r, m⟩ ⟨r rs1, r, m⟩ := by
  have hsum : jalrSum r rs1 0#12 = r rs1 := by simp [jalrSum]
  have heven : (r rs1).getLsbD 0 = false := by
    rw [BitVec.getLsbD, Nat.testBit_zero]
    simp only [decide_eq_false_iff_not]
    omega
  have hclear : r rs1 &&& ~~~1#32 = r rs1 := by
    have hmask : ∀ i : Fin 32, (~~~1#32).getLsbD i = decide (i ≠ 0) := by decide
    apply BitVec.eq_of_getLsbD_eq
    intro i hi
    rw [BitVec.getLsbD_and, hmask ⟨i, hi⟩]
    rcases Nat.eq_zero_or_pos i with rfl | hpos
    · rw [heven, Bool.false_and]
    · simp [Fin.ext_iff, Nat.ne_of_gt hpos]
  have he : Instr.effect r (codePc base k) (.jalr 0#5 rs1 0#12) =
      { write := some (0#5, codePc base (k + 1)), jump := some (r rs1) } := by
    rw [Instr.effect, hsum, hclear, codePc_succ]
  have htarget : (Instr.jr rs1).TargetEven r := by
    change (jalrSum r rs1 0#12).getLsbD 0 = false
    rw [hsum, heven]
  have hh := h.reaches hi htarget he (fun t htt => ?_) rfl rfl (m := m)
  · simpa [State.apply] using hh
  · obtain rfl := Option.some.inj htt
    exact ha

end CodeAt

end Rv32i
