import Npc.ByteMemory
import Npc.Memory
import Npc.Rv32i

/-! The trap entry `trap.S` and the contexts of `cte.c`, at the level of the instruction set: a hart
in machine mode with the base instructions, the four CSRs, `ecall` and `mret`. -/

namespace Npc

open ByteMemory Rv32i

namespace Am

/-- The registers, x0 among them, the memory and the CSRs. -/
structure Hart where
  gpr : Reg → Word
  pc : Word
  pmem : Pmem
  mstatus : Word
  mtvec : Word
  mepc : Word
  mcause : Word

section Instructions

inductive TrapCsr
  | mstatus | mepc | mcause
  deriving DecidableEq, Repr

inductive TrapInst
  | base (i : Instr)
  | csrr (rd : Reg) (csr : TrapCsr)
  | csrw (csr : TrapCsr) (rs1 : Reg)
  | mret

namespace Hart

def setReg (rd : Reg) (v : Word) (h : Hart) : Hart :=
  { h with gpr := fun r => if r = rd ∧ rd ≠ 0#5 then v else h.gpr r }

def csr (h : Hart) : TrapCsr → Word
  | .mstatus => h.mstatus
  | .mepc => h.mepc
  | .mcause => h.mcause

def setCsr (v : Word) (h : Hart) : TrapCsr → Hart
  | .mstatus => { h with mstatus := v }
  | .mepc => { h with mepc := v }
  | .mcause => { h with mcause := v }

end Hart

def bytes : Width → Nat
  | .byte => 1
  | .half => 2
  | .word => 4

def loadValue (m : Pmem) (a : LoadAccess) : Word :=
  if a.signed then (load m a.addr (bytes a.width)).signExtend 32
  else (load m a.addr (bytes a.width)).setWidth 32

def execBase (i : Instr) (h : Hart) : Hart :=
  let e := i.effect h.gpr h.pc
  let h' := { h with
    pc := e.jump.getD (h.pc + 4#32)
    pmem := e.store.elim h.pmem fun s => store h.pmem s.addr (bytes s.width) s.data }
  let h' := e.write.elim h' fun w => h'.setReg w.1 w.2
  e.load.elim h' fun l => l.rd.elim h' fun rd => h'.setReg rd (loadValue h.pmem l)

/-- Back to the mode and the interrupt enable before the trap. -/
def mretMstatus (s : Word) : Word := (s &&& ~~~0x88#32) ||| ((s &&& 0x80#32) >>> 4) ||| 0x80#32

/-- Interrupts off, their enable and the mode, which is machine mode, set aside. -/
def trapMstatus (s : Word) : Word := (s &&& ~~~0x88#32) ||| ((s &&& 0x8#32) <<< 4) ||| 0x1800#32

def exec (h : Hart) : TrapInst → Hart
  | .base i => execBase i h
  | .csrr rd c => { h.setReg rd (h.csr c) with pc := h.pc + 4#32 }
  | .csrw c rs1 => { h.setCsr (h.gpr rs1) c with pc := h.pc + 4#32 }
  | .mret => { h with pc := h.mepc, mstatus := mretMstatus h.mstatus }

def execAll (text : List TrapInst) (h : Hart) : Hart := text.foldl exec h

def ecall (h : Hart) : Hart :=
  { h with pc := h.mtvec, mepc := h.pc, mcause := 0xb#32, mstatus := trapMstatus h.mstatus }

end Instructions

section Text

def sp : Reg := 2#5
def t0 : Reg := 5#5
def t1 : Reg := 6#5
def t2 : Reg := 7#5
def a0 : Reg := 10#5

def regsLo16 : List Reg :=
  [1#5, 3#5, 4#5, 5#5, 6#5, 7#5, 8#5, 9#5, 10#5, 11#5, 12#5, 13#5, 14#5, 15#5]

def regsHi16 : List Reg :=
  [16#5, 17#5, 18#5, 19#5, 20#5, 21#5, 22#5, 23#5, 24#5, 25#5, 26#5, 27#5, 28#5, 29#5, 30#5, 31#5]

/-- `REGS` -/
def regs : List Reg := regsLo16 ++ regsHi16

/-- `CONTEXT_SIZE`, with `XLEN` 4 and `NR_REGS` 32. -/
def contextSize : Nat := (32 + 3 + 1) * 4

def sw (r : Reg) (offset : Nat) : TrapInst := .base (.store .sw sp r (BitVec.ofNat 12 offset))

def lw (r : Reg) (offset : Nat) : TrapInst := .base (.load .lw r sp (BitVec.ofNat 12 offset))

def addi (rd rs1 : Reg) (imm : Int) : TrapInst := .base (.opImm .addi rd rs1 (BitVec.ofInt 12 imm))

def push (n : Reg) : TrapInst := sw n (n.toNat * 4)

def pop (n : Reg) : TrapInst := lw n (n.toNat * 4)

def offsetCause : Nat := (32 + 0) * 4
def offsetStatus : Nat := (32 + 1) * 4
def offsetEpc : Nat := (32 + 2) * 4

/-- `__am_asm_trap` in front of the call. -/
def trapEntry : List TrapInst :=
  [addi sp sp (-contextSize)] ++ regs.map push ++
    [.csrr t0 .mcause, .csrr t1 .mstatus, .csrr t2 .mepc,
      sw t0 offsetCause, sw t1 offsetStatus, sw t2 offsetEpc, addi a0 sp 0]

/-- `__am_asm_trap` behind the call. -/
def trapExit : List TrapInst :=
  [addi sp a0 0, lw t1 offsetStatus, lw t2 offsetEpc, .csrw .mstatus t1, .csrw .mepc t2] ++
    regs.map pop ++ [addi sp sp contextSize, .mret]

end Text

section Handler

inductive AmEvent
  | eventYield | eventError
  deriving DecidableEq, Repr

/-- What a `user_handler` returns for an event and a context: a context, and the memory. -/
abbrev UserHandler := AmEvent → Word → Pmem → Word × Pmem

/-- The words `mcause`, `mstatus` and `mepc` of a `Context`. -/
def causeWord : Nat := 32
def statusWord : Nat := 33
def epcWord : Nat := 34

/-- `__am_irq_handle`; none when its assertion fails. -/
def amIrqHandle (userHandler : Option UserHandler) (c : Word) (m : Pmem) : Option (Word × Pmem) :=
  match userHandler with
  | none => some (c, m)
  | some handler =>
    let ev := if word m c causeWord = 0xb#32 then .eventYield else .eventError
    let m := if word m c causeWord = 0xb#32 then storeWord m c epcWord (word m c epcWord + 4#32) else m
    let r := handler ev c m
    if r.1 = 0#32 then none else some r

/-- The hart behind a call that returns in a0 and leaves `clobber` in the other registers. -/
def afterCall (clobber : Reg → Word) (r : Word × Pmem) (h : Hart) : Hart :=
  { h with
    gpr := fun x => if x = 0#5 then 0#32 else if x = a0 then r.1 else clobber x
    pmem := r.2 }

/-- `__am_asm_trap` -/
def amAsmTrap (userHandler : Option UserHandler) (clobber : Reg → Word) (h : Hart) : Option Hart :=
  let h := execAll trapEntry h
  (amIrqHandle userHandler (h.gpr a0) h.pmem).map fun r => execAll trapExit (afterCall clobber r h)

structure Area where
  start : Word
  stop : Word
  deriving DecidableEq, Repr

/-- `kcontext`: the context, and the memory with its three members set. -/
def kcontext (kstack : Area) (entry arg : Word) (m : Pmem) : Word × Pmem :=
  let cp := kstack.stop - BitVec.ofNat 32 contextSize
  (cp, storeWord (storeWord (storeWord m cp epcWord entry) cp a0.toNat arg) cp statusWord 0x1800#32)

@[simp] theorem afterCall_a0 (clobber : Reg → Word) (r : Word × Pmem) (h : Hart) :
    (afterCall clobber r h).gpr a0 = r.1 := rfl

@[simp] theorem afterCall_pmem (clobber : Reg → Word) (r : Word × Pmem) (h : Hart) :
    (afterCall clobber r h).pmem = r.2 := rfl

end Handler

section Exec

variable {h : Hart} {r rd rs1 : Reg} {rs : List Reg} {gpr : Reg → Word} {a x : Word} {m : Pmem} {i : Nat}

theorem offset_signExtend : ∀ i < 36,
    (BitVec.ofNat 12 (i * 4)).signExtend 32 = BitVec.ofNat 32 (4 * i) := by decide

theorem exec_sw (hi : i < 36) : exec h (sw r (i * 4)) =
    { h with pc := h.pc + 4#32, pmem := storeWord h.pmem (h.gpr sp) i (h.gpr r) } := by
  have hofs := offset_signExtend i hi
  simp [exec, sw, execBase, Instr.effect, Store.width, bytes, storeWord, hofs]

theorem exec_lw (hi : i < 36) : exec h (lw r (i * 4)) =
    { h.setReg r (word h.pmem (h.gpr sp) i) with pc := h.pc + 4#32 } := by
  have hofs := offset_signExtend i hi
  simp [exec, lw, execBase, Instr.effect, Load.width, Load.signed, bytes, loadValue, word, hofs,
    Hart.setReg]

theorem exec_addi (imm : Int) : exec h (addi rd rs1 imm) =
    { h.setReg rd (h.gpr rs1 + (BitVec.ofInt 12 imm).signExtend 32) with pc := h.pc + 4#32 } := rfl

theorem execAll_append (l₁ l₂ : List TrapInst) (h : Hart) :
    execAll (l₁ ++ l₂) h = execAll l₂ (execAll l₁ h) := List.foldl_append

def pushAll (rs : List Reg) (gpr : Reg → Word) (a : Word) (m : Pmem) : Pmem :=
  rs.foldl (fun m r => storeWord m a r.toNat (gpr r)) m

theorem reg_lt (r : Reg) : r.toNat < 36 := r.isLt.trans (by decide)

theorem execAll_push (rs : List Reg) (h : Hart) : ∃ pc, execAll (rs.map push) h =
    { h with pc := pc, pmem := pushAll rs h.gpr (h.gpr sp) h.pmem } := by
  induction rs generalizing h with
  | nil => exact ⟨h.pc, rfl⟩
  | cons r rs ih =>
    obtain ⟨pc, hpc⟩ := ih (exec h (push r))
    refine ⟨pc, hpc.trans ?_⟩
    rw [push, exec_sw (reg_lt r)]
    rfl

theorem pushAll_outside (hx : 144 ≤ (x - a).toNat) : pushAll rs gpr a m x = m x := by
  induction rs generalizing m with
  | nil => rfl
  | cons r rs ih => exact ih.trans (storeWord_outside (reg_lt r) (by decide) hx)

theorem word_pushAll_of_ne (hi : i < 36) (h : ∀ r ∈ rs, r.toNat ≠ i) :
    word (pushAll rs gpr a m) a i = word m a i := by
  induction rs generalizing m with
  | nil => rfl
  | cons r rs ih =>
    refine (ih fun r' hr' => h r' (List.mem_cons_of_mem _ hr')).trans ?_
    exact word_storeWord_of_ne hi (reg_lt r) (by decide) (h r List.mem_cons_self).symm

theorem word_pushAll (hr : r ∈ rs) : word (pushAll rs gpr a m) a r.toNat = gpr r := by
  induction rs generalizing m with
  | nil => cases hr
  | cons r' rs ih =>
    by_cases hin : r ∈ rs
    · exact ih hin
    · obtain rfl : r = r' := (List.mem_cons.mp hr).resolve_right hin
      have hne : ∀ r' ∈ rs, r'.toNat ≠ r.toNat := by
        intro r' hr' he
        rw [BitVec.eq_of_toNat_eq he] at hr'
        exact hin hr'
      have hself : word (storeWord m a r.toNat (gpr r)) a r.toNat = gpr r :=
        word_storeWord_self (by decide)
      exact (word_pushAll_of_ne (reg_lt r) hne).trans hself

theorem execAll_pop (h0 : 0#5 ∉ rs) (h2 : sp ∉ rs) (h : Hart) :
    ∃ pc, execAll (rs.map pop) h = { h with
      pc := pc
      gpr := fun r => if r ∈ rs then word h.pmem (h.gpr sp) r.toNat else h.gpr r } := by
  induction rs generalizing h with
  | nil => exact ⟨h.pc, by simp [execAll]⟩
  | cons r rs ih =>
    rw [List.mem_cons, not_or] at h0 h2
    obtain ⟨pc, hpc⟩ := ih h0.2 h2.2 (exec h (pop r))
    refine ⟨pc, hpc.trans ?_⟩
    rw [pop, exec_lw (reg_lt r)]
    have hr0 : r ≠ 0#5 := Ne.symm h0.1
    simp only [Hart.setReg, h2.1, if_false, hr0, ne_eq, not_false_eq_true, and_true,
      List.mem_cons]
    congr 1
    funext x
    by_cases hx : x ∈ rs
    · simp [hx]
    · by_cases hxr : x = r
      · simp [hxr]
      · simp [hx, hxr]

end Exec

section TrapText

variable {h : Hart} {r : Reg}

/-- Where the trap of a hart saves its context. -/
def framePtr (gpr : Reg → Word) : Word := gpr sp - BitVec.ofNat 32 contextSize

/-- The hart behind the entry: the context saved below its stack pointer, in 144 bytes. -/
structure Entered (h e : Hart) : Prop where
  ptr : e.gpr a0 = framePtr h.gpr
  saved : ∀ r ∈ regs, word e.pmem (framePtr h.gpr) r.toNat = h.gpr r
  cause : word e.pmem (framePtr h.gpr) causeWord = h.mcause
  epc : word e.pmem (framePtr h.gpr) epcWord = h.mepc
  outside : ∀ x, 144 ≤ (x - framePtr h.gpr).toNat → e.pmem x = h.pmem x

theorem mem_regs_iff : r ∈ regs ↔ r ≠ 0#5 ∧ r ≠ sp := by
  revert r
  decide

theorem execAll_csrs (h : Hart) : ∃ pc gpr, execAll
    [.csrr t0 .mcause, .csrr t1 .mstatus, .csrr t2 .mepc, sw t0 (32 * 4), sw t1 (33 * 4),
      sw t2 (34 * 4), addi a0 sp 0] h = { h with
        pc := pc
        gpr := gpr
        pmem := storeWord (storeWord (storeWord h.pmem (h.gpr sp) 32 h.mcause) (h.gpr sp) 33
          h.mstatus) (h.gpr sp) 34 h.mepc } ∧ gpr a0 = h.gpr sp := by
  have h32 : ∀ h r, exec h (sw r (32 * 4)) = _ := fun h r => exec_sw (by decide : 32 < 36)
  have h33 : ∀ h r, exec h (sw r (33 * 4)) = _ := fun h r => exec_sw (by decide : 33 < 36)
  have h34 : ∀ h r, exec h (sw r (34 * 4)) = _ := fun h r => exec_sw (by decide : 34 < 36)
  have haddi : ∀ h, exec h (addi a0 sp 0) = _ := fun h => exec_addi 0
  simp only [execAll, List.foldl_cons, List.foldl_nil, h32, h33, h34, haddi]
  refine ⟨_, _, rfl, ?_⟩
  simp [exec, Hart.setReg, sp, a0, t0, t1, t2]

theorem entered_trapEntry (h : Hart) : Entered h (execAll trapEntry h) := by
  let a := framePtr h.gpr
  let h1 := exec h (addi sp sp (-contextSize))
  have hsp : h1.gpr sp = a := by
    have himm : (BitVec.ofInt 12 (-contextSize)).signExtend 32 =
        -BitVec.ofNat 32 contextSize := by decide
    have hsp0 : sp ≠ 0#5 := by decide
    simp [h1, a, exec_addi, Hart.setReg, framePtr, himm, hsp0, BitVec.sub_eq_add_neg]
  have hgpr : ∀ r, r ≠ sp → h1.gpr r = h.gpr r := by
    intro r hr
    simp [h1, exec_addi, Hart.setReg, hr]
  obtain ⟨pc, hpush⟩ := execAll_push regs h1
  obtain ⟨pc', gpr, hcsrs, ha0⟩ := execAll_csrs (execAll (regs.map push) h1)
  have htext : execAll trapEntry h = execAll [.csrr t0 .mcause, .csrr t1 .mstatus, .csrr t2 .mepc,
      sw t0 (32 * 4), sw t1 (33 * 4), sw t2 (34 * 4), addi a0 sp 0]
      (execAll (regs.map push) h1) := by
    rw [trapEntry, execAll_append, execAll_append]
    rfl
  rw [htext, hcsrs, hpush]
  rw [hpush] at ha0
  simp only [hsp] at ha0 ⊢
  have hne : ∀ {i j} (v : Word) (m : Pmem), i < 36 → j < 36 → i ≠ j →
      word (storeWord m a j v) a i = word m a i := fun v m hi hj hij =>
    word_storeWord_of_ne hi hj (by decide) hij
  have hself : ∀ (m : Pmem) i (v : Word), word (storeWord m a i v) a i = v := fun m i v =>
    word_storeWord_self (by decide)
  constructor
  case ptr => exact ha0
  case saved =>
    intro r hr
    have hlt := r.isLt
    rw [hne _ _ (reg_lt r) (by decide) (by omega), hne _ _ (reg_lt r) (by decide) (by omega),
      hne _ _ (reg_lt r) (by decide) (by omega), word_pushAll hr]
    exact hgpr r (mem_regs_iff.mp hr).2
  case cause =>
    rw [causeWord, hne _ _ (by decide) (by decide) (by decide),
      hne _ _ (by decide) (by decide) (by decide), hself]
    rfl
  case epc => exact hself _ _ _
  case outside =>
    intro x hx
    dsimp only
    have hout : ∀ {i} (v : Word) (m : Pmem), i < 36 → storeWord m a i v x = m x :=
      fun v m hi => storeWord_outside hi (by decide) hx
    rw [hout _ _ (by decide), hout _ _ (by decide), hout _ _ (by decide), pushAll_outside hx]
    rfl

theorem execAll_csrws (h : Hart) :
    let e := execAll [addi sp a0 0, lw t1 (33 * 4), lw t2 (34 * 4), .csrw .mstatus t1,
      .csrw .mepc t2] h
    e.gpr sp = h.gpr a0 ∧ e.mepc = word h.pmem (h.gpr a0) 34 ∧ e.pmem = h.pmem := by
  have h33 : ∀ h r, exec h (lw r (33 * 4)) = _ := fun h r => exec_lw (by decide : 33 < 36)
  have h34 : ∀ h r, exec h (lw r (34 * 4)) = _ := fun h r => exec_lw (by decide : 34 < 36)
  have haddi : ∀ h, exec h (addi sp a0 0) = _ := fun h => exec_addi 0
  simp only [execAll, List.foldl_cons, List.foldl_nil, h33, h34, haddi]
  simp [exec, Hart.setReg, Hart.setCsr, sp, a0, t1, t2]

/-- What the exit makes of the context that a0 points to. -/
structure Left (h e : Hart) : Prop where
  pc : e.pc = word h.pmem (h.gpr a0) epcWord
  loaded : ∀ r ∈ regs, e.gpr r = word h.pmem (h.gpr a0) r.toNat
  stack : e.gpr sp = h.gpr a0 + BitVec.ofNat 32 contextSize
  pmem : e.pmem = h.pmem

theorem left_trapExit (h : Hart) : Left h (execAll trapExit h) := by
  have htext : execAll trapExit h = execAll [addi sp sp contextSize, .mret]
      (execAll (regs.map pop) (execAll [addi sp a0 0, lw t1 (33 * 4), lw t2 (34 * 4),
        .csrw .mstatus t1, .csrw .mepc t2] h)) := by
    rw [trapExit, execAll_append, execAll_append]
    rfl
  obtain ⟨hsp, hepc, hpmem⟩ := execAll_csrws h
  generalize execAll [addi sp a0 0, lw t1 (33 * 4), lw t2 (34 * 4), .csrw .mstatus t1,
    .csrw .mepc t2] h = e at htext hsp hepc hpmem
  obtain ⟨pc, hpop⟩ := execAll_pop (by decide : 0#5 ∉ regs) (by decide) e
  have himm : (BitVec.ofInt 12 contextSize).signExtend 32 = BitVec.ofNat 32 contextSize := by
    decide
  have hsp0 : sp ≠ 0#5 := by decide
  have hnot : sp ∉ regs := by decide
  rw [htext, hpop]
  simp only [execAll, List.foldl_cons, List.foldl_nil, exec_addi, himm]
  constructor
  case pc => exact hepc
  case loaded =>
    intro r hr
    have hne : r ≠ sp := (mem_regs_iff.mp hr).2
    simp [exec, Hart.setReg, hr, hne, hsp, hpmem]
  case stack => simp [exec, Hart.setReg, hsp0, hnot, hsp]
  case pmem => exact hpmem

end TrapText

end Am

end Npc
