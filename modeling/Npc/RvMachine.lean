import Npc.ByteMemory
import Npc.Rv32i
import Mathlib.Logic.Relation

/-! A machine for RV32I: registers with x0 fixed at zero, a pc and a byte memory beside a
separate code memory. A step executes the instruction encoded at the pc; there is none where the
ISA raises an exception for a misaligned access or target. -/

namespace Rv32i

open ByteMemory

@[ext] structure RegFile where
  val : Reg → Word
  zero : val 0#5 = 0#32

instance : CoeFun RegFile fun _ => Reg → Word := ⟨RegFile.val⟩

namespace RegFile

def reset : RegFile := ⟨fun _ => 0#32, rfl⟩

def set (r : RegFile) (rd : Reg) (v : Word) : RegFile where
  val := fun a => if rd ≠ 0#5 ∧ rd = a then v else r a
  zero := by
    rw [if_neg fun h => h.1 h.2]
    exact r.zero

@[simp] theorem apply_zero (r : RegFile) : r 0#5 = 0#32 := r.zero

theorem set_apply (r : RegFile) (rd : Reg) (v : Word) (a : Reg) :
    r.set rd v a = if rd ≠ 0#5 ∧ rd = a then v else r a := rfl

end RegFile

structure State where
  pc : Word
  regs : RegFile
  mem : Mem 32

def Width.bytes : Width → Nat
  | .byte => 1
  | .half => 2
  | .word => 4

def LoadAccess.value (m : Mem 32) (l : LoadAccess) : Word :=
  if l.signed then (load m l.addr l.width.bytes).signExtend 32
  else (load m l.addr l.width.bytes).setWidth 32

namespace State

def reset (mem : Mem 32) : State := ⟨0x80000000#32, .reset, mem⟩

/-- The state after an instruction with the effect `e`. -/
def apply (e : Effect) (s : State) : State where
  pc := e.jump.getD (s.pc + 4#32)
  regs :=
    let regs := e.write.elim s.regs fun w => s.regs.set w.1 w.2
    e.load.elim regs fun l => l.rd.elim regs fun rd => regs.set rd (l.value s.mem)
  mem := e.store.elim s.mem fun a => store s.mem a.addr a.width.bytes a.data

def exec (i : Instr) (s : State) : State := s.apply (i.effect s.regs s.pc)

end State

structure Effect.Aligned (e : Effect) : Prop where
  jump : ∀ t, e.jump = some t → 4 ∣ t.toNat
  load : ∀ l, e.load = some l → l.width.bytes ∣ l.addr.toNat
  store : ∀ a, e.store = some a → a.width.bytes ∣ a.addr.toNat

def fetch (code : Mem 32) (pc : Word) : Word := load code pc 4

/-- The instruction at the pc is `i`, and it raises no exception. -/
structure Legal (code : Mem 32) (i : Instr) (s : State) : Prop where
  fetched : fetch code s.pc = i.encode
  pc_aligned : 4 ∣ s.pc.toNat
  even : i.TargetEven s.regs
  aligned : (i.effect s.regs s.pc).Aligned

def Step (code : Mem 32) (s s' : State) : Prop := ∃ i, Legal code i s ∧ s' = s.exec i

/-- The first `n` steps of the states `T`. -/
def Trace (code : Mem 32) (T : Nat → State) (n : Nat) : Prop := ∀ k < n, Step code (T k) (T (k + 1))

abbrev Reaches (code : Mem 32) := Relation.ReflTransGen (Step code)

/-- A sequence of steps goes on with whatever its last state reaches. -/
theorem exists_extend {α : Type*} {R : α → α → Prop} {T : Nat → α} {n : Nat} {s : α}
    (h : ∀ k < n, R (T k) (T (k + 1))) (hs : Relation.ReflTransGen R (T n) s) :
    ∃ (T' : Nat → α) (m : Nat), n ≤ m ∧ (∀ k < m, R (T' k) (T' (k + 1))) ∧ (∀ k ≤ n, T' k = T k) ∧ T' m = s := by
  induction hs with
  | refl => exact ⟨T, n, le_refl n, h, fun _ _ => rfl, rfl⟩
  | @tail b c _ hstep ih =>
    obtain ⟨T', m, hnm, ht, hk, hm⟩ := ih
    refine ⟨fun k => if k ≤ m then T' k else c, m + 1, by omega, ?_, ?_, by simp⟩
    · intro k hkm
      by_cases hlt : k < m
      · simpa only [show k ≤ m by omega, show k + 1 ≤ m by omega, if_true] using ht k hlt
      · obtain rfl : k = m := by omega
        simpa only [le_refl, if_true, show ¬ k + 1 ≤ k by omega, if_false, hm] using hstep
    · intro k hkn
      simpa only [show k ≤ m by omega, if_true] using hk k hkn

theorem Trace.extend {code : Mem 32} {T : Nat → State} {n : Nat} {s : State} (h : Trace code T n)
    (hs : Reaches code (T n) s) :
    ∃ T' m, n ≤ m ∧ Trace code T' m ∧ (∀ k ≤ n, T' k = T k) ∧ T' m = s :=
  exists_extend h hs

end Rv32i
