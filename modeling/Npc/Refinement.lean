import Npc.Pipeline

/-! Whole runs of the core. What it commits, its registers, its memory and its `npctrap`
calls are those of the sequential machine. -/

namespace Npc

namespace Core

section Run

variable (imem dmem : Pmem) (inp : Nat → CoreIn)

/-- The values of `csr_ex_rdata` taken in the first `n` cycles, one for each instruction that
left EX. -/
def csrOperands (n : Nat) : List Word :=
  Clocked.emitted (step imem false) (reset dmem) inp consumed n

/-- The sequential machine after `k` instructions, with the CSR operands of the first
`n` cycles. -/
def seqRun (n k : Nat) : Arch :=
  Clocked.after (seqStep imem) (archReset dmem) (csrOperands imem dmem inp n) k

def writtenBack (n : Nat) : List Word :=
  Clocked.emitted (step imem false) (reset dmem) inp retired n

def commit (s : Core) : Option Word := if s.wbu.instCpmmit then some s.wbu.commitPc else none

/-- The values of `commit_pc` in the cycles `0, ..., n` with `inst_cpmmit`. -/
def commits (n : Nat) : List Word :=
  Clocked.observed (step imem false) (reset dmem) inp commit n

/-- The call of `npctrap` at the end of a cycle: its argument and the a0 it reads. -/
def npctrap (_ : CoreIn) (s : Core) : Option (Word × Word) :=
  if s.lsu.ebreakLsuWbu then some (s.lsu.wbPc, s.regs 10#5) else none

def npctraps (n : Nat) : List (Word × Word) :=
  Clocked.emitted (step imem false) (reset dmem) inp npctrap n

theorem commits_eq_writtenBack (n : Nat) : commits imem dmem inp n = writtenBack imem dmem inp n :=
  Clocked.observed_eq_emitted _ _ _ rfl (fun _ _ => rfl) n

theorem runFrom_sim {n m : Nat} (hnm : n ≤ m) :
    Sim imem (seqRun imem dmem inp m) (csrOperands imem dmem inp n).length
      (writtenBack imem dmem inp n).length (runFrom imem dmem inp n) :=
  Clocked.retirement _ _ _ _ _ _ _ (fun A hA => sim_reset imem dmem A hA)
    (fun _ _ _ i _ h hA => h.step i hA) hnm

theorem writtenBack_succ (n : Nat) :
    writtenBack imem dmem inp (n + 1) =
      writtenBack imem dmem inp n ++ (retired (inp n) (runFrom imem dmem inp n)).toList := rfl

theorem writtenBack_eq {n m : Nat} (hnm : n ≤ m) :
    writtenBack imem dmem inp n =
      (List.range (writtenBack imem dmem inp n).length).map fun k => (seqRun imem dmem inp m k).pc := by
  apply Clocked.emitted_eq_map
  intro t ht x hx
  obtain ⟨o, hsim⟩ := runFrom_sim imem dmem inp (by omega : t ≤ m)
  rw [retired] at hx
  split_ifs at hx with hv
  exact (Option.some.inj hx).symm.trans (hsim.wbPc hv)

theorem npctraps_eq {n m : Nat} (hnm : n ≤ m) :
    npctraps imem dmem inp n =
      (List.range (writtenBack imem dmem inp n).length).filterMap fun k =>
        if (seqRun imem dmem inp m k).ebreak imem then
          some ((seqRun imem dmem inp m k).pc, (seqRun imem dmem inp m k).regs 10#5)
        else none := by
  induction n with
  | zero => rfl
  | succ n ih =>
    have hh := ih (by omega)
    obtain ⟨o, hsim⟩ := runFrom_sim imem dmem inp (by omega : n ≤ m)
    have hstep : npctraps imem dmem inp (n + 1) =
        npctraps imem dmem inp n ++ (npctrap (inp n) (runFrom imem dmem inp n)).toList := rfl
    rw [hstep, writtenBack_succ, retired, npctrap, hsim.trap, hh]
    cases hv : (runFrom imem dmem inp n).lsu.wbuValid with
    | false => simp
    | true =>
      rw [if_pos rfl, Option.toList_some, List.length_append, List.length_singleton, List.range_succ,
        List.filterMap_append, hsim.wbPc hv, hsim.regs, Bool.true_and]
      cases hb : (seqRun imem dmem inp m (writtenBack imem dmem inp n).length).ebreak imem <;>
        simp [hb]

theorem writtenBack_le (n : Nat) :
    (writtenBack imem dmem inp n).length + (runFrom imem dmem inp n).lsu.wbuValid.toNat ≤
      (csrOperands imem dmem inp n).length := by
  obtain ⟨o, hsim⟩ := runFrom_sim imem dmem inp (le_refl n)
  have hc := hsim.count
  omega

end Run

end Core

open Npc.Core

/-- The pipelined core refines its sequential reading. After any number of cycles the pcs
committed are the first pcs the sequential machine executes, the register file is that of the
sequential machine after the committed instructions, and the data memory that after the
instructions that have passed the LSU. -/
theorem core_refines_sequential (imem dmem : Pmem) (inp : Nat → CoreIn) (n : Nat) :
    let s := runFrom imem dmem inp n
    let A := seqRun imem dmem inp n
    let c := (commits imem dmem inp n).length
    commits imem dmem inp n = (List.range c).map (fun k => (A k).pc) ∧
      s.regs = (A c).regs ∧
      s.dmem = (A (c + s.lsu.wbuValid.toNat)).dmem ∧
      c + s.lsu.wbuValid.toNat ≤ (csrOperands imem dmem inp n).length := by
  intro s A c
  have hc : commits imem dmem inp n = writtenBack imem dmem inp n := commits_eq_writtenBack imem dmem inp n
  obtain ⟨o, hsim⟩ := runFrom_sim imem dmem inp (le_refl n)
  have hlen : c = (writtenBack imem dmem inp n).length := by rw [← hc]
  rw [hlen, hc]
  exact ⟨writtenBack_eq imem dmem inp (le_refl n), hsim.regs, hsim.dmem, writtenBack_le imem dmem inp n⟩

theorem Arch.ebreak_eq (imem : Pmem) (a : Arch) :
    a.ebreak imem = decide (a.inst imem = 0x00100073#32) :=
  ebreakFlag_eq _

/-- The instruction whose access LSU performs in cycle `n` is the next to commit after the edge
that ends the cycle; the one before it may commit at that edge. -/
theorem hit_next_commit (imem dmem : Pmem) (inp : Nat → CoreIn) (n : Nat)
    (h : (runFrom imem dmem inp n).hit (inp n) = true) :
    let k := (commits imem dmem inp (n + 1)).length
    k < (csrOperands imem dmem inp n).length ∧
      (runFrom imem dmem inp n).exLsu.pc = (seqRun imem dmem inp n k).pc := by
  intro k
  obtain ⟨o, hsim⟩ := runFrom_sim imem dmem inp (le_refl n)
  have hk : k = (writtenBack imem dmem inp n).length + (runFrom imem dmem inp n).lsu.wbuValid.toNat := by
    change (commits imem dmem inp (n + 1)).length = _
    rw [commits_eq_writtenBack, writtenBack_succ, List.length_append, retired]
    cases (runFrom imem dmem inp n).lsu.wbuValid <;> rfl
  cases o with
  | none =>
    obtain ⟨hw, hv, -⟩ := hsim.outstanding
    simp [Core.hit, cacheLsuHit, cacheReq, hw, hv] at h
  | some q =>
    have hc := hsim.count
    rw [hk]
    exact ⟨by simp at hc; omega, (hsim.executes q rfl).pc⟩

/-- The verdict is precise. The calls of `npctrap` at the first `n` clock edges are, one each
and in order, those of the ebreaks among the instructions the sequential machine has
completed by then, with the pc of the ebreak and the a0 it is reached with. -/
theorem npctraps_sequential (imem dmem : Pmem) (inp : Nat → CoreIn) (n : Nat) :
    let A := seqRun imem dmem inp n
    let c := (writtenBack imem dmem inp n).length
    npctraps imem dmem inp n =
        (List.range c).filterMap (fun k =>
          if (A k).inst imem = 0x00100073#32 then some ((A k).pc, (A k).regs 10#5) else none) ∧
      c ≤ (csrOperands imem dmem inp n).length ∧
      (commits imem dmem inp n).length = c := by
  intro A c
  refine ⟨?_, ?_, by rw [commits_eq_writtenBack]⟩
  · have hh := npctraps_eq imem dmem inp (le_refl n)
    simpa only [Arch.ebreak_eq, decide_eq_true_eq] using hh
  · have hh := writtenBack_le imem dmem inp n
    omega

end Npc
