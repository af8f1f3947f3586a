import Npc.Refinement
import Mathlib.Algebra.BigOperators.Group.Finset.Basic
import Mathlib.Algebra.BigOperators.Intervals

/-! The cycles a run takes. An instruction costs one cycle in EX, a bubble in front of the user
of a load and two behind a taken jump; the rest are the misses of the cache and the two
cycles in which the front end fills. -/

namespace Npc

/-- The instruction of `b`, which follows that of `a`, reads the register `a` loads. -/
def Arch.loadUse (imem : Pmem) (a b : Arch) : Bool :=
  loadUseHazard true (b.inst imem) (idExOf imem a.pc)

/-- The cycles from an instruction in EX to its successor there, misses apart. -/
def Arch.cycles (imem : Pmem) (a b : Arch) : Nat :=
  if a.jTaken imem then 3 else if a.loadUse imem b then 2 else 1

namespace Core

/-- A request on the cache interface that does not hit. -/
def missed (i : CoreIn) (s : Core) : Bool := (cacheReq s.lsu s.exLsu).valid && !s.hit i

def misses (imem dmem : Pmem) (inp : Nat → CoreIn) (n : Nat) : Nat :=
  (List.range n).countP fun t => (runFrom imem dmem inp t).missed (inp t)

/-- The ready cycles until the next instruction is in ID/EX. -/
def pending (s : Core) : Nat :=
  if s.idEx.valid then 0 else if s.ifu.ifIdInstrValid then 1 else 2

end Core

section Step

variable {imem : Pmem} {A : Nat → Arch} {e c : Nat} {o : Option ExLsu} {s : Core} {i : CoreIn}

theorem Pipe.missed_eq (h : Pipe imem A e c o s) : s.missed i = !s.exIdReady i := by
  have hr := h.ready (i := i)
  have hc := h.outstanding.cache_valid_iff
  have hhit : s.hit i = (i.cacheHit && (cacheReq s.lsu s.exLsu).valid) := rfl
  rw [Core.missed, hhit, hr]
  cases hv : (cacheReq s.lsu s.exLsu).valid with
  | true =>
    obtain ⟨q, rfl, hq⟩ := hc.mp hv
    simp [served, hq]
  | false =>
    cases o with
    | none => simp [served]
    | some q =>
      have hq : q.ctrl = 0#2 := by
        by_contra hq
        have hv' := hc.mpr ⟨q, rfl, hq⟩
        simp [hv] at hv'
      simp [served, hq]

theorem Core.pending_hold (imem : Pmem) (hr : s.exIdReady i = false) :
    (s.step imem false i).pending = s.pending := by
  have hid := step_idEx_hold imem hr
  have hif := step_ifu_hold imem (exGlbFlush_of_not_ready hr) (ifReady_of_not_ready hr)
  simp [pending, hid, hif]

theorem Core.pending_fill (imem : Pmem) (hv : s.idEx.valid = false) (hr : s.exIdReady i = true) :
    (s.step imem false i).pending + 1 = s.pending := by
  have hf := exGlbFlush_of_invalid (i := i) hv
  have hst := stall_of_invalid (i := i) hv
  cases hi : s.ifu.ifIdInstrValid with
  | true =>
    have hid : (s.step imem false i).idEx.valid = true := by
      simp [Core.step, idExNext, hf, hst, hi, hr]
    simp [pending, hv, hi, hid]
  | false =>
    have hready : s.ifReady false i = true := by
      simp [ifReady, idIfInstrReady, uncondJumpInId, hst, hr, hi]
    have hif := (step_ifu_fetch imem hf hready).valid
    have hid : (s.step imem false i).idEx.valid = false := by
      simp [Core.step, idExNext, hf, hst, hi, hv]
    simp [pending, hv, hi, hif, hid]

theorem Pipe.flush_eq (h : Pipe imem A e c o s) (hv : s.idEx.valid = true)
    (hr : s.exIdReady i = true) : s.exGlbFlush i = (A e).jTaken imem := by
  rw [Core.exGlbFlush, hv, hr, Bool.true_and, Bool.true_and, h.idEx_decoded hv]
  exact (h.agree hv).jTaken

/-- What an instruction that leaves EX keeps its successor from it, in cycles. -/
theorem Pipe.pending_leave (h : Pipe imem A e c o s) (hv : s.idEx.valid = true)
    (hr : s.exIdReady i = true) (hA : A (e + 1) = seqStep imem i.csrExRdata (A e)) :
    (s.step imem false i).pending + 1 = (A e).cycles imem (A (e + 1)) := by
  have hin := h.front.inEx hv
  have hflush := h.flush_eq hv hr
  cases hf : s.exGlbFlush i with
  | true =>
    have hid := Core.step_idEx_flush imem hf
    have hif := (Core.step_ifu_flush imem hf).1
    rw [hf] at hflush
    simp [Core.pending, Arch.cycles, hid, hif, ← hflush, IdEx.bubble]
  | false =>
    have hfet := hin.next (uncondJump_of_no_flush hv hr hf)
    rw [hf] at hflush
    have hpc : (A (e + 1)).pc = (A e).pc + 4#32 := by
      simp [hA, seqStep, ← hflush]
    have hst : s.stall false i = (A e).loadUse imem (A (e + 1)) := by
      rw [Core.stall, idGlbStall, hfet.valid, hfet.instr, hr, Arch.loadUse, Arch.inst, hpc, hin.idEx]
      simp
    cases hs : s.stall false i with
    | true =>
      have hid := Core.step_idEx_stall imem hf hs
      have hready : s.ifReady false i = false := by simp [Core.ifReady, idIfInstrReady, hs]
      have hif := Core.step_ifu_hold imem hf hready
      rw [hs] at hst
      simp [Core.pending, Arch.cycles, hid, hif, hfet.valid, ← hflush, ← hst, IdEx.bubble]
    | false =>
      have hid : (s.step imem false i).idEx.valid = true := by
        rw [(hfet.accept hf hs hr).idEx]
        rfl
      rw [hs] at hst
      simp [Core.pending, Arch.cycles, hid, ← hflush, ← hst]

end Step

namespace Core

variable (imem dmem : Pmem) (inp : Nat → CoreIn)

theorem misses_succ (n : Nat) :
    misses imem dmem inp (n + 1) =
      misses imem dmem inp n + ((runFrom imem dmem inp n).missed (inp n)).toNat := by
  rw [misses, List.range_succ, List.countP_append, List.countP_singleton]
  cases (runFrom imem dmem inp n).missed (inp n) <;> rfl

/-- The account of the first `n` cycles, over the trace of any later one. -/
theorem account {n m : Nat} (hnm : n ≤ m) :
    n + (runFrom imem dmem inp n).pending = 2 + misses imem dmem inp n +
      ∑ k ∈ Finset.range (csrOperands imem dmem inp n).length,
        (seqRun imem dmem inp m k).cycles imem (seqRun imem dmem inp m (k + 1)) := by
  induction n with
  | zero => rfl
  | succ n ih =>
    have hh := ih (by omega)
    obtain ⟨o, hp⟩ := runFrom_sim imem dmem inp (by omega : n ≤ m)
    have hmiss := hp.missed_eq (i := inp n)
    have hops : csrOperands imem dmem inp (n + 1) = csrOperands imem dmem inp n ++
        (consumed (inp n) (runFrom imem dmem inp n)).toList := rfl
    have hrun : runFrom imem dmem inp (n + 1) = (runFrom imem dmem inp n).step imem false (inp n) := rfl
    rw [misses_succ, hmiss, hrun, hops]
    cases hr : (runFrom imem dmem inp n).exIdReady (inp n) with
    | false =>
      have hcon : consumed (inp n) (runFrom imem dmem inp n) = none := by simp [consumed, exLeaves, hr]
      have hpend := pending_hold imem hr
      simp only [hcon, Option.toList_none, List.append_nil, hpend, Bool.not_false, Bool.toNat_true]
      omega
    | true =>
      cases hv : (runFrom imem dmem inp n).idEx.valid with
      | false =>
        have hcon : consumed (inp n) (runFrom imem dmem inp n) = none := by simp [consumed, exLeaves, hv]
        have hpend := pending_fill imem hv hr
        simp only [hcon, Option.toList_none, List.append_nil, Bool.not_true, Bool.toNat_false]
        omega
      | true =>
        have hcon : consumed (inp n) (runFrom imem dmem inp n) = some (inp n).csrExRdata := by
          simp [consumed, exLeaves, hr, hv]
        have hA : seqRun imem dmem inp m ((csrOperands imem dmem inp n).length + 1) =
            seqStep imem (inp n).csrExRdata
              (seqRun imem dmem inp m (csrOperands imem dmem inp n).length) := by
          apply Clocked.after_succ
          obtain ⟨t, ht⟩ := Clocked.emitted_prefix (step imem false) (reset dmem) inp consumed hnm
          have hops' : csrOperands imem dmem inp m = csrOperands imem dmem inp (n + 1) ++ t := ht.symm
          simp [hops', hops, hcon]
        have hpend := hp.pending_leave hv hr hA
        have hz : (runFrom imem dmem inp n).pending = 0 := by simp [pending, hv]
        rw [hcon, Option.toList_some, List.length_append, List.length_singleton, Finset.sum_range_succ]
        simp only [Bool.not_true, Bool.toNat_false]
        omega

end Core

open Npc.Core

/-- The cycles of a run are accounted for exactly. Of the first `n`, two fill the front end,
one goes to each miss of the cache, and each instruction that has left EX takes one, one more
if its successor uses what it loads, or two more if it jumps; `pending` of the last bubbles
are still to come. At most two instructions that have left EX are not yet committed. -/
theorem cycles_exact (imem dmem : Pmem) (inp : Nat → CoreIn) (n : Nat) :
    let A := seqRun imem dmem inp n
    let e := (csrOperands imem dmem inp n).length
    n + (runFrom imem dmem inp n).pending = 2 + misses imem dmem inp n +
        ∑ k ∈ Finset.range e, (A k).cycles imem (A (k + 1)) ∧
      (commits imem dmem inp n).length ≤ e ∧ e ≤ (commits imem dmem inp n).length + 2 := by
  intro A e
  refine ⟨account imem dmem inp (le_refl n), ?_⟩
  obtain ⟨o, hp⟩ := runFrom_sim imem dmem inp (le_refl n)
  have hcount := hp.count
  have hw := (runFrom imem dmem inp n).lsu.wbuValid.toNat_le
  have ho := o.isSome.toNat_le
  rw [commits_eq_writtenBack]
  omega

end Npc
