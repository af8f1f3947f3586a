import Npc.Refinement

/-! The core makes progress. A reachable state commits soon when the cache hits, LSU is
not ready only while a request is presented to the cache, and the fetch hold ends. -/

namespace Npc

namespace Core

def Reachable (imem dmem : Pmem) (s : Core) : Prop := ∃ inp n, runFrom imem dmem inp n = s

section Reachable

variable {imem dmem : Pmem} {s : Core}

theorem Reachable.step (h : Reachable imem dmem s) (i : CoreIn) :
    Reachable imem dmem (s.step imem false i) := by
  obtain ⟨inp, n, rfl⟩ := h
  refine ⟨fun t => if t = n then i else inp t, n + 1, ?_⟩
  rw [runFrom, Clocked.run_succ, Clocked.run_congr _ _ _ inp, if_pos rfl]
  · rfl
  · intro t ht
    rw [if_neg (by omega)]

theorem Reachable.sim (h : Reachable imem dmem s) : ∃ A e c, Sim imem A e c s := by
  obtain ⟨inp, n, rfl⟩ := h
  exact ⟨_, _, _, runFrom_sim imem dmem inp (le_refl n)⟩

end Reachable

/-- How far the next instruction to commit is from the write-back registers. -/
def lag (s : Core) : Nat :=
  if s.lsu.wbuValid then 0
  else if s.lsu.waiting || s.exLsu.valid then 1
  else if s.idEx.valid then 2
  else if s.ifu.ifIdInstrValid then 3
  else 4

theorem lag_le (s : Core) : s.lag ≤ 4 := by
  unfold lag
  split_ifs <;> omega

theorem Reachable.lag_step {imem dmem : Pmem} {s : Core} {i : CoreIn} (h : Reachable imem dmem s)
    (hr : s.exIdReady i = true) :
    (s.step imem false i).wbu.instCpmmit = true ∨ (s.step imem false i).lag < s.lag := by
  obtain ⟨A, e, c, o, hp⟩ := h.sim
  have hl := hp.step_lsu (hp.ready.symm.trans hr)
  cases hv : s.lsu.wbuValid with
  | true => exact Or.inl (by simp [Core.step, wbuNext, hv])
  | false =>
    right
    cases o with
    | some q =>
      have hvalid : (s.step imem false i).lsu.wbuValid = true := hl.valid
      have hq : (s.lsu.waiting || s.exLsu.valid) = true := by
        obtain ⟨hq, ⟨-, hx⟩ | ⟨hw, -⟩⟩ := hp.outstanding
        · simp [hx, hq.valid]
        · simp [hw]
      simp [lag, hvalid, hv, hq]
    | none =>
      obtain ⟨hw, hx, -⟩ := hp.outstanding
      have hnext : (s.step imem false i).lsu.wbuValid = false := hl.valid
      cases hid : s.idEx.valid with
      | true =>
        have hx' : (s.step imem false i).exLsu.valid = true := by
          rw [Pipe.step_exLsu_leave imem hid hr]
          rfl
        simp [lag, hv, hw, hx, hid, hnext, hx']
      | false =>
        have hx' : (s.step imem false i).exLsu.valid = false := by
          rw [Pipe.step_exLsu_empty imem hid]
          rfl
        have hf := exGlbFlush_of_invalid (i := i) hid
        have hst := stall_of_invalid (i := i) hid
        cases hi : s.ifu.ifIdInstrValid with
        | true =>
          have hid' : (s.step imem false i).idEx.valid = true := by
            simp [Core.step, idExNext, hf, hst, hi, hr]
          simp [lag, hv, hw, hx, hid, hi, hnext, hl.idle, hx', hid']
        | false =>
          have hready : s.ifReady false i = true := by
            simp [ifReady, idIfInstrReady, uncondJumpInId, hst, hr, hi]
          have hi' := (step_ifu_fetch imem hf hready).valid
          have hid' : (s.step imem false i).idEx.valid = false := by
            simp [Core.step, idExNext, hf, hst, hi, hid]
          simp [lag, hv, hw, hx, hid, hi, hnext, hl.idle, hx', hid', hi']

theorem Reachable.ready_of_hit {imem dmem : Pmem} {s : Core} (h : Reachable imem dmem s) (csr : Word) :
    s.exIdReady ⟨true, csr⟩ = true := by
  obtain ⟨A, e, c, o, hp⟩ := h.sim
  rw [hp.ready]
  cases o <;> simp [served]

theorem Reachable.commits {imem dmem : Pmem} {s : Core} (h : Reachable imem dmem s)
    (csr : Nat → Word) :
    ∃ k, 1 ≤ k ∧ k ≤ 5 ∧
      (Clocked.run (Core.step imem false) s (fun t => ⟨true, csr t⟩) k).wbu.instCpmmit = true := by
  obtain ⟨k, h1, hk, hg⟩ := Clocked.exists_run_of_rank (Core.step imem false) s (fun t => ⟨true, csr t⟩)
    (fun s => s.wbu.instCpmmit = true) lag h
    (fun t _ hs => (hs.lag_step (hs.ready_of_hit (csr t))).imp_right fun hlt => ⟨hs.step _, hlt⟩)
  have hh := s.lag_le
  exact ⟨k, h1, by omega, hg⟩

section Hold

variable {imem : Pmem} {i : CoreIn} {s : Core}

/-- The register-file address reaches only the ebreak, which does not jump. -/
theorem decode_uncondJump {rs1 : RegAddr} {instr : Word} (hrs1 : rs1 = 0#5 ∨ rs1 = rs1Field instr)
    (h : (decode rs1 true instr).nxt.uncondJump = true) : (decodeInst instr).uncondJump = true := by
  by_cases ho : opcode instr = instSystem
  · rw [decode_system ho] at h
    rw [decodeInst, decode_system ho]
    unfold decodeSystem at h ⊢
    split_ifs at h ⊢ <;> grind [Decoded.uncondJump, decodeDefault]
  · have hd : ∀ rs1', decode rs1' true instr = decode rs1 true instr := by
      intro rs1'
      simp [decode, ho]
    rwa [decodeInst, hd]

/-- The ready cycles a fetch hold may still take: two for a jump in IF/ID, one for it in ID/EX,
one for a load in front of its user. -/
def holdCycles (s : Core) : Nat :=
  if !s.ifu.ifIdInstrValid then 0
  else if s.idEx.valid && s.idEx.uncondJump then 1
  else (loadUseHazard true s.ifu.ifIdInstr s.idEx).toNat +
    2 * (decodeInst s.ifu.ifIdInstr).uncondJump.toNat

theorem holdCycles_le (s : Core) : s.holdCycles ≤ 3 := by
  unfold holdCycles
  have h1 := (loadUseHazard true s.ifu.ifIdInstr s.idEx).toNat_le
  have h2 := (decodeInst s.ifu.ifIdInstr).uncondJump.toNat_le
  split_ifs <;> omega

theorem uncondJump_of_decoded (hi : s.ifu.ifIdInstrValid = true)
    (hu : (s.decoded false i).nxt.uncondJump = true) :
    (decodeInst s.ifu.ifIdInstr).uncondJump = true := by
  have hrs1 : rsAddrNxt false (s.exGlbFlush i) (rs1Field s.ifu.ifIdInstr) = 0#5 ∨
      rsAddrNxt false (s.exGlbFlush i) (rs1Field s.ifu.ifIdInstr) = rs1Field s.ifu.ifIdInstr := by
    cases s.exGlbFlush i <;> simp [rsAddrNxt]
  rw [decoded, hi] at hu
  exact decode_uncondJump hrs1 hu

theorem fetch_held (hr : s.exIdReady i = true) (h : s.ifReady false i = false) :
    s.ifu.ifIdInstrValid = true ∧ (loadUseHazard true s.ifu.ifIdInstr s.idEx = true ∨
      (decodeInst s.ifu.ifIdInstr).uncondJump = true) := by
  cases hi : s.ifu.ifIdInstrValid with
  | false =>
    -- with nothing in IF/ID a ready core fetches
    simp [ifReady, idIfInstrReady, stall, idGlbStall, loadUseHazard, uncondJumpInId, hr, hi] at h
  | true =>
    refine ⟨rfl, ?_⟩
    by_contra hh
    rw [not_or, Bool.not_eq_true, Bool.not_eq_true] at hh
    have hu : (s.decoded false i).nxt.uncondJump = false := by
      by_contra hu
      simp [uncondJump_of_decoded hi (by simpa using hu)] at hh
    rw [Decoded.uncondJump] at hu
    simp [ifReady, idIfInstrReady, stall, idGlbStall, uncondJumpInId, hr, hi, hh.1, hu] at h

theorem holdCycles_pos (hi : s.ifu.ifIdInstrValid = true)
    (hheld : loadUseHazard true s.ifu.ifIdInstr s.idEx = true ∨
      (decodeInst s.ifu.ifIdInstr).uncondJump = true) : 1 ≤ s.holdCycles := by
  cases hj : s.idEx.valid && s.idEx.uncondJump with
  | true => simp [holdCycles, hi, hj]
  | false => rcases hheld with hh | hh <;> simp only [holdCycles, hi, hj, hh] <;> simp

theorem holdCycles_stall (hf : s.exGlbFlush i = false) (hr : s.exIdReady i = true)
    (h : s.ifReady false i = false) (hi : s.ifu.ifIdInstrValid = true)
    (hz : loadUseHazard true s.ifu.ifIdInstr s.idEx = true)
    (hnu : (s.idEx.valid && s.idEx.uncondJump) = false) :
    (s.step imem false i).holdCycles + 1 ≤ s.holdCycles := by
  have hst : s.stall false i = true := by simp [stall, idGlbStall, hi, hz, hr]
  have hid := step_idEx_stall imem hf hst
  have hif := step_ifu_hold imem hf h
  have hz' := loadUseHazard_of_invalid (r := .bubble s.idEx.pc) rfl true s.ifu.ifIdInstr
  have hv' : (IdEx.bubble s.idEx.pc).valid = false := rfl
  simp only [holdCycles, hid, hif, hi, hnu, hz, hz', hv', Bool.not_true, Bool.false_and,
    Bool.false_eq_true, if_false, Bool.toNat_true, Bool.toNat_false]
  omega

theorem holdCycles_jump (hf : s.exGlbFlush i = false) (hr : s.exIdReady i = true)
    (h : s.ifReady false i = false) (hi : s.ifu.ifIdInstrValid = true)
    (hz : loadUseHazard true s.ifu.ifIdInstr s.idEx = false)
    (hu : (decodeInst s.ifu.ifIdInstr).uncondJump = true)
    (hnu : (s.idEx.valid && s.idEx.uncondJump) = false) :
    (s.step imem false i).holdCycles + 1 ≤ s.holdCycles := by
  have hst : s.stall false i = false := by simp [stall, idGlbStall, hi, hz]
  have hif := step_ifu_hold imem hf h
  have hid : (s.step imem false i).idEx.valid = true ∧
      (s.step imem false i).idEx.uncondJump = true := by
    have hd := decoded_eq hf hi
    simpa [Core.step, idExNext, hf, hst, hr, hi, hd, Decoded.uncondJump] using hu
  simp [holdCycles, hid, hif, hi, hnu, hz, hu]

theorem holdCycles_step (h : s.ifReady false i = false) :
    (s.step imem false i).holdCycles + (s.exIdReady i).toNat ≤ s.holdCycles := by
  cases hr : s.exIdReady i with
  | false =>
    have hid := step_idEx_hold imem hr
    have hif := step_ifu_hold imem (exGlbFlush_of_not_ready hr) h
    simp [holdCycles, hid, hif]
  | true =>
    obtain ⟨hi, hheld⟩ := fetch_held hr h
    cases hf : s.exGlbFlush i with
    | true =>
      have hzero : (s.step imem false i).holdCycles = 0 := by
        simp [holdCycles, (step_ifu_flush imem hf).1]
      rw [hzero]
      exact holdCycles_pos hi hheld
    | false =>
      have hnu : (s.idEx.valid && s.idEx.uncondJump) = false := by
        cases hv : s.idEx.valid with
        | false => rfl
        | true => exact uncondJump_of_no_flush hv hr hf
      cases hz : loadUseHazard true s.ifu.ifIdInstr s.idEx with
      | true => exact holdCycles_stall hf hr h hi hz hnu
      | false => exact holdCycles_jump hf hr h hi hz (hheld.resolve_left (by simp [hz])) hnu

end Hold

end Core

open Npc.Core

/-- The core has no deadlock. From every reachable state some cache outcomes, all hits, make
it commit, whatever `csr_ex_rdata` is. LSU is not ready only with a request on the cache
interface. While the fetch is held, LSU is ready in at most three cycles. -/
theorem core_no_deadlock (imem dmem : Pmem) (inp : Nat → CoreIn) :
    (∀ n (csr : Nat → Word), ∃ k, 1 ≤ k ∧ k ≤ 5 ∧
      (Clocked.run (step imem false) (runFrom imem dmem inp n)
        (fun t => ⟨true, csr t⟩) k).wbu.instCpmmit = true) ∧
    (∀ n, let s := runFrom imem dmem inp n
      s.exIdReady (inp n) = false → (cacheReq s.lsu s.exLsu).valid = true) ∧
    (∀ n k, (∀ j < k, (runFrom imem dmem inp (n + j)).ifReady false (inp (n + j)) = false) →
      ((List.range k).countP fun j => (runFrom imem dmem inp (n + j)).exIdReady (inp (n + j))) ≤ 3) := by
  refine ⟨fun n csr => Reachable.commits ⟨inp, n, rfl⟩ csr, ?_, ?_⟩
  · intro n s hr
    obtain ⟨A, e, c, o, hp⟩ := (show Reachable imem dmem s from ⟨inp, n, rfl⟩).sim
    exact hp.outstanding.cache_valid hr
  · intro n k h
    have hrun : ∀ j, runFrom imem dmem inp (n + j) =
        Clocked.run (step imem false) (runFrom imem dmem inp n) (fun t => inp (n + t)) j :=
      fun j => Clocked.run_add _ _ _ n j
    simp only [hrun] at h ⊢
    have hh := Clocked.countP_le_potential (step imem false) (runFrom imem dmem inp n)
      (fun t => inp (n + t)) (fun i s => !s.ifReady false i) (fun i s => s.exIdReady i) holdCycles
      (fun i s hs => holdCycles_step (by simpa using hs)) (k := k) (fun j hj => by simpa using h j hj)
    have hb := (runFrom imem dmem inp n).holdCycles_le
    omega

end Npc
