import Npc.Csr
import Npc.Lanes
import Npc.Lfsr
import Npc.Progress

/-! The 40-cycle loop of `exec_one_inst` over the core with its cache. An access stays pending
as long as the shift register misses; a core with no access pending commits in a few cycles.
So the loop panics when a miss run is long enough, and the register has such runs. -/

namespace Npc

structure SimTop where
  top : Top
  lfsr : BitVec 32

namespace SimTop

def step (imem : Pmem) (rst : Bool) (t : SimTop) : SimTop where
  top := t.top.step imem rst (lfsrHit t.lfsr)
  lfsr := lfsrNext rst t.lfsr

def reset (dmem : Pmem) : SimTop := ⟨Top.reset dmem, lfsrReset⟩

def cacheValid (t : SimTop) : Bool := (cacheReq t.top.core.lsu t.top.core.exLsu).valid

def hit (t : SimTop) : Bool := t.top.core.hit (t.top.coreIn (lfsrHit t.lfsr))

def instCpmmit (t : SimTop) : Bool := t.top.core.wbu.instCpmmit

/-- The loop of `exec_one_inst`, left with `none` at the panic. -/
def execLoop (imem : Pmem) : Nat → SimTop → Option SimTop
  | 0, _ => none
  | n + 1, t =>
    let t' := t.step imem false
    if t'.instCpmmit then some t' else execLoop imem n t'

def execOneInst (imem : Pmem) (t : SimTop) : Option SimTop := execLoop imem 40 t

def execCalls (imem : Pmem) : Nat → SimTop → Option SimTop
  | 0, t => some t
  | n + 1, t => (execOneInst imem t).bind (execCalls imem n)

theorem iterate_step_lfsr (imem : Pmem) (t : SimTop) (n : Nat) :
    ((step imem false)^[n] t).lfsr = (lfsrNext false)^[n] t.lfsr := by
  induction n generalizing t with
  | zero => rfl
  | succ n ih => rw [Function.iterate_succ_apply, ih, Function.iterate_succ_apply]; rfl

def CommitsWithin (imem : Pmem) (n : Nat) (t : SimTop) : Prop :=
  ∃ k, 1 ≤ k ∧ k ≤ n ∧ ((step imem false)^[k] t).instCpmmit = true

/-- A call of `exec_one_inst` starts `m` cycles after `t`: at first, and at every commit. -/
def CallStart (imem : Pmem) (t : SimTop) (m : Nat) : Prop :=
  m = 0 ∨ ((step imem false)^[m] t).instCpmmit = true

section Loop

variable {imem : Pmem}

theorem commitsWithin_succ {n : Nat} {t : SimTop} :
    CommitsWithin imem (n + 1) t ↔
      (t.step imem false).instCpmmit = true ∨ CommitsWithin imem n (t.step imem false) := by
  constructor
  · rintro ⟨k, h1, hk, hc⟩
    obtain ⟨k, rfl⟩ := Nat.exists_eq_add_of_le' h1
    rw [Function.iterate_succ_apply] at hc
    cases k with
    | zero => exact Or.inl hc
    | succ k => exact Or.inr ⟨k + 1, by omega, by omega, hc⟩
  · rintro (hc | ⟨k, h1, hk, hc⟩)
    · exact ⟨1, le_refl 1, by omega, hc⟩
    · exact ⟨k + 1, by omega, by omega, by rwa [Function.iterate_succ_apply]⟩

theorem execLoop_isSome_iff {n : Nat} {t : SimTop} :
    (execLoop imem n t).isSome = true ↔ CommitsWithin imem n t := by
  induction n generalizing t with
  | zero =>
    refine iff_of_false (by simp [execLoop]) ?_
    rintro ⟨k, h1, hk, -⟩
    omega
  | succ n ih =>
    rw [commitsWithin_succ, execLoop]
    cases (t.step imem false).instCpmmit <;> simp [ih]

theorem execLoop_eq_some {n : Nat} {t t' : SimTop} (h : execLoop imem n t = some t') :
    ∃ k, 1 ≤ k ∧ k ≤ n ∧ t' = (step imem false)^[k] t ∧ t'.instCpmmit = true := by
  induction n generalizing t with
  | zero => simp [execLoop] at h
  | succ n ih =>
    rw [execLoop] at h
    split_ifs at h with hc
    · obtain rfl := Option.some.inj h
      exact ⟨1, le_refl 1, by omega, rfl, hc⟩
    · obtain ⟨k, h1, hk, ht, hc'⟩ := ih h
      exact ⟨k + 1, by omega, by omega, by rwa [Function.iterate_succ_apply], hc'⟩

theorem commitsWithin_of_execCalls {t : SimTop} (h : ∀ n, (execCalls imem n t).isSome = true) (m : Nat) :
    CommitsWithin imem 40 ((step imem false)^[m] t) := by
  induction m using Nat.strong_induction_on generalizing t with
  | _ m ih =>
    obtain ⟨t', ht'⟩ : ∃ t', execOneInst imem t = some t' := by
      have h1 := h 1
      cases he : execOneInst imem t with
      | none => simp [execCalls, he] at h1
      | some t' => exact ⟨t', rfl⟩
    obtain ⟨k, h1, hk, rfl, hc⟩ := execLoop_eq_some ht'
    by_cases hm : k ≤ m
    · have hnext : ∀ n, (execCalls imem n ((step imem false)^[k] t)).isSome = true := by
        intro n
        have hn := h (n + 1)
        rwa [execCalls, ht', Option.bind_some] at hn
      have hh := ih (m - k) (by omega) hnext
      rwa [← Function.iterate_add_apply, Nat.sub_add_cancel hm] at hh
    · refine ⟨k - m, by omega, by omega, ?_⟩
      rwa [← Function.iterate_add_apply, Nat.sub_add_cancel (by omega)]

theorem execCalls_isSome_iff {t : SimTop} :
    (∀ n, (execCalls imem n t).isSome = true) ↔
      ∀ m, CallStart imem t m → CommitsWithin imem 40 ((step imem false)^[m] t) := by
  constructor
  · exact fun h m _ => commitsWithin_of_execCalls h m
  · intro h n
    induction n generalizing t with
    | zero => rfl
    | succ n ih =>
      obtain ⟨t', ht'⟩ := Option.isSome_iff_exists.mp (execLoop_isSome_iff.mpr (h 0 (Or.inl rfl)))
      obtain ⟨k, -, -, rfl, hc⟩ := execLoop_eq_some ht'
      have hcall : execOneInst imem t = some ((step imem false)^[k] t) := ht'
      rw [execCalls, hcall]
      refine ih fun m hm => ?_
      have hstart : CallStart imem t (m + k) := by
        refine Or.inr ?_
        rw [Function.iterate_add_apply]
        rcases hm with rfl | hm
        · exact hc
        · exact hm
      rw [← Function.iterate_add_apply]
      exact h (m + k) hstart

end Loop

end SimTop

open SimTop

structure Pending where
  t : SimTop
  q : ExLsu
  outstanding : Outstanding t.top.core.lsu t.top.core.exLsu (some q)
  memory : q.ctrl ≠ 0#2

namespace Pending

variable (imem : Pmem) (p : Pending)

theorem hit_eq : p.t.hit = lfsrHit p.t.lfsr := by
  obtain ⟨hq, ⟨hw, hx⟩ | ⟨hw, -⟩⟩ := p.outstanding
  · have hm := p.memory
    rw [← hx] at hq hm
    simp [SimTop.hit, Core.hit, Top.coreIn, cacheLsuHit, cacheReq, hq.valid, hm]
  · simp [SimTop.hit, Core.hit, Top.coreIn, cacheLsuHit, cacheReq, hw]

theorem miss (h : lfsrHit p.t.lfsr = false) :
    ∃ p' : Pending, p'.t = p.t.step imem false ∧ p'.t.top.core.lsu.wbuValid = false := by
  have hserved : served (p.t.top.coreIn (lfsrHit p.t.lfsr)).cacheHit (some p.q) = false := by
    simp [served, p.memory, Top.coreIn, h]
  obtain ⟨q, hq, hmiss⟩ := p.outstanding.miss hserved p.t.top.core.dmem
  obtain rfl : p.q = q := Option.some.inj hq
  have hr : p.t.top.core.exIdReady (p.t.top.coreIn (lfsrHit p.t.lfsr)) = false :=
    p.outstanding.ready.trans hserved
  have hx : (p.t.step imem false).top.core.exLsu = p.q ∨ (p.t.step imem false).top.core.exLsu.IsEmpty := by
    have hstep : (p.t.step imem false).top.core.exLsu =
        if p.t.top.core.idEx.valid then p.t.top.core.exLsu else exLsuEmpty p.t.top.core.exLsu.pc := by
      cases hv : p.t.top.core.idEx.valid <;>
        simp [SimTop.step, Top.step, Core.step, exLsuNext, hr, hv]
    rw [hstep]
    split_ifs
    · obtain ⟨-, ⟨-, hx⟩ | ⟨-, -, -, hx⟩⟩ := p.outstanding
      · exact Or.inl hx
      · exact hx
    · exact Or.inr ⟨rfl, rfl⟩
  exact ⟨⟨_, p.q, hmiss.outstanding p.outstanding.1 hx, p.memory⟩, rfl, hmiss.valid⟩

theorem wbuValid_of_hit (h : lfsrHit p.t.lfsr = true) :
    (p.t.step imem false).top.core.lsu.wbuValid = true := by
  have hserved : served (p.t.top.coreIn (lfsrHit p.t.lfsr)).cacheHit (some p.q) = true := by
    simp [served, Top.coreIn, h]
  exact (p.outstanding.serve hserved p.t.top.core.dmem).valid

theorem exists_hit_iff (n : Nat) :
    (∃ i < n, ((SimTop.step imem false)^[i] p.t).hit = true) ↔
      ∃ i < n, lfsrHit ((lfsrNext false)^[i] p.t.lfsr) = true := by
  induction n generalizing p with
  | zero => simp
  | succ n ih =>
    rw [Nat.exists_lt_succ_left, Nat.exists_lt_succ_left]
    cases h : lfsrHit p.t.lfsr with
    | true => simp [p.hit_eq, h]
    | false =>
      obtain ⟨p', hp', -⟩ := p.miss imem h
      have hh := ih p'
      have hl : (p.t.step imem false).lfsr = lfsrNext false p.t.lfsr := rfl
      rw [hp', hl] at hh
      simpa [p.hit_eq, h, Function.iterate_succ_apply] using hh

theorem commitsWithin_iff (n : Nat) (hw : p.t.top.core.lsu.wbuValid = false) :
    CommitsWithin imem (n + 1) p.t ↔ ∃ i < n, lfsrHit ((lfsrNext false)^[i] p.t.lfsr) = true := by
  induction n generalizing p with
  | zero =>
    refine iff_of_false ?_ (by simp)
    rintro ⟨k, h1, hk, hc⟩
    obtain rfl : k = 1 := by omega
    exact Bool.false_ne_true (hw.symm.trans hc)
  | succ n ih =>
    have hc : (p.t.step imem false).instCpmmit = false := hw
    rw [commitsWithin_succ, hc, Nat.exists_lt_succ_left]
    cases h : lfsrHit p.t.lfsr with
    | true =>
      have hc' : ((p.t.step imem false).step imem false).instCpmmit = true := p.wbuValid_of_hit imem h
      refine iff_of_true (Or.inr ?_) (Or.inl h)
      exact commitsWithin_succ.mpr (Or.inl hc')
    | false =>
      obtain ⟨p', hp', hw'⟩ := p.miss imem h
      have hh := ih p' hw'
      have hl : (p.t.step imem false).lfsr = lfsrNext false p.t.lfsr := rfl
      rw [hp', hl] at hh
      simpa [h, Function.iterate_succ_apply] using hh

end Pending

/-- No commit in the `d` cycles after `t`, and at their end an access is pending with nothing to
write back. -/
structure Waits (imem : Pmem) (t : SimTop) (d : Nat) : Prop where
  quiet : ∀ k, 1 ≤ k → k ≤ d → ((SimTop.step imem false)^[k] t).instCpmmit = false
  cacheValid : ((SimTop.step imem false)^[d] t).cacheValid = true
  wbuValid : ((SimTop.step imem false)^[d] t).top.core.lsu.wbuValid = false

section Waits

variable {imem dmem : Pmem} {t : SimTop}

theorem exists_pending (h : Core.Reachable imem dmem t.top.core) (hv : t.cacheValid = true) :
    ∃ p : Pending, p.t = t := by
  obtain ⟨A, e, c, o, hp⟩ := h.sim
  obtain ⟨q, rfl, hq⟩ := hp.outstanding.cache_valid_iff.mp hv
  exact ⟨⟨t, q, hp.outstanding, hq⟩, rfl⟩

theorem reachable_iterate (h : Core.Reachable imem dmem t.top.core) (n : Nat) :
    Core.Reachable imem dmem ((SimTop.step imem false)^[n] t).top.core := by
  induction n with
  | zero => exact h
  | succ n ih =>
    rw [Function.iterate_succ_apply']
    exact ih.step _

theorem commitsWithin_or_waits (h : Core.Reachable imem dmem t.top.core) :
    CommitsWithin imem 5 t ∨ ∃ d ≤ 5, Waits imem t d := by
  let waiting := fun t : SimTop => t.cacheValid = true ∧ t.top.core.lsu.wbuValid = false
  by_cases hw : waiting t
  · exact Or.inr ⟨0, by omega, fun k h1 hk => by omega, hw.1, hw.2⟩
  have hstep : ∀ t : SimTop, Core.Reachable imem dmem t.top.core ∧ ¬ waiting t →
      ((t.step imem false).instCpmmit = true ∨ waiting (t.step imem false)) ∨
        (Core.Reachable imem dmem (t.step imem false).top.core ∧ ¬ waiting (t.step imem false)) ∧
          (t.step imem false).top.core.lag < t.top.core.lag := by
    rintro t ⟨hr, hnw⟩
    by_cases hw' : waiting (t.step imem false)
    · exact Or.inl (Or.inr hw')
    cases hv : t.top.core.lsu.wbuValid with
    | true => exact Or.inl (Or.inl hv)
    | false =>
      have hready : t.top.core.exIdReady (t.top.coreIn (lfsrHit t.lfsr)) = true := by
        by_contra hn
        obtain ⟨A, e, c, o, hp⟩ := hr.sim
        have hn' : t.top.core.exIdReady (t.top.coreIn (lfsrHit t.lfsr)) = false := by simpa using hn
        exact hnw ⟨hp.outstanding.cache_valid hn', hv⟩
      rcases hr.lag_step hready with hc | hlt
      · exact Or.inl (Or.inl hc)
      · exact Or.inr ⟨⟨hr.step _, hw'⟩, hlt⟩
  obtain ⟨k, h1, hk, hg⟩ := Clocked.exists_run_of_rank (fun _ : Unit => SimTop.step imem false) t
    (fun _ => ()) (fun t => t.instCpmmit = true ∨ waiting t) (fun t => t.top.core.lag) ⟨h, hw⟩
    (fun _ => hstep)
  rw [Clocked.run_eq_iterate] at hg
  have hlag := t.top.core.lag_le
  -- the first such cycle
  have hex : ∃ k, 1 ≤ k ∧ (((SimTop.step imem false)^[k] t).instCpmmit = true ∨
      waiting ((SimTop.step imem false)^[k] t)) := ⟨k, h1, hg⟩
  classical
  have hle : Nat.find hex ≤ k := Nat.find_min' hex ⟨h1, hg⟩
  obtain ⟨h1', hg'⟩ := Nat.find_spec hex
  cases hc : ((SimTop.step imem false)^[Nat.find hex] t).instCpmmit with
  | true => exact Or.inl ⟨Nat.find hex, h1', by omega, hc⟩
  | false =>
    have hwait := hg'.resolve_left (by simp [hc])
    refine Or.inr ⟨Nat.find hex, by omega, fun j hj hjd => ?_, hwait.1, hwait.2⟩
    rcases Nat.lt_or_eq_of_le hjd with hlt | rfl
    · by_contra hn
      exact Nat.find_min hex hlt ⟨hj, Or.inl (by simpa using hn)⟩
    · exact hc

theorem Waits.commitsWithin_iff {d n : Nat} (h : Waits imem t d) :
    CommitsWithin imem (n + 1) t ↔ CommitsWithin imem (n + 1 - d) ((SimTop.step imem false)^[d] t) := by
  constructor
  · rintro ⟨k, h1, hk, hc⟩
    have hd : d < k := by
      by_contra hn
      rw [h.quiet k h1 (by omega)] at hc
      cases hc
    refine ⟨k - d, by omega, by omega, ?_⟩
    rwa [← Function.iterate_add_apply, Nat.sub_add_cancel (by omega)]
  · rintro ⟨k, h1, hk, hc⟩
    exact ⟨k + d, by omega, by omega, by rwa [Function.iterate_add_apply]⟩

theorem commitsWithin_forty_iff (hr : Core.Reachable imem dmem t.top.core) :
    CommitsWithin imem 40 t ↔
      ∀ d ≤ 5, Waits imem t d → ZeroPattern (39 - d) ((SimTop.step imem false)^[d] t).lfsr := by
  have hone : ∀ d ≤ 5, Waits imem t d →
      (CommitsWithin imem 40 t ↔ ZeroPattern (39 - d) ((SimTop.step imem false)^[d] t).lfsr) := by
    intro d hd5 hd
    obtain ⟨p, hp⟩ := exists_pending (reachable_iterate hr d) hd.cacheValid
    have hw := hd.wbuValid
    rw [← hp] at hw
    rw [hd.commitsWithin_iff, ← exists_lfsrHit_iff (by omega), ← hp, show 39 + 1 - d = 39 - d + 1 by omega,
      p.commitsWithin_iff imem _ hw]
  constructor
  · exact fun hc d hd5 hd => (hone d hd5 hd).mp hc
  · intro h
    rcases commitsWithin_or_waits hr with ⟨k, h1, hk, hc⟩ | ⟨d, hd5, hd⟩
    · exact ⟨k, h1, by omega, hc⟩
    · exact (hone d hd5 hd).mpr (h d hd5 hd)

end Waits

/-- The cache answers a pending access within 40 cycles exactly when the register has the zero
pattern. In a run from reset no call of `exec_one_inst` panics exactly when, wherever a call starts
and an access waits within five cycles without a commit, the register has it in the cycles left of
the 40. -/
theorem watchdog_iff (imem dmem : Pmem) :
    (∀ p : Pending, (∃ i < 40, ((SimTop.step imem false)^[i] p.t).hit = true) ↔ ZeroPattern 40 p.t.lfsr) ∧
      ((∀ n, (execCalls imem n (SimTop.reset dmem)).isSome = true) ↔
        ∀ m, CallStart imem (SimTop.reset dmem) m → ∀ d ≤ 5,
          Waits imem ((SimTop.step imem false)^[m] (SimTop.reset dmem)) d →
            ZeroPattern (39 - d) ((SimTop.step imem false)^[m + d] (SimTop.reset dmem)).lfsr) := by
  have hr : Core.Reachable imem dmem (SimTop.reset dmem).top.core := ⟨fun _ => ⟨false, 0#32⟩, 0, rfl⟩
  constructor
  · intro p
    rw [p.exists_hit_iff imem 40, exists_lfsrHit_iff (by omega)]
  · rw [execCalls_isSome_iff]
    refine forall₂_congr fun m _ => ?_
    rw [commitsWithin_forty_iff (reachable_iterate hr m)]
    simp only [← Function.iterate_add_apply, Nat.add_comm]

/-- `lui x1, 0x80100` and stores of x0 at x1. -/
def storeLoop : Pmem := image (0x801000b7#32 :: List.replicate 60000 0x0000a023#32)

/-- The instruction in ID/EX is store `k` of the program, and the one before is in the LSU. -/
structure Storing (k : Nat) (s : Core) : Prop where
  inEx : InEx storeLoop s (0x80000000#32 + BitVec.ofNat 32 (4 * k))
  outstanding : ∃ q, Outstanding s.lsu s.exLsu (some q) ∧ q.ctrl = 2#2

theorem imemRdata_storeLoop {k : Nat} (h1 : 1 ≤ k) (hk : k ≤ 60000) :
    imemRdata storeLoop (0x80000000#32 + BitVec.ofNat 32 (4 * k)) = 0x0000a023#32 := by
  obtain ⟨k, rfl⟩ := Nat.exists_eq_add_of_le' h1
  rw [storeLoop, imemRdata, paddrRead_image _ (by omega), List.getD_cons_succ, List.getD_eq_getElem?_getD,
    List.getElem?_replicate, if_pos (by omega), Option.getD_some]

theorem Storing.step {k : Nat} {s : Core} (h : Storing k s) (h1 : 1 ≤ k) (hk : k ≤ 60000) (i : CoreIn) :
    Storing k (s.step storeLoop false i) ∨ Storing (k + 1) (s.step storeLoop false i) := by
  obtain ⟨q, ho, hq⟩ := h.outstanding
  have hid := h.inEx.idEx
  have hd : s.idEx.toDecoded = decodeInst 0x0000a023#32 := by
    rw [hid, idExOf, imemRdata_storeLoop h1 hk]
  have hv : s.idEx.valid = true := by rw [hid]; rfl
  have hr : s.exIdReady i = served i.cacheHit (some q) := ho.ready
  cases hs : served i.cacheHit (some q) with
  | false =>
    have hr' : s.exIdReady i = false := hr.trans hs
    obtain ⟨q', hq', hmiss⟩ := ho.miss hs s.dmem
    obtain rfl : q = q' := Option.some.inj hq'
    have hidx := Core.step_idEx_hold storeLoop hr'
    refine Or.inl ⟨?_, q, hmiss.outstanding ho.1 ?_, hq⟩
    · exact ((front_of_inEx h.inEx).step_hold hr').inEx (by rw [hidx, hv])
    · rw [Pipe.step_exLsu_hold storeLoop hv hr']
      obtain ⟨-, ⟨-, hx⟩ | ⟨-, -, -, hx⟩⟩ := ho
      · exact Or.inl hx
      · exact hx
  | true =>
    have hr' : s.exIdReady i = true := hr.trans hs
    have hj : s.idEx.jEn = false := by rw [hd]; decide
    have hf : s.exGlbFlush i = false := by simp [Core.exGlbFlush, jTaken, hj]
    have hwe : s.idEx.lsuWe = true := by rw [hd]; decide
    have hst : s.stall false i = false := by simp [Core.stall, idGlbStall, loadUseHazard, idExIsLoad, hwe]
    have hpc : 0x80000000#32 + BitVec.ofNat 32 (4 * k) + 4#32 =
        0x80000000#32 + BitVec.ofNat 32 (4 * (k + 1)) := by
      rw [BitVec.add_assoc, Nat.mul_add, BitVec.ofNat_add]
    have hnext := h.inEx.next (by simp [Decoded.uncondJump, hj])
    rw [hpc] at hnext
    refine Or.inr ⟨hnext.accept hf hst hr', s.nextExLsu i, ⟨?_, Or.inl ⟨?_, ?_⟩⟩, ?_⟩
    · rw [Core.nextExLsu, hd]
      exact payload_isRequest _ _ _ _ _
    · exact (ho.serve hs s.dmem).idle
    · exact Pipe.step_exLsu_leave storeLoop hv hr'
    · rw [Core.nextExLsu, hd]
      rfl

theorem storing (n : Nat) (hn : n ≤ 59998) :
    ∃ k, 1 ≤ k ∧ k ≤ n + 2 ∧
      Storing k ((SimTop.step storeLoop false)^[n + 4] (SimTop.reset storeLoop)).top.core := by
  induction n with
  | zero =>
    refine ⟨2, by omega, by omega, ⟨by decide +kernel, fun _ => ⟨?_, ?_, ?_, ?_⟩⟩,
      ((SimTop.step storeLoop false)^[4] (SimTop.reset storeLoop)).top.core.exLsu,
      ⟨⟨?_, ?_, ?_, ?_⟩, Or.inl ⟨?_, rfl⟩⟩, ?_⟩
    all_goals decide +kernel
  | succ n ih =>
    obtain ⟨k, h1, hk, h⟩ := ih (by omega)
    rw [Nat.add_right_comm, Function.iterate_succ_apply']
    rcases h.step h1 (by omega) _ with h | h
    · exact ⟨k, h1, by omega, h⟩
    · exact ⟨k + 1, by omega, by omega, h⟩

/-- The stores of the program wait for the cache wherever the register starts 40 misses. -/
theorem storeLoop_misses {n : Nat} (h4 : 4 ≤ n) (hn : n ≤ 60002)
    (hz : ¬ ZeroPattern 40 ((lfsrNext false)^[n] lfsrReset)) :
    let t := (SimTop.step storeLoop false)^[n] (SimTop.reset storeLoop)
    t.cacheValid = true ∧ (¬ ∃ i < 40, ((SimTop.step storeLoop false)^[i] t).hit = true) ∧
      ¬ ∀ n, (execCalls storeLoop n (SimTop.reset storeLoop)).isSome = true := by
  intro t
  have hl : t.lfsr = (lfsrNext false)^[n] lfsrReset := iterate_step_lfsr storeLoop _ n
  obtain ⟨k, -, -, hst⟩ := storing (n - 4) (by omega)
  rw [Nat.sub_add_cancel h4] at hst
  obtain ⟨q, ho, hq⟩ := hst.outstanding
  let p : Pending := ⟨t, q, ho, by rw [hq]; decide⟩
  have hmiss : ¬ ∃ i < 40, lfsrHit ((lfsrNext false)^[i] t.lfsr) = true := by
    rwa [hl, exists_lfsrHit_iff (by omega)]
  refine ⟨ho.cache_valid_iff.mpr ⟨q, rfl, p.memory⟩, ?_, ?_⟩
  · rwa [← p.exists_hit_iff storeLoop 40] at hmiss
  · intro h
    have h0 : lfsrHit t.lfsr = false := by
      by_contra hh
      exact hmiss ⟨0, by omega, by simpa using hh⟩
    obtain ⟨p', hp', hw⟩ := p.miss storeLoop h0
    -- the call under way after the first miss has 39 more to wait for
    have hc := commitsWithin_of_execCalls h (n + 1)
    rw [Function.iterate_succ_apply', show SimTop.step storeLoop false _ = p'.t from hp'.symm,
      p'.commitsWithin_iff storeLoop 39 hw, hp'] at hc
    obtain ⟨i, hi, hh⟩ := hc
    exact hmiss ⟨i + 1, by omega, by rwa [Function.iterate_succ_apply]⟩

/-- There are 40 misses in a row from the cycle 52038 on, and a call of `exec_one_inst` panics. -/
theorem storeLoop_panics :
    let t := (SimTop.step storeLoop false)^[52038] (SimTop.reset storeLoop)
    t.lfsr = lfsrMissing ∧ t.cacheValid = true ∧
      (¬ ∃ i < 40, ((SimTop.step storeLoop false)^[i] t).hit = true) ∧
      ¬ ∀ n, (execCalls storeLoop n (SimTop.reset storeLoop)).isSome = true := by
  have hz : ¬ ZeroPattern 40 ((lfsrNext false)^[52038] lfsrReset) := by
    rw [iterate_lfsrReset]
    decide +kernel
  exact ⟨(iterate_step_lfsr storeLoop _ 52038).trans iterate_lfsrReset,
    storeLoop_misses (by omega) (by omega) hz⟩

end Npc
