import Npc.Monitor

/-! Whether a failed run stays failed. A step can set `npc_state` to NPC_END or NPC_ABORT; the
history says when a later writer replaces the verdict. -/

namespace Npc

namespace Event

def verdict : Event → Option RunState
  | .inst trap mismatch _ => if trap then some .npcEnd else if mismatch then some .npcAbort else none
  | .cpuExec _ => none

def isInst : Event → Bool
  | .inst .. => true
  | .cpuExec _ => false

/-- The entry replaces no verdict: a mismatch comes with neither a trap nor a triggered
watchpoint, and `cpu_exec` is not entered after an abort. -/
def Keeps : Event → Prop
  | .inst trap mismatch wpDiff => ¬ (mismatch = true ∧ (trap = true ∨ wpDiff = true))
  | .cpuExec state => state ≠ .npcAbort

/-- The state after an instruction that starts in NPC_RUNNING. -/
def after : Event → RunState
  | .inst trap mismatch wpDiff =>
    if mismatch then if wpDiff then .npcStop else .npcAbort
    else if trap then .npcEnd
    else if wpDiff then .npcStop else .npcRunning
  | .cpuExec _ => .npcRunning

theorem after_of_verdict {e : Event} {x : RunState} (h : e.verdict = some x) (hk : e.Keeps) :
    e.after = x := by
  cases e with
  | cpuExec s => simp [verdict] at h
  | inst trap mismatch wpDiff =>
    cases trap <;> cases mismatch <;> cases wpDiff <;> simp_all [verdict, after, Keeps]

theorem after_of_not_keeps {trap mismatch wpDiff : Bool} (hk : ¬ (inst trap mismatch wpDiff).Keeps) :
    ∃ x, (inst trap mismatch wpDiff).verdict = some x ∧ (inst trap mismatch wpDiff).after ≠ x := by
  cases trap <;> cases mismatch <;> cases wpDiff <;> simp_all [verdict, after, Keeps]

theorem verdict_ne {e : Event} {x : RunState} (h : e.verdict = some x) :
    x = .npcEnd ∨ x = .npcAbort := by
  cases e with
  | cpuExec s => simp [verdict] at h
  | inst trap mismatch wpDiff => cases trap <;> cases mismatch <;> simp_all [verdict]

theorem after_of_no_verdict {trap mismatch wpDiff : Bool}
    (h : (inst trap mismatch wpDiff).verdict = none) :
    (inst trap mismatch wpDiff).after = .npcRunning ∨ (inst trap mismatch wpDiff).after = .npcStop := by
  cases trap <;> cases mismatch <;> cases wpDiff <;> simp_all [verdict, after]

end Event

/-- Every verdict of the history `h` is the state `s` still, and no instruction has run since. -/
def StaysFailed (h : List Event) (s : RunState) : Prop :=
  ∀ later e earlier x, h = later ++ e :: earlier → e.verdict = some x →
    s = x ∧ ∀ e' ∈ later, e'.isInst = false

namespace StaysFailed

variable {h : List Event} {s s' : RunState} {e : Event}

theorem tail (hh : StaysFailed (e :: h) s) : StaysFailed h s := by
  intro later e' earlier x heq hv
  obtain ⟨hs, hl⟩ := hh (e :: later) e' earlier x (by rw [heq]; rfl) hv
  exact ⟨hs, fun e'' he'' => hl e'' (List.mem_cons_of_mem _ he'')⟩

theorem of_no_verdict (hh : ∀ e ∈ h, e.verdict = none) : StaysFailed h s := by
  intro later e earlier x heq hv
  have hn := hh e (by simp [heq])
  rw [hn] at hv
  cases hv

theorem cons_of_not_inst (hh : StaysFailed h s) (hi : e.isInst = false) (hv : e.verdict = none) :
    StaysFailed (e :: h) s := by
  intro later e' earlier x heq hv'
  cases later with
  | nil =>
    rw [List.nil_append, List.cons.injEq] at heq
    rw [← heq.1, hv] at hv'
    cases hv'
  | cons y later =>
    rw [List.cons_append, List.cons.injEq] at heq
    obtain ⟨hs, hl⟩ := hh later e' earlier x heq.2 hv'
    refine ⟨hs, fun e'' he'' => ?_⟩
    rcases List.mem_cons.mp he'' with rfl | he''
    · rw [← heq.1, hi]
    · exact hl e'' he''

theorem no_verdict_of_ne (hh : StaysFailed h s) (hs : s ≠ .npcEnd) (hs' : s ≠ .npcAbort) :
    ∀ e ∈ h, e.verdict = none := by
  intro e he
  cases hv : e.verdict with
  | none => rfl
  | some x =>
    obtain ⟨later, earlier, heq⟩ := List.append_of_mem he
    have hsx := (hh later e earlier x heq hv).1
    rcases Event.verdict_ne hv with rfl | rfl
    · exact absurd hsx hs
    · exact absurd hsx hs'

theorem no_verdict_of_inst (hh : StaysFailed (e :: h) s) (hi : e.isInst = true) :
    ∀ e' ∈ h, e'.verdict = none := by
  intro e' he'
  cases hv : e'.verdict with
  | none => rfl
  | some x =>
    obtain ⟨later, earlier, heq⟩ := List.append_of_mem he'
    have hl := (hh (e :: later) e' earlier x (by rw [heq]; rfl) hv).2 e (by simp)
    rw [hi] at hl
    cases hl

end StaysFailed

/-- The invariant of a history `h` and the state `s`. While every entry keeps the verdict, there
is none and the state is NPC_RUNNING or NPC_STOP, or there is one and it stands. Once an entry did
not, some verdict is lost. -/
structure VerdictInv (h : List Event) (s : RunState) : Prop where
  stands : (∀ e ∈ h, e.Keeps) →
    (∀ e ∈ h, e.verdict = none) ∧ (s = .npcRunning ∨ s = .npcStop) ∨
      (∃ e ∈ h, e.verdict = some s) ∧ StaysFailed h s
  lost : ¬ (∀ e ∈ h, e.Keeps) → ¬ StaysFailed h s

namespace VerdictInv

variable {h : List Event} {s : RunState} {e : Event}

theorem iff (hi : VerdictInv h s) : StaysFailed h s ↔ ∀ e ∈ h, e.Keeps := by
  constructor
  · intro hs
    by_contra hk
    exact hi.lost hk hs
  · intro hk
    rcases hi.stands hk with ⟨hn, -⟩ | ⟨-, hs⟩
    · exact .of_no_verdict hn
    · exact hs

theorem nil (hs : s = .npcRunning ∨ s = .npcStop) : VerdictInv [] s :=
  ⟨fun _ => Or.inl ⟨by simp, hs⟩, fun hn => absurd (by simp) hn⟩

theorem no_verdict_of_running (hi : VerdictInv h .npcRunning) (hk : ∀ e ∈ h, e.Keeps) :
    ∀ e ∈ h, e.verdict = none := by
  rcases hi.stands hk with ⟨hn, -⟩ | ⟨⟨e, -, he⟩, -⟩
  · exact hn
  · rcases Event.verdict_ne he with he | he <;> cases he

theorem inst (hi : VerdictInv h .npcRunning) (he : e.isInst = true) : VerdictInv (e :: h) e.after := by
  cases e with
  | cpuExec s => cases he
  | inst trap mismatch wpDiff =>
    constructor
    · intro hk
      have hn := hi.no_verdict_of_running fun e' he' => hk e' (List.mem_cons_of_mem _ he')
      cases hv : (Event.inst trap mismatch wpDiff).verdict with
      | none =>
        refine Or.inl ⟨fun e' he' => ?_, Event.after_of_no_verdict hv⟩
        rcases List.mem_cons.mp he' with rfl | he'
        · exact hv
        · exact hn e' he'
      | some x =>
        have ha := Event.after_of_verdict hv (hk _ (by simp))
        refine Or.inr ⟨⟨.inst trap mismatch wpDiff, by simp, by rw [hv, ha]⟩, ?_⟩
        intro later e' earlier x' heq hv'
        cases later with
        | nil =>
          rw [List.nil_append, List.cons.injEq] at heq
          rw [← heq.1, hv] at hv'
          exact ⟨ha.trans (Option.some.inj hv'), by simp⟩
        | cons y later =>
          rw [List.cons_append, List.cons.injEq] at heq
          rw [hn e' (by simp [heq.2])] at hv'
          cases hv'
    · intro hk hs
      have hn := hs.no_verdict_of_inst rfl
      by_cases hk' : ∀ e' ∈ h, e'.Keeps
      · have hke : ¬ (Event.inst trap mismatch wpDiff).Keeps := by
          intro hke
          apply hk
          intro e' he'
          rcases List.mem_cons.mp he' with rfl | he'
          · exact hke
          · exact hk' e' he'
        obtain ⟨x, hv, hne⟩ := Event.after_of_not_keeps hke
        exact hne (hs [] _ h x rfl hv).1
      · exact hi.lost hk' (.of_no_verdict hn)

theorem enter (hi : VerdictInv h s) (hs : s ≠ .npcEnd) : VerdictInv (.cpuExec s :: h) .npcRunning := by
  constructor
  · intro hk
    have hks : s ≠ .npcAbort := hk (.cpuExec s) (by simp)
    rcases hi.stands fun e he => hk e (List.mem_cons_of_mem _ he) with ⟨hn, -⟩ | ⟨⟨e, -, he⟩, -⟩
    · refine Or.inl ⟨fun e he => ?_, Or.inl rfl⟩
      rcases List.mem_cons.mp he with rfl | he
      · rfl
      · exact hn e he
    · rcases Event.verdict_ne he with rfl | rfl
      · exact absurd rfl hs
      · exact absurd rfl hks
  · intro hk hst
    have hn := hst.tail.no_verdict_of_ne (by decide) (by decide)
    by_cases hk' : ∀ e' ∈ h, e'.Keeps
    · have hks : s = .npcAbort := by
        by_contra hks
        apply hk
        intro e' he'
        rcases List.mem_cons.mp he' with rfl | he'
        · exact hks
        · exact hk' e' he'
      rcases hi.stands hk' with ⟨-, hr⟩ | ⟨⟨e, he, hv⟩, -⟩
      · rw [hks] at hr
        rcases hr with hr | hr <;> cases hr
      · rw [hn e he] at hv
        cases hv
    · exact hi.lost hk' (.of_no_verdict hn)

theorem refuse (hi : VerdictInv h s) (hs : s = .npcEnd ∨ s = .npcQuit) :
    VerdictInv (.cpuExec s :: h) s := by
  have hks : s ≠ .npcAbort := by rcases hs with rfl | rfl <;> decide
  constructor
  · intro hk
    rcases hi.stands fun e he => hk e (List.mem_cons_of_mem _ he) with ⟨-, hr⟩ | ⟨⟨e, he, hv⟩, hst⟩
    · rcases hs with rfl | rfl <;> rcases hr with hr | hr <;> cases hr
    · exact Or.inr ⟨⟨e, List.mem_cons_of_mem _ he, hv⟩, hst.cons_of_not_inst rfl rfl⟩
  · intro hk hst
    refine hi.lost (fun hk' => hk fun e he => ?_) hst.tail
    rcases List.mem_cons.mp he with rfl | he
    · exact hks
    · exact hk' e he

theorem stop (hi : VerdictInv h .npcRunning) : VerdictInv h .npcStop := by
  constructor
  · exact fun hk => Or.inl ⟨hi.no_verdict_of_running hk, Or.inr rfl⟩
  · exact fun hk hst => hi.lost hk (.of_no_verdict (hst.no_verdict_of_ne (by decide) (by decide)))

end VerdictInv

namespace Monitor

variable {μ ε ν : Type*} (cfg : Config) (exec : CpuState × μ → CpuState × μ) (expr : ε → ν → Word)
  (insts : Nat → Inst ν)

def Inv (m : Monitor μ ε) : Prop := VerdictInv m.history m.npcState.state

theorem difftestStep_state (i : Inst ν) (m : Monitor μ ε) :
    (if cfg.difftest then difftestStep exec i.regs i.pc m.difftest else m.difftest).npc.state =
      if m.mismatch cfg exec i then .npcAbort else m.npcState.state := by
  cases hd : cfg.difftest with
  | false => simp [mismatch, hd, npcState]
  | true =>
    cases hs : m.difftest.isSkipRef with
    | true => simp [mismatch, difftestStep, hs, npcState]
    | false =>
      cases hf : m.difftest.nIgnoreFirst with
      | false => simp [mismatch, difftestStep, hs, hf, npcState]
      | true =>
        cases hc : difftestCheckregs (exec m.difftest.ref).1 m.difftest.cpu i.pc <;>
          simp [mismatch, difftestStep, checkregs, hd, hs, hf, hc, npcState]

theorem traceAndDifftest_state (i : Inst ν) (m : Monitor μ ε) :
    (m.traceAndDifftest cfg exec expr i).npcState.state =
      let s := if m.mismatch cfg exec i then .npcAbort else m.npcState.state
      if m.wpDiff cfg expr i && s ≠ .npcEnd then .npcStop else s := by
  have hd := difftestStep_state cfg exec i m
  cases hw : cfg.watchpoint with
  | false => simpa [traceAndDifftest, wpDiff, npcState, hw] using hd
  | true =>
    cases hb : (scanWpDiff expr i.view m.wps).1 with
    | false => simpa [traceAndDifftest, wpDiff, npcState, hw, hb] using hd
    | true =>
      simp only [traceAndDifftest, wpDiff, hw, hb, npcState, if_true, hd]
      split_ifs <;> simp_all

theorem instStep_eq (i : Inst ν) (m : Monitor μ ε) (hm : m.npcState.state = .npcRunning) :
    ∃ trap mis wp, (m.instStep cfg exec expr i).history = .inst trap mis wp :: m.history ∧
      (m.instStep cfg exec expr i).npcState.state = (Event.inst trap mis wp).after := by
  let m' : Monitor μ ε := { m.execOnce i with nrGuestInst := m.nrGuestInst + 1 }
  have hs' : m'.npcState.state = if i.trap then .npcEnd else .npcRunning := by
    rw [← hm]
    cases ht : i.trap <;> cases hsk : i.skip <;> simp [m', execOnce, npcState, ht, hsk, npctrap, difftestSkipRef]
  refine ⟨i.trap, m'.mismatch cfg exec i, m'.wpDiff cfg expr i, ?_, ?_⟩
  · have hh : (m'.traceAndDifftest cfg exec expr i).history = m.history := by
      cases hw : cfg.watchpoint <;> simp [traceAndDifftest, hw, m', execOnce]
    rw [← hh]
    rfl
  · have hh := traceAndDifftest_state cfg exec expr i m'
    rw [hs'] at hh
    refine Eq.trans hh ?_
    cases i.trap <;> cases m'.mismatch cfg exec i <;> cases m'.wpDiff cfg expr i <;> rfl

theorem Inv.instStep {m : Monitor μ ε} (h : m.Inv) (hm : m.npcState.state = .npcRunning) (i : Inst ν) :
    (m.instStep cfg exec expr i).Inv := by
  obtain ⟨trap, mis, wp, hh, hs⟩ := instStep_eq cfg exec expr i m hm
  rw [Inv, hm] at h
  rw [Inv, hh, hs]
  exact h.inst rfl

theorem Inv.execute (n : Nat) {m : Monitor μ ε} (h : m.Inv) (hm : m.npcState.state = .npcRunning) :
    (m.execute cfg exec expr insts n).Inv := by
  induction n generalizing m with
  | zero => exact h
  | succ n ih =>
    have hstep := h.instStep cfg exec expr hm (insts m.nrGuestInst)
    rw [Monitor.execute]
    split_ifs with hr
    · exact hstep
    · exact ih hstep (by simpa using hr)

theorem Inv.cpuExec (n : Nat) {m : Monitor μ ε} (h : m.Inv) :
    ((m.record (.cpuExec m.npcState.state)).cpuExec cfg exec expr insts n).Inv := by
  have hrec : (m.record (.cpuExec m.npcState.state)).npcState = m.npcState := rfl
  rw [Monitor.cpuExec, hrec]
  dsimp only
  split_ifs with hs hr
  · exact VerdictInv.refuse h hs
  · have hrun := Inv.execute cfg exec expr insts n
      (m := (m.record (.cpuExec m.npcState.state)).setState .npcRunning)
      (VerdictInv.enter h fun he => hs (Or.inl he)) rfl
    rw [Inv, hr] at hrun
    exact hrun.stop
  · exact Inv.execute cfg exec expr insts n
      (m := (m.record (.cpuExec m.npcState.state)).setState .npcRunning)
      (VerdictInv.enter h fun he => hs (Or.inl he)) rfl

theorem Inv.handler (command : Cmd ε) {m : Monitor μ ε} (h : m.Inv) :
    (m.handler cfg exec expr insts command).Inv := by
  cases command with
  | c => exact h.cpuExec cfg exec expr insts _
  | si n => exact h.cpuExec cfg exec expr insts _
  | w e result => cases result <;> exact h
  | d no => exact h
  | x device => cases device <;> exact h
  | readOnly => exact h

theorem Inv.sdbMainloop (cmds : List (Cmd ε)) {m : Monitor μ ε} (h : m.Inv) :
    (m.sdbMainloop cfg exec expr insts (cmds.map .cmd)).Inv := by
  induction cmds generalizing m with
  | nil => exact h
  | cons command cmds ih => exact ih (h.handler cfg exec expr insts command)

theorem inv_init (d : Difftest μ) : (init d : Monitor μ ε).Inv := VerdictInv.nil (Or.inr rfl)

end Monitor

/-- A failed run stays failed exactly when no mismatch comes in one step with a trap or a
triggered watchpoint, and `c` and `si` are not issued after an abort. -/
theorem failed_run_stays_failed_iff {μ ε ν : Type*} (cfg : Config)
    (exec : CpuState × μ → CpuState × μ) (expr : ε → ν → Word) (insts : Nat → Inst ν) (d : Difftest μ)
    (cmds : List (Monitor.Cmd ε)) :
    let m := (Monitor.init d).sdbMainloop cfg exec expr insts (cmds.map .cmd)
    StaysFailed m.history m.npcState.state ↔ ∀ e ∈ m.history, e.Keeps :=
  VerdictInv.iff ((Monitor.inv_init d).sdbMainloop cfg exec expr insts cmds)

namespace Monitor

/-- Commits of a core that leaves 1 in every register, watched by their number. -/
def maskedInsts (k : Nat) : Inst Word where
  regs := fun _ => 1#32
  pc := memBase + BitVec.ofNat 32 (4 * k)
  trap := false
  skip := false
  view := BitVec.ofNat 32 k

/-- The simulator after `w` and `si 2`, the reference leaving its registers zero. -/
def maskedRun : Monitor Unit Unit :=
  (init (initDifftest (fun _ => 0#32) () ⟨.npcStop, 0#32, 1#32⟩)).sdbMainloop ⟨true, true⟩
    (fun r => (⟨r.1.gpr, r.1.pc + 4#32⟩, ())) (fun _ v => v) maskedInsts
    ([.w () (some 0#32), .si 2#32].map .cmd)

/-- The watchpoint that triggers in the step of the mismatch turns the abort into a stop. -/
theorem maskedRun_not_staysFailed :
    ¬ StaysFailed maskedRun.history maskedRun.npcState.state := by
  have hh : maskedRun.history =
      [.inst false true true, .inst false false false, .cpuExec .npcStop] := by decide +kernel
  have hs : maskedRun.npcState.state = .npcStop := by decide +kernel
  intro h
  have hx := (h [] _ _ .npcAbort hh rfl).1
  rw [hs] at hx
  cases hx

end Monitor

end Npc
