import Npc.ExprOps
import Npc.WpScan

/-! Whether the simulator survives its watchpoints. A run goes through the commands `w` and `d`
and through instructions, each of which is followed by a scan and may leave any registers and
memory behind. -/

namespace Npc

open LinkedList

/-- The machine as an expression sees it, and the texts that earlier expressions left in `tokens`. -/
structure View where
  cpu : CpuState
  pmemRead : Word → Option Word
  stale : Nat → List Char

namespace View

section Value

variable (atoi : List Char → Word) (view : View) (e : List Char)

def expr : Except Expr.Fault (Word × Bool) := Expr.expr atoi view.pmemRead view.cpu view.stale e true

def value : Option Word :=
  match view.expr atoi e with
  | .ok (v, true) => some v
  | _ => none

/-- The string is refused as a text, or its evaluation meets no missing operand, no address that
cannot be read and no quotient that does not fit. -/
def Harmless : Prop := Expr.HarmlessText atoi view.pmemRead view.cpu view.stale e

def Computes (v : Word) (ops : List Expr.Operation) : Prop :=
  ∃ ts, Expr.makeToken view.cpu view.stale e = .ok (some ts) ∧
    Expr.Computes atoi view.pmemRead (Expr.prepass none ts) v ops

end Value

variable {atoi : List Char → Word} {view : View} {e : List Char} {v w : Word}
  {ops : List Expr.Operation}

theorem value_eq_some : view.value atoi e = some w ↔ view.expr atoi e = .ok (w, true) := by
  rw [value]
  split <;> simp_all

theorem expr_isOk_iff : (view.expr atoi e).isOk = true ↔ view.Harmless atoi e := by
  rw [Harmless, ← Expr.expr_ok_iff, expr]
  cases Expr.expr atoi view.pmemRead view.cpu view.stale e true <;> simp [Except.isOk, Except.toBool]

theorem Computes.value_iff (h : view.Computes atoi e v ops) :
    view.value atoi e = some w ↔ w = v ∧ ∀ o ∈ ops, o.Fine view.pmemRead := by
  obtain ⟨ts, hmake, hc⟩ := h
  rw [value_eq_some, ← hc.eval_iff, expr, Expr.expr, hmake]
  refine ⟨Expr.exprTokens_success, fun heval => ?_⟩
  simp only [Expr.exprTokens, heval]
  rfl

theorem computes_of_value (h : view.value atoi e = some w) (view' : View) :
    ∃ v ops, view'.Computes atoi e v ops := by
  rw [value_eq_some, expr] at h
  obtain ⟨ts, hmake, heval⟩ := Expr.expr_success h
  have hacc := (Expr.eval_accepted (Expr.exprTokens_success heval)).2
  obtain ⟨ts', hmake', htypes⟩ := Expr.makeToken_types view'.cpu view'.stale hmake
  obtain ⟨v, ops, hc⟩ := (hacc.congr (Expr.prepass_congr htypes)).computes atoi view'.pmemRead
  exact ⟨v, ops, ts', hmake', hc⟩

end View

namespace WpPool

/-- The commands `w` and `d`, and an instruction with the machine it leaves. -/
inductive WpCmd
  | w (e : List Char) (view : View)
  | d (no : BitVec 32)
  | inst (view : View)

section Commands

variable (atoi : List Char → Word)

/-- `set_new_wp`; none where an assertion fails or the evaluation does not return. The strings
that are too long are not evaluated. -/
def wCmd (view : View) (e : List Char) (p : WpPool) : Option WpPool :=
  if e.length > 31 ∨ (view.expr atoi e).isOk = true then setNewWp (view.value atoi) e p else none

/-- None when the simulator goes down. -/
def cmdStep (c : WpCmd) (p : WpPool) : Option WpPool :=
  match c with
  | .w e view => wCmd atoi view e p
  | .d no => deleteWp no p
  | .inst view => (scanWpDiff (view.value atoi) p).map Prod.snd

def cmdRun (cmds : Nat → WpCmd) (n : Nat) : Option WpPool :=
  Clocked.run (fun c p => p.bind (cmdStep atoi c)) (some initWpPool) cmds n

/-- There is no node left, the string is too long, or it has no value. -/
def Unserved (c : WpCmd) (p : WpPool) : Prop :=
  match c with
  | .w e view => p.free = none ∨ e.length > 31 ∨ view.value atoi e = none
  | _ => False

/-- The command leaves the simulator up, and the pool alone if it is a set that cannot be served. -/
def Survives (c : WpCmd) (p : Option WpPool) : Prop :=
  ∃ p₀ q, p = some p₀ ∧ cmdStep atoi c p₀ = some q ∧ (Unserved atoi c p₀ → q = p₀)

/-- What the scan evaluates has no operation that fails. It goes on while the values are those
of the last scan. -/
def ScanFine (view : View) (p : WpPool) : List WpIdx → Prop
  | [] => True
  | i :: l => ∀ v ops, view.Computes atoi (p.node i).eStr v ops →
    (∀ o ∈ ops, o.Fine view.pmemRead) ∧ (v = (p.node i).preResult → ScanFine view p l)

/-- A set finds a free node and a string that does no harm, and a scan operations that do not fail. -/
def CmdFine (c : WpCmd) (p : WpPool) : Prop :=
  match c with
  | .w e view => p.free ≠ none ∧ (e.length ≤ 31 → view.Harmless atoi e)
  | .d _ => True
  | .inst view => ∀ active, Chain p.next p.head active → ScanFine atoi view p active

/-- The lists are in order, and what the active nodes hold is accepted in every state of the machine. -/
def Watching (p : WpPool) : Prop :=
  ∃ active unused, p.Lists active unused ∧
    ∀ i ∈ active, ∀ view : View, ∃ v ops, view.Computes atoi (p.node i).eStr v ops

end Commands

variable {atoi : List Char → Word} {view : View} {p q : WpPool} {active unused l : List WpIdx}
  {start : Option WpIdx} {n : Nat} {e : List Char}

theorem wCmd_eq_some_iff : (∃ q, wCmd atoi view e p = some q) ↔
    p.free ≠ none ∧ (e.length ≤ 31 → view.Harmless atoi e) := by
  rw [wCmd, ← View.expr_isOk_iff]
  split_ifs with hok
  · cases hf : p.free with
    | none => simp [setNewWp, newWp, hf]
    | some new =>
      have hset : ∃ q, setNewWp (view.value atoi) e p = some q := by
        rw [setNewWp, newWp, hf]
        cases view.value atoi e <;> by_cases hlen : e.length > 31 <;> simp [hlen]
      refine iff_of_true hset ⟨Option.some_ne_none new, fun hle => hok.resolve_left (by omega)⟩
  · simp only [not_or] at hok
    refine iff_of_false (by simp) fun h => hok.2 (h.2 (by omega))

theorem scanFrom_iff (h : Chain p.next start l) (hn : l.length ≤ n)
    (hl : ∀ i ∈ l, ∃ v ops, view.Computes atoi (p.node i).eStr v ops) :
    (∃ r, scanFrom (view.value atoi) n start p = some r) ↔ ScanFine atoi view p l := by
  refine h.walk_induction (motive := fun n start l =>
    (∀ i ∈ l, ∃ v ops, view.Computes atoi (p.node i).eStr v ops) →
      ((∃ r, scanFrom (view.value atoi) n start p = some r) ↔ ScanFine atoi view p l)) hn ?_ ?_ hl
  · intro n _
    cases n <;> simp [scanFrom, ScanFine]
  · intro n i l _ hh hl
    have hrest := hh fun j hj => hl j (List.mem_cons_of_mem _ hj)
    obtain ⟨v, ops, hc⟩ := hl i List.mem_cons_self
    rw [scanFrom, ScanFine]
    cases hv : view.value atoi (p.node i).eStr with
    | none =>
      refine iff_of_false (by simp) fun hfine => ?_
      have hsome := hc.value_iff.mpr ⟨rfl, (hfine v ops hc).1⟩
      rw [hv] at hsome
      cases hsome
    | some w =>
      have hops : ∀ v ops, view.Computes atoi (p.node i).eStr v ops → w = v ∧ _ := fun v ops hc =>
        hc.value_iff.mp hv
      simp only
      split_ifs with hdiff
      · refine iff_of_true ⟨_, rfl⟩ fun v ops hc => ⟨(hops v ops hc).2, fun he => ?_⟩
        obtain ⟨rfl, -⟩ := hops v ops hc
        exact absurd he.symm hdiff
      · rw [hrest]
        constructor
        · exact fun hfine v ops hc => ⟨(hops v ops hc).2, fun _ => hfine⟩
        · intro hfine
          obtain ⟨rfl, -⟩ := hops v ops hc
          exact (hfine w ops hc).2 (not_not.mp hdiff).symm

theorem scanFrom_pool {f : List Char → Option Word} {b : Bool} (h : scanFrom f n start p = some (b, q)) :
    q = p ∨ ∃ i x, q = p.update (fun _ => x) i := by
  induction n generalizing start with
  | zero =>
    cases start with
    | none => exact Or.inl (Prod.mk.inj (Option.some.inj h)).2.symm
    | some i => cases h
  | succ n ih =>
    cases start with
    | none => exact Or.inl (Prod.mk.inj (Option.some.inj h)).2.symm
    | some i =>
      rw [scanFrom] at h
      cases hf : f (p.node i).eStr with
      | none => simp [hf] at h
      | some x =>
        simp only [hf] at h
        split_ifs at h
        · exact Or.inr ⟨i, x, (Prod.mk.inj (Option.some.inj h)).2.symm⟩
        · exact ih h

theorem watching_init : Watching atoi initWpPool := ⟨[], _, lists_init, by simp⟩

theorem Watching.scan (h : Watching atoi p) {f : List Char → Option Word}
    (hq : (scanWpDiff f p).map Prod.snd = some q) : Watching atoi q := by
  obtain ⟨⟨b, q'⟩, hscan, rfl⟩ := Option.map_eq_some_iff.mp hq
  obtain ⟨active, unused, hl, hmade⟩ := h
  rcases scanFrom_pool hscan with rfl | ⟨i, x, rfl⟩
  · exact ⟨active, unused, hl, hmade⟩
  · refine ⟨active, unused, update_lists (fun _ => x) hl i, fun j hj => ?_⟩
    simp only [update_eStr]
    exact hmade j hj

theorem Watching.delete (h : Watching atoi p) (no : BitVec 32) :
    ∃ q, p.deleteWp no = some q ∧ Watching atoi q := by
  obtain ⟨active, unused, hl, hmade⟩ := h
  rcases hl.delete no with ⟨-, hq⟩ | ⟨l₁, i, l₂, q, rfl, -, hq, hl', hw⟩
  · exact ⟨p, hq, active, unused, hl, hmade⟩
  · refine ⟨q, hq, l₁ ++ l₂, i :: unused, hl', fun j hj => ?_⟩
    have hstr : (q.node j).eStr = (p.node j).eStr := congrArg (fun g => (g j).eStr) hw
    rw [hstr]
    apply hmade j
    simp only [List.mem_append, List.mem_cons] at hj ⊢
    tauto

theorem Watching.set (h : Watching atoi p) (hq : setNewWp (view.value atoi) e p = some q) :
    Watching atoi q ∧ (e.length > 31 ∨ view.value atoi e = none → q = p) := by
  have hf : p.free ≠ none := fun hf => by simp [setNewWp, newWp, hf] at hq
  obtain ⟨active, unused, hl, hmade⟩ := h
  rcases hl.newWp (view.value atoi) e hf with
    ⟨-, hnew⟩ | ⟨new, rest, q', v, rfl, hlen, hv, hnew, hl', hnode, hold⟩
  · obtain rfl : p = q := by simpa [setNewWp, hnew] using hq
    exact ⟨⟨active, unused, hl, hmade⟩, fun _ => rfl⟩
  · obtain rfl : q' = q := by simpa [setNewWp, hnew] using hq
    refine ⟨⟨new :: active, rest, hl', fun i hi view' => ?_⟩, ?_⟩
    · by_cases hin : i = new
      · subst hin
        rw [hnode]
        exact View.computes_of_value hv view'
      · rw [hold i hin]
        exact hmade i ((List.mem_cons.mp hi).resolve_left hin) view'
    · rintro (hgt | hnone)
      · omega
      · rw [hv] at hnone
        cases hnone

theorem Watching.survives_iff (h : Watching atoi p) (c : WpCmd) :
    Survives atoi c (some p) ↔ CmdFine atoi c p := by
  have hup : Survives atoi c (some p) ↔ ∃ q, cmdStep atoi c p = some q ∧ (Unserved atoi c p → q = p) := by
    simp [Survives]
  rw [hup]
  cases c with
  | w e view =>
    refine Iff.trans ?_ wCmd_eq_some_iff
    constructor
    · rintro ⟨q, hq, -⟩
      exact ⟨q, hq⟩
    · rintro ⟨q, hq⟩
      refine ⟨q, hq, fun hun => ?_⟩
      have hset : setNewWp (view.value atoi) e p = some q := by
        rw [wCmd] at hq
        split_ifs at hq
        exact hq
      rcases hun with hfree | hun
      · exact absurd hfree (wCmd_eq_some_iff.mp ⟨q, hq⟩).1
      · exact (h.set hset).2 hun
  | d no =>
    obtain ⟨q, hq, -⟩ := h.delete no
    exact iff_of_true ⟨q, hq, False.elim⟩ trivial
  | inst view =>
    obtain ⟨active, unused, hl, hmade⟩ := h
    have hscan := scanFrom_iff hl.activeList hl.length_le fun i hi => hmade i hi view
    have hall : CmdFine atoi (.inst view) p ↔ ScanFine atoi view p active := by
      refine ⟨fun hfine => hfine active hl.activeList, fun hfine l hchain => ?_⟩
      obtain rfl := hl.activeList.unique hchain
      exact hfine
    rw [hall, ← hscan]
    constructor
    · rintro ⟨q, hq, -⟩
      obtain ⟨r, hr, -⟩ := Option.map_eq_some_iff.mp hq
      exact ⟨r, hr⟩
    · rintro ⟨r, hr⟩
      exact ⟨r.2, Option.map_eq_some_iff.mpr ⟨r, hr, rfl⟩, False.elim⟩

theorem Watching.step (h : Watching atoi p) {c : WpCmd} (hq : cmdStep atoi c p = some q) :
    Watching atoi q := by
  cases c with
  | w e view =>
    simp only [cmdStep, wCmd] at hq
    split_ifs at hq
    exact (h.set hq).1
  | d no =>
    obtain ⟨q', hq', hw⟩ := h.delete no
    obtain rfl : q' = q := Option.some.inj (hq'.symm.trans hq)
    exact hw
  | inst view => exact h.scan hq

/-- The simulator survives the commands exactly as long as every set finds a free node and a
string that does no harm, and no operation fails in what the scans evaluate. -/
theorem survives_iff_fine (atoi : List Char → Word) (cmds : Nat → WpCmd) (n : Nat) :
    (∀ k < n, Survives atoi (cmds k) (cmdRun atoi cmds k)) ↔
      ∀ k < n, ∀ p ∈ cmdRun atoi cmds k, CmdFine atoi (cmds k) p := by
  refine Clocked.run_forall_iff (I := fun s => ∃ p, s = some p ∧ Watching atoi p)
    (P := fun c s => Survives atoi c s) (Q := fun c s => ∀ p ∈ s, CmdFine atoi c p)
    _ _ _ ⟨_, rfl, watching_init⟩ ?_ ?_ n
  · rintro c _ ⟨p, rfl, hp⟩
    rw [hp.survives_iff]
    simp
  · rintro c _ ⟨p, rfl, hp⟩ hfine
    obtain ⟨p₀, q, hp₀, hq, -⟩ := (hp.survives_iff c).mpr (hfine p rfl)
    obtain rfl := Option.some.inj hp₀
    exact ⟨q, hq, hp.step hq⟩

/-- Nothing in memory, and `a0` as given. -/
def a0View (a0 : Word) : View := ⟨⟨fun r => if r = 10#5 then a0 else 0#32, 0#32⟩, fun _ => none, fun _ => []⟩

/-- The set after 32 sets of `1`, a scan of `1/$a0` when `a0` has become 0, and a set of `1+`. -/
theorem survives_not :
    (∃ p, cmdRun Expr.decimalValue (fun _ => .w ['1'] (a0View 0#32)) 32 = some p ∧
      Unserved Expr.decimalValue (.w ['1'] (a0View 0#32)) p) ∧
    ¬ Survives Expr.decimalValue (.w ['1'] (a0View 0#32))
      (cmdRun Expr.decimalValue (fun _ => .w ['1'] (a0View 0#32)) 32) ∧
    (a0View 1#32).value Expr.decimalValue ['1', '/', '$', 'a', '0'] = some 1#32 ∧
    ¬ Survives Expr.decimalValue (.inst (a0View 0#32))
      (cmdRun Expr.decimalValue (fun _ => .w ['1', '/', '$', 'a', '0'] (a0View 1#32)) 1) ∧
    ¬ Survives Expr.decimalValue (.w ['1', '+'] (a0View 0#32))
      (cmdRun Expr.decimalValue (fun _ => .d 0#32) 0) := by
  have hdown : ∀ {c : WpCmd} {s : Option WpPool},
      (s.bind (cmdStep Expr.decimalValue c)).isNone = true → ¬ Survives Expr.decimalValue c s := by
    rintro c _ hnone ⟨p, q, rfl, hq, -⟩
    simp [hq] at hnone
  have hfree : ((cmdRun Expr.decimalValue (fun _ => .w ['1'] (a0View 0#32)) 32).map WpPool.free) =
      some none := by decide +kernel
  obtain ⟨p, hp, hpf⟩ := Option.map_eq_some_iff.mp hfree
  refine ⟨⟨p, hp, Or.inl hpf⟩, hdown ?_, ?_, hdown ?_, hdown ?_⟩ <;> decide +kernel

end WpPool

end Npc
