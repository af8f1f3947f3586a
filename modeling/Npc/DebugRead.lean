import Npc.ExprClean
import Npc.Memory
import Npc.Statistic

/-! `expr` and `cmd_x` with what their reads do to the machine. The debugger reads through the
`pmem_read` of the core: outside the memory that raises the skip flag of differential testing
and asks the devices, the clock among them. -/

namespace Npc

open Npc.Expr

/-- `pmem`, `rtc_port`, the clock behind it, and differential testing. -/
structure Machine (μ : Type) where
  pmem : Pmem
  rtcPort : Word × Word
  host : Host
  difftest : Difftest μ

namespace Machine

variable {μ : Type}

def skipRef (m : Machine μ) : Machine μ := { m with difftest := difftestSkipRef m.difftest }

section Access

variable (clock : Nat → BitVec 64)

def rtcPortUpdate (m : Machine μ) : Machine μ :=
  let us := getTime clock m.host
  { m with rtcPort := (us.1.setWidth 32, (us.1 >>> 32).setWidth 32), host := us.2 }

def mmioRead (addr : Word) : EStateM Fault (Machine μ) Word := fun m =>
  if addr = 0xa0000048#32 then .ok m.rtcPort.1 m
  else if addr = 0xa0000048#32 + 4#32 then
    let m := m.rtcPortUpdate clock
    .ok m.rtcPort.2 m
  else .error .panic m

def pmemRead (raddr : Word) : EStateM Fault (Machine μ) Word := fun m =>
  if inMem raddr then .ok (paddrRead m.pmem raddr) m else mmioRead clock raddr m.skipRef

/-- `mmio_write` has the serial port only, whose characters leave the simulator. -/
def mmioWrite (addr : Word) : EStateM Fault (Machine μ) Unit := fun m =>
  if addr = 0x10000000#32 then .ok () m else .error .panic m

def pmemWrite (waddr wdata : Word) (wmask : BitVec 4) : EStateM Fault (Machine μ) Unit := fun m =>
  if inMem waddr then .ok () { m with pmem := paddrWrite m.pmem waddr wdata wmask }
  else mmioWrite waddr m.skipRef

end Access

section Eval

variable (clock : Nat → BitVec 64) (atoi : List Char → Word)

def applyOp (type : TokType) (val1 val2 : Word) (success : Bool) :
    EStateM Fault (Machine μ) (Word × Bool) :=
  match type with
  | .deref => do
    let w ← pmemRead clock val2
    return (w, success)
  | type =>
    match Expr.applyOp (fun _ => none) type val1 val2 success with
    | .ok r => return r
    | .error f => throw f

def evalMain (eval : List Token → Bool → EStateM Fault (Machine μ) (Word × Bool)) (ts : List Token)
    (op : Nat) : EStateM Fault (Machine μ) (Word × Bool) := do
  let val1 ← (if op ≠ 0 then eval (ts.take op) true else pure (0#32, true))
  let val2 ← eval (ts.drop (op + 1)) val1.2
  match ts[op]? with
  | some t => applyOp clock t.type val1.1 val2.1 val2.2
  | none => throw .assert

def evalFrom : Nat → List Token → Bool → EStateM Fault (Machine μ) (Word × Bool)
  | 0, _, _ => throw .panic
  | _ + 1, [], _ => throw .panic
  | _ + 1, [t], success => return (atoi t.str, if t.type ≠ .num then false else success)
  | n + 1, ts, success =>
    let check := checkParentheses ts success
    if check.1 then evalFrom n ts.tail.dropLast check.2
    else match findMainOp ts, check.2 with
      | none, _ | _, false => return (1#32, false)
      | some op, true => evalMain clock (evalFrom n) ts op

def expr (cpu : CpuState) (stale : Nat → List Char) (e : List Char) :
    EStateM Fault (Machine μ) (Word × Bool) :=
  match makeToken cpu stale e with
  | .error f => throw f
  | .ok none => return (0#32, false)
  | .ok (some ts) => do
    let ts := prepass none ts
    let r ← evalFrom clock atoi (ts.length + 1) ts true
    return if r.2 then r else (0#32, r.2)

/-- The loop of `cmd_x`, from the count that is left up. -/
def scanMemory (result : Word) : List Nat → EStateM Fault (Machine μ) Unit
  | [] => return ()
  | i :: l => do
    let _ ← pmemRead clock (BitVec.ofNat 32 i * 4#32 + result)
    scanMemory result l

def cmdX (cpu : CpuState) (stale : Nat → List Char) (n : BitVec 32) (e : List Char) :
    EStateM Fault (Machine μ) Unit := do
  let r ← expr clock atoi cpu stale e
  if r.2 then scanMemory clock r.1 (List.range n.toNat)

end Eval

section Trace

variable {clock : Nat → BitVec 64} {atoi : List Char → Word} {m : Machine μ} {pmem : Pmem} {α β : Type}
  {w w' : Walk}

/-- The machine that a call leaves, also where it does not return. -/
def after (x : EStateM Fault (Machine μ) α) (m : Machine μ) : Machine μ :=
  match x m with
  | .ok _ m' | .error _ m' => m'

/-- What the memory alone returns. -/
def memWord (pmem : Pmem) (addr : Word) : Option Word :=
  if inMem addr then some (paddrRead pmem addr) else none

instance decidableHarmless (read : Word → Option Word) : (ev : Expr.Event) → Decidable (ev.Harmless read)
  | .empty => inferInstanceAs (Decidable False)
  | .reject => inferInstanceAs (Decidable True)
  | .read addr => inferInstanceAs (Decidable (read addr ≠ none))
  | .divide val1 val2 => inferInstanceAs (Decidable ¬ (val1 = BitVec.intMin 32 ∧ val2 = -1#32))

/-- What an evaluation that has the memory alone does not get past. -/
def stop (pmem : Pmem) (events : List Expr.Event) : Option Expr.Event :=
  events.find? fun ev => ¬ ev.Harmless (memWord pmem)

/-- The call meets these events and comes to `a` if it gets past all of them. It leaves the machine
alone up to a read outside the memory, which raises the flag, and no call takes the flag down. -/
structure Traces (pmem : Pmem) (x : EStateM Fault (Machine μ) α) (events : List Expr.Event) (a : α) :
    Prop where
  flag : ∀ m, m.difftest.isSkipRef = true → (after x m).difftest.isSkipRef = true
  goes : ∀ m, m.pmem = pmem → match stop pmem events with
    | none => x m = .ok a m
    | some (.read _) => (after x m).difftest.isSkipRef = true
    | some _ => ∃ f, x m = .error f m

abbrev TracesWalk (pmem : Pmem) (x : EStateM Fault (Machine μ) (Word × Bool)) (w : Walk) : Prop :=
  Traces pmem x w.events (w.value, w.success)

section Bind

variable {x : EStateM Fault (Machine μ) α} {f : α → EStateM Fault (Machine μ) β} {a : α}

theorem bind_of_ok {m' : Machine μ} (h : x m = .ok a m') : (x >>= f) m = f a m' := by
  change EStateM.bind x f m = _
  rw [EStateM.bind, h]

theorem bind_of_error {e : Fault} {m' : Machine μ} (h : x m = .error e m') :
    (x >>= f) m = .error e m' := by
  change EStateM.bind x f m = _
  rw [EStateM.bind, h]

theorem flag_bind (hx : (after x m).difftest.isSkipRef = true)
    (hf : ∀ a m, m.difftest.isSkipRef = true → (after (f a) m).difftest.isSkipRef = true) :
    (after (x >>= f) m).difftest.isSkipRef = true := by
  rw [after] at hx ⊢
  cases hxm : x m with
  | error e m' =>
    rw [hxm] at hx
    rw [bind_of_error hxm]
    exact hx
  | ok a m' =>
    rw [hxm] at hx
    rw [bind_of_ok hxm]
    exact hf a m' hx

theorem stop_append (pmem : Pmem) (l r : List Expr.Event) :
    stop pmem (l ++ r) = (stop pmem l).or (stop pmem r) := List.find?_append

theorem Traces.bind {l : List Expr.Event} {r : α → List Expr.Event} {b : α → β} (h : Traces pmem x l a)
    (h' : ∀ a, Traces pmem (f a) (r a) (b a)) : Traces pmem (x >>= f) (l ++ r a) (b a) where
  flag m hm := flag_bind (h.flag m hm) fun a => (h' a).flag
  goes := by
    intro m hm
    have hx := h.goes m hm
    rw [stop_append]
    cases hs : stop pmem l with
    | none =>
      simp only [hs] at hx
      have hb : (x >>= f) m = f a m := bind_of_ok hx
      have hr := (h' a).goes m hm
      rw [after] at hr ⊢
      rw [Option.none_or, hb]
      exact hr
    | some ev =>
      simp only [hs] at hx
      rw [Option.some_or]
      cases ev with
      | read addr => exact flag_bind hx fun a => (h' a).flag
      | _ =>
        obtain ⟨e, he⟩ := hx
        exact ⟨e, bind_of_error he⟩

theorem Traces.pure {events : List Expr.Event} (h : ∀ ev ∈ events, ev.Harmless (memWord pmem)) (a : α) :
    Traces (μ := μ) pmem (Pure.pure a) events a where
  flag _ hm := hm
  goes := by
    have hstop : stop pmem events = none := List.find?_eq_none.mpr fun ev hev => by simp [h ev hev]
    intro m hm
    simp only [hstop]
    rfl

theorem Traces.map {events : List Expr.Event} (h : Traces pmem x events a) (f : α → β) :
    Traces pmem (x >>= fun r => Pure.pure (f r)) events (f a) := by
  have hh := h.bind (r := fun _ => []) (b := f) fun r => .pure (by simp) (f r)
  rwa [List.append_nil] at hh

theorem Traces.throw {ev : Expr.Event} (h : ¬ ev.Harmless (memWord pmem)) (hread : ∀ addr, ev ≠ .read addr)
    (f : Fault) (a : α) : Traces (μ := μ) pmem (MonadExcept.throw f) [ev] a where
  flag _ hm := hm
  goes := by
    have hstop : stop pmem [ev] = some ev := by simp [stop, h]
    intro m hm
    rw [hstop]
    cases ev with
    | read addr => exact absurd rfl (hread addr)
    | _ => exact ⟨f, rfl⟩

theorem Traces.empty (f : Fault) (a : α) : Traces (μ := μ) pmem (MonadExcept.throw f) [.empty] a :=
  .throw id (fun _ h => by cases h) f a

end Bind

theorem difftest_mmioRead (clock : Nat → BitVec 64) (addr : Word) (m : Machine μ) :
    (after (mmioRead clock addr) m).difftest = m.difftest := by
  rw [after, mmioRead]
  split_ifs <;> rfl

theorem pmemRead_inside {raddr : Word} (h : inMem raddr = true) (m : Machine μ) :
    pmemRead clock raddr m = .ok (paddrRead m.pmem raddr) m := by
  rw [pmemRead, if_pos h]

theorem pmemRead_outside {raddr : Word} (h : inMem raddr = false) (m : Machine μ) :
    (after (pmemRead clock raddr) m).difftest.isSkipRef = true := by
  have hh := difftest_mmioRead clock raddr m.skipRef
  rw [after] at hh
  rw [after, pmemRead, if_neg (by simp [h]), hh]
  rfl

theorem traces_pmemRead (addr : Word) :
    Traces (μ := μ) pmem (pmemRead clock addr) [.read addr] ((memWord pmem addr).getD 0#32) := by
  cases hin : inMem addr with
  | true =>
    refine ⟨fun m hm => ?_, ?_⟩
    · rw [after, pmemRead_inside hin]
      exact hm
    · rintro m rfl
      have hstop : stop m.pmem [.read addr] = none := by simp [stop, Expr.Event.Harmless, memWord, hin]
      simp only [hstop, memWord, hin, if_true, Option.getD_some]
      exact pmemRead_inside hin m
  | false =>
    refine ⟨fun m _ => pmemRead_outside hin m, fun m hm => ?_⟩
    have hstop : stop pmem [.read addr] = some (.read addr) := by
      simp [stop, Expr.Event.Harmless, memWord, hin]
    simp only [hstop]
    exact pmemRead_outside hin m

theorem traces_applyOp (clock : Nat → BitVec 64) (type : TokType) (val1 val2 : Word) (s : Bool) :
    TracesWalk (μ := μ) pmem (applyOp clock type val1 val2 s)
      (walkOp (memWord pmem) type val1 val2 s) := by
  cases type with
  | deref => exact (traces_pmemRead val2).map fun w => (w, s)
  | slash =>
    by_cases hz : val2 = 0#32
    · simp only [applyOp, Expr.applyOp, walkOp, if_pos hz]
      exact .pure (by simp [Expr.Event.Harmless]) _
    · by_cases ho : val1 = BitVec.intMin 32 ∧ val2 = -1#32
      · simp only [applyOp, Expr.applyOp, walkOp, if_neg hz, if_pos ho]
        exact .throw (by simp [Expr.Event.Harmless, ho]) (fun _ h => by cases h) _ _
      · simp only [applyOp, Expr.applyOp, walkOp, if_neg hz, if_neg ho]
        exact .pure (by simpa [Expr.Event.Harmless] using ho) _
  | num | lparen | rparen => exact .empty _ _
  | _ => exact .pure (by simp [walkOp]) _

theorem traces_evalMain {shape : List Token → Shape}
    {eval : List Token → Bool → EStateM Fault (Machine μ) (Word × Bool)}
    (h : ∀ ts s, TracesWalk pmem (eval ts s) ((shape ts).walk atoi (memWord pmem) s)) (l r : List Token)
    (t : Token) :
    TracesWalk pmem (evalMain clock eval (l ++ t :: r) l.length)
      ((shapeMain shape (l ++ t :: r) l.length).walk atoi (memWord pmem) true) := by
  have hop : (l ++ t :: r)[l.length]? = some t := by simp
  have hdrop : (l ++ t :: r).drop (l.length + 1) = r := by simp
  rw [shapeMain_split]
  simp only [evalMain, hop, hdrop]
  by_cases hl : l = []
  · have hh := (h r true).bind fun v => traces_applyOp clock t.type 0#32 v.1 v.2
    simp only [hl, ne_eq, not_true_eq_false, if_false]
    exact hh
  · have hh := (h l true).bind fun v₁ => (h r v₁.2).bind fun v₂ =>
      traces_applyOp clock t.type v₁.1 v₂.1 v₂.2
    have hlen : l.length ≠ 0 := fun hz => hl (List.length_eq_zero_iff.mp hz)
    simp only [hl, hlen, ne_eq, not_false_eq_true, if_true, List.take_left]
    exact hh

theorem traces_evalFrom (n : Nat) (ts : List Token) (s : Bool) :
    TracesWalk (μ := μ) pmem (evalFrom clock atoi n ts s)
      ((shapeFrom n ts).walk atoi (memWord pmem) s) := by
  induction n generalizing ts s with
  | zero => exact .empty _ _
  | succ n ih =>
    match ts with
    | [] => exact .empty _ _
    | [t] =>
      by_cases ht : t.type = .num
      · simp only [shapeFrom, Shape.walk, evalFrom, ht, ne_eq, not_true, if_true, if_false]
        exact .pure (by simp) _
      · simp only [shapeFrom, Shape.walk, evalFrom, ht, ne_eq, not_false_eq_true, if_true, if_false]
        exact .pure (by simp [Expr.Event.Harmless]) _
    | t :: u :: ts =>
      obtain ⟨b, c, hc⟩ : ∃ b c, checkParentheses (t :: u :: ts) true = (b, c) := ⟨_, _, rfl⟩
      have hcs := checkParentheses_eq (t :: u :: ts) s
      have hunparsed : TracesWalk (μ := μ) pmem (pure (1#32, false))
          (Shape.unparsed.walk atoi (memWord pmem) s) := .pure (by simp [Shape.walk, Expr.Event.Harmless]) _
      simp only [evalFrom, shapeFrom, hcs, hc]
      cases b with
      | true =>
        have hclosed : ∀ ev ∈ (if c then [] else [.reject]), Expr.Event.Harmless (memWord pmem) ev := by
          cases c <;> simp [Expr.Event.Harmless]
        have hh := (Traces.pure (μ := μ) hclosed (0#32, s && c)).bind fun r : Word × Bool =>
          ih (t :: u :: ts).tail.dropLast r.2
        exact hh
      | false =>
        cases c with
        | false =>
          rw [Bool.and_false]
          cases findMainOp (t :: u :: ts) <;> exact hunparsed
        | true =>
          rw [Bool.and_true]
          cases hop : findMainOp (t :: u :: ts) with
          | none => cases s <;> exact hunparsed
          | some op =>
            obtain ⟨l, o, r, hts, rfl, -⟩ := findMainOp_spec hop
            simp only [hts, Bool.false_eq_true, if_false]
            cases s with
            | true => exact traces_evalMain ih l r o
            | false =>
              rw [shapeMain_walk_false]
              exact .pure (by simp) _

end Trace

/-- An evaluation for `p`, `w` or a scan, and the command `x`; `stale` are the texts left in `tokens`. -/
inductive Look
  | expr (stale : Nat → List Char) (e : List Char)
  | x (stale : Nat → List Char) (n : BitVec 32) (e : List Char)

section Looks

variable (clock : Nat → BitVec 64) (atoi : List Char → Word)

def perform (cpu : CpuState) : Look → EStateM Fault (Machine μ) Unit
  | .expr stale e => do let _ ← expr clock atoi cpu stale e
  | .x stale n e => cmdX clock atoi cpu stale n e

/-- What `expr` meets if it has the memory alone, and its result. -/
def exprWalk (cpu : CpuState) (pmem : Pmem) (stale : Nat → List Char) (e : List Char) : Walk :=
  match makeToken cpu stale e with
  | .ok (some ts) =>
    let w := walk atoi (memWord pmem) ts
    { w with value := if w.success then w.value else 0#32 }
  | .ok none => ⟨0#32, false, [.reject]⟩
  | .error _ => ⟨0#32, false, [.empty]⟩

def lookEvents (cpu : CpuState) (pmem : Pmem) : Look → List Expr.Event
  | .expr stale e => (exprWalk atoi cpu pmem stale e).events
  | .x stale n e =>
    let w := exprWalk atoi cpu pmem stale e
    w.events ++ if w.success then
      (List.range n.toNat).map fun i => .read (BitVec.ofNat 32 i * 4#32 + w.value) else []

/-- No address outside the memory is read before the evaluation comes to its end or is stopped. -/
def Inside (cpu : CpuState) (pmem : Pmem) (l : Look) : Prop :=
  ∀ addr, stop pmem (lookEvents atoi cpu pmem l) ≠ some (.read addr)

def withFlag (m : Machine μ) (flag : Bool) : Machine μ :=
  { m with difftest := { m.difftest with isSkipRef := flag } }

/-- The memory, `rtc_port` and the skip flag stay as they are, whether the flag is up or not. -/
def Undisturbed (cpu : CpuState) (m : Machine μ) (l : Look) : Prop :=
  ∀ flag, (after (perform clock atoi cpu l) (m.withFlag flag)).pmem = m.pmem ∧
    (after (perform clock atoi cpu l) (m.withFlag flag)).rtcPort = m.rtcPort ∧
    (after (perform clock atoi cpu l) (m.withFlag flag)).difftest.isSkipRef = flag

end Looks

section Frame

variable (clock : Nat → BitVec 64) (atoi : List Char → Word) (cpu : CpuState)
  (stale : Nat → List Char) (e : List Char) {m : Machine μ} {pmem : Pmem} {l : Look} {α : Type}

theorem traces_expr : TracesWalk (μ := μ) pmem (expr clock atoi cpu stale e)
    (exprWalk atoi cpu pmem stale e) := by
  cases hmake : makeToken cpu stale e with
  | error f =>
    simp only [expr, exprWalk, hmake]
    exact .empty _ _
  | ok res =>
    cases res with
    | none =>
      simp only [expr, exprWalk, hmake]
      exact .pure (by simp [Expr.Event.Harmless]) _
    | some ts =>
      have hwalk : TracesWalk (μ := μ) pmem
          (evalFrom clock atoi ((prepass none ts).length + 1) (prepass none ts) true)
          (walk atoi (memWord pmem) ts) := traces_evalFrom _ _ _
      have hh := hwalk.map fun r => if r.2 then r else (0#32, r.2)
      have hres : (if (walk atoi (memWord pmem) ts).success then
          ((walk atoi (memWord pmem) ts).value, (walk atoi (memWord pmem) ts).success)
          else (0#32, (walk atoi (memWord pmem) ts).success)) =
          (if (walk atoi (memWord pmem) ts).success then (walk atoi (memWord pmem) ts).value else 0#32,
            (walk atoi (memWord pmem) ts).success) := by
        split_ifs <;> rfl
      simp only [expr, exprWalk, hmake, TracesWalk]
      rw [← hres]
      exact hh

variable {clock} in
theorem traces_scanMemory (result : Word) (l : List Nat) :
    Traces (μ := μ) pmem (scanMemory clock result l)
      (l.map fun i => .read (BitVec.ofNat 32 i * 4#32 + result)) () := by
  induction l with
  | nil => exact .pure (by simp) _
  | cons i l ih => exact (traces_pmemRead (BitVec.ofNat 32 i * 4#32 + result)).bind fun _ => ih

theorem traces_perform (l : Look) :
    Traces (μ := μ) pmem (perform clock atoi cpu l) (lookEvents atoi cpu pmem l) () := by
  cases l with
  | expr stale e => exact (traces_expr clock atoi cpu stale e).map fun r => ()
  | x stale n e =>
    have hscan : ∀ r : Word × Bool, Traces (μ := μ) pmem
        (if r.2 then scanMemory clock r.1 (List.range n.toNat) else pure ())
        (if r.2 then (List.range n.toNat).map fun i => .read (BitVec.ofNat 32 i * 4#32 + r.1) else [])
        () := by
      intro r
      split_ifs
      · exact traces_scanMemory _ _
      · exact .pure (by simp) _
    have hh := (traces_expr clock atoi cpu stale e).bind hscan
    exact hh

theorem Traces.after_eq {x : EStateM Fault (Machine μ) α} {events : List Expr.Event} {a : α}
    (h : Traces m.pmem x events a) (hin : ∀ addr, stop m.pmem events ≠ some (.read addr)) :
    after x m = m := by
  have hh := h.goes m rfl
  cases hs : stop m.pmem events with
  | none =>
    simp only [hs] at hh
    rw [after, hh]
  | some ev =>
    simp only [hs] at hh
    cases ev with
    | read addr => exact absurd hs (hin addr)
    | _ =>
      obtain ⟨f, hf⟩ := hh
      rw [after, hf]

variable {clock atoi cpu stale e}

theorem undisturbed_iff : Undisturbed clock atoi cpu m l ↔ Inside atoi cpu m.pmem l := by
  constructor
  · intro h addr hs
    have hraised := (traces_perform clock atoi cpu l).goes (m.withFlag false) rfl
    rw [show stop (m.withFlag false).pmem (lookEvents atoi cpu (m.withFlag false).pmem l) = _ from hs] at hraised
    exact absurd ((h false).2.2.symm.trans hraised) (by decide)
  · intro hin flag
    have htraces : Traces (m.withFlag flag).pmem (perform (μ := μ) clock atoi cpu l)
      (lookEvents atoi cpu m.pmem l) () := traces_perform clock atoi cpu l
    rw [htraces.after_eq hin]
    exact ⟨rfl, rfl, rfl⟩

end Frame

end Machine

end Npc
