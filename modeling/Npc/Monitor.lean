import Npc.Difftest

/-! The simulator's execution loop, `cpu-exec.cpp`, its watchpoints and the debugger commands
of `sdb.cpp`, with a history of what bears on `npc_state`. -/

namespace Npc

structure Config where
  difftest : Bool
  watchpoint : Bool

/-- A watchpoint; its expression is of any type. -/
structure Wp (ε : Type*) where
  no : Nat
  eStr : ε
  preResult : Word

/-- What the simulator sees of one committed instruction: the registers and the pc,
whether it called `npctrap`, whether a device was accessed meanwhile, and what the expressions
of watchpoints read. -/
structure Inst (ν : Type*) where
  regs : Regs
  pc : Word
  trap : Bool
  skip : Bool
  view : ν

/-- An entry of the history: an executed instruction with its trap, its difftest mismatch and
its watchpoint hit, or the entry of `cpu_exec` in a state. -/
inductive Event
  | inst (trap mismatch wpDiff : Bool)
  | cpuExec (state : RunState)
  deriving DecidableEq, Repr

structure Monitor (μ ε : Type*) where
  difftest : Difftest μ
  wps : List (Wp ε)
  nrGuestInst : Nat
  /-- The history, the latest entry first. -/
  history : List Event

namespace Monitor

variable {μ ε ν : Type*}

def npcState (m : Monitor μ ε) : NpcState := m.difftest.npc

def setState (state : RunState) (m : Monitor μ ε) : Monitor μ ε :=
  { m with difftest := { m.difftest with npc := { m.difftest.npc with state := state } } }

def record (e : Event) (m : Monitor μ ε) : Monitor μ ε := { m with history := e :: m.history }

def init (difftest : Difftest μ) : Monitor μ ε where
  difftest := { difftest with npc := ⟨.npcStop, 0#32, 1#32⟩ }
  wps := []
  nrGuestInst := 0
  history := []

/-- The first watchpoint whose expression changed takes the new value. -/
def scanWpDiff (expr : ε → ν → Word) (view : ν) : List (Wp ε) → Bool × List (Wp ε)
  | [] => (false, [])
  | wp :: wps =>
    if wp.preResult ≠ expr wp.eStr view then
      (true, { wp with preResult := expr wp.eStr view } :: wps)
    else
      let rest := scanWpDiff expr view wps
      (rest.1, wp :: rest.2)

def npctrap (pc : Word) (regs : Regs) : NpcState := ⟨.npcEnd, pc, regs 10#5⟩

def execOnce (i : Inst ν) (m : Monitor μ ε) : Monitor μ ε :=
  let d := if i.skip then difftestSkipRef m.difftest else m.difftest
  { m with difftest := { d with npc := if i.trap then npctrap i.pc i.regs else d.npc } }

section Run

variable (cfg : Config) (exec : CpuState × μ → CpuState × μ) (expr : ε → ν → Word)

def mismatch (i : Inst ν) (m : Monitor μ ε) : Bool :=
  cfg.difftest && !m.difftest.isSkipRef && m.difftest.nIgnoreFirst &&
    !difftestCheckregs (exec m.difftest.ref).1 m.difftest.cpu i.pc

def wpDiff (i : Inst ν) (m : Monitor μ ε) : Bool :=
  cfg.watchpoint && (scanWpDiff expr i.view m.wps).1

def traceAndDifftest (i : Inst ν) (m : Monitor μ ε) : Monitor μ ε :=
  let d := if cfg.difftest then difftestStep exec i.regs i.pc m.difftest else m.difftest
  if cfg.watchpoint then
    let scan := scanWpDiff expr i.view m.wps
    let state := if d.npc.state ≠ .npcEnd then .npcStop else .npcEnd
    { m with
      difftest := { d with npc := { d.npc with state := if scan.1 then state else d.npc.state } }
      wps := scan.2 }
  else { m with difftest := d }

/-- One round of the loop of `execute`. -/
def instStep (i : Inst ν) (m : Monitor μ ε) : Monitor μ ε :=
  let m' := { m.execOnce i with nrGuestInst := m.nrGuestInst + 1 }
  (m'.traceAndDifftest cfg exec expr i).record
    (.inst i.trap (m'.mismatch cfg exec i) (m'.wpDiff cfg expr i))

variable (insts : Nat → Inst ν)

def execute : Nat → Monitor μ ε → Monitor μ ε
  | 0, m => m
  | n + 1, m =>
    let m' := m.instStep cfg exec expr (insts m.nrGuestInst)
    if m'.npcState.state ≠ .npcRunning then m' else execute n m'

def cpuExec (n : Nat) (m : Monitor μ ε) : Monitor μ ε :=
  if m.npcState.state = .npcEnd ∨ m.npcState.state = .npcQuit then m
  else
    let m' := (m.setState .npcRunning).execute cfg exec expr insts n
    if m'.npcState.state = .npcRunning then m'.setState .npcStop else m'

/-- The commands that return to the prompt. A `w` carries the outcome of `expr` on its
argument, an `x` whether it reads outside the memory. -/
inductive Cmd (ε : Type*)
  | c
  | si (n : BitVec 32)
  | w (e : ε) (result : Option Word)
  | d (no : Nat)
  | x (device : Bool)
  | readOnly

inductive Input (ε : Type*)
  | cmd (command : Cmd ε)
  | q

def newWp (e : ε) (result : Word) (m : Monitor μ ε) : Monitor μ ε :=
  { m with wps := ⟨(m.wps.head?.elim 0 Wp.no) + 1, e, result⟩ :: m.wps }

/-- The count of `si` is an `int` passed as a `uint64_t`; `c` passes -1. -/
def handler (command : Cmd ε) (m : Monitor μ ε) : Monitor μ ε :=
  match command with
  | .c => (m.record (.cpuExec m.npcState.state)).cpuExec cfg exec expr insts (2 ^ 64 - 1)
  | .si n => (m.record (.cpuExec m.npcState.state)).cpuExec cfg exec expr insts (n.signExtend 64).toNat
  | .w e (some v) => m.newWp e v
  | .w _ none => m
  | .d no => { m with wps := m.wps.eraseP fun wp => wp.no = no }
  | .x device => { m with difftest := if device then difftestSkipRef m.difftest else m.difftest }
  | .readOnly => m

/-- `sdb_mainloop`; it returns on `q`. -/
def sdbMainloop : List (Input ε) → Monitor μ ε → Monitor μ ε
  | [], m => m
  | .cmd command :: rest, m => sdbMainloop rest (m.handler cfg exec expr insts command)
  | .q :: _, m => m.setState .npcQuit

end Run

end Monitor

end Npc
