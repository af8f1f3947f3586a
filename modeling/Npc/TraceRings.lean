import Npc.Ftrace
import Npc.RingBuffer

/-! What the two trace buffers print when the simulator stops: the last instructions of
`cpu-exec.cpp` and the last calls and returns of `ftrace.cpp`. -/

namespace Npc

open RingBuffer

def iringSize : Nat := 16

/-- The ring of instruction texts. The pointer is at the entry written last. -/
structure Iringbuf where
  iringbuf : Vector (List Char) iringSize
  iringPtr : Fin iringSize

namespace Iringbuf

def init : Iringbuf := ⟨.replicate iringSize [], ⟨0, by decide⟩⟩

def push (r : Iringbuf) (ibuf : List Char) : Iringbuf :=
  let iringPtr : Fin iringSize :=
    if h : r.iringPtr + 1 ≥ iringSize then ⟨0, by decide⟩ else ⟨r.iringPtr + 1, by omega⟩
  ⟨r.iringbuf.set iringPtr ibuf, iringPtr⟩

/-- The text of a line, marked when it is the one of the pointer. -/
def line (x : Bool × List Char) : List Char :=
  (if x.1 then "--> ".toList else "    ".toList) ++ x.2 ++ " \n".toList

def print (r : Iringbuf) : List (List Char) :=
  (List.finRange iringSize).filterMap fun i =>
    if r.iringbuf[i] = [] then none else some (line (decide (i = r.iringPtr), r.iringbuf[i]))

end Iringbuf

namespace Ftrace

/-- A line of the trace, indented by the depth. -/
def line (b : Fbuf) : List Char :=
  b.pcbuf ++ [' '] ++ List.replicate b.num.toInt.toNat ' ' ++ b.message ++ ['\n']

/-- The slot `i` places behind the pointer. -/
def realPtr (t : Tracer) (i : Fin fringSize) : Fin fringSize :=
  if h : t.fringbufPtr + i.val < fringSize then ⟨t.fringbufPtr + i.val, h⟩
  else ⟨t.fringbufPtr + i.val - fringSize, by omega⟩

def ftracePrint (t : Tracer) : List (List Char) :=
  (List.finRange fringSize).filterMap fun i =>
    if t.fringbuf[realPtr t i].message = [] then none else some (line t.fringbuf[realPtr t i])

end Ftrace

theorem filterMap_ite {α β : Type*} (p : α → Prop) [DecidablePred p] (g : α → β) (l : List α) :
    l.filterMap (fun i => if p i then none else some (g i)) = (l.filter fun i => ¬ p i).map g := by
  induction l with
  | nil => rfl
  | cons i l ih => by_cases h : p i <;> simp [h, ih]

namespace Iringbuf

def ring (r : Iringbuf) : Ring (List Char) iringSize := ⟨r.iringbuf, next r.iringPtr⟩

theorem ring_push (r : Iringbuf) (ibuf : List Char) : (r.push ibuf).ring = r.ring.push ibuf := by
  have hnext : (if h : r.iringPtr.val + 1 ≥ iringSize then (⟨0, by decide⟩ : Fin iringSize)
      else ⟨r.iringPtr + 1, by omega⟩) = next r.iringPtr := by
    by_cases h : r.iringPtr.val + 1 < iringSize
    · rw [next, dif_pos h, dif_neg (by omega)]
    · rw [next, dif_neg h, dif_pos (by omega)]
  simp only [push, ring, Ring.push, hnext]

theorem ring_foldl (r : Iringbuf) (xs : List (List Char)) :
    (xs.foldl push r).ring = xs.foldl Ring.push r.ring := by
  induction xs generalizing r with
  | nil => rfl
  | cons x xs ih => rw [List.foldl_cons, List.foldl_cons, ih, ring_push]

/-- Texts with a mark on the last one. -/
def tagged (xs : List (List Char)) : List (Bool × List Char) :=
  xs.mapIdx fun k x => (decide (k + 1 = xs.length), x)

/-- The lines of the texts that are not empty. -/
def shown (xs : List (Bool × List Char)) : List (List Char) := (xs.filter (·.2 ≠ [])).map line

/-- The slots as the loop of `iringbuf_print` goes through them. -/
def slots (r : Iringbuf) : List (Bool × List Char) :=
  (List.finRange iringSize).map fun i => (decide (i = r.iringPtr), r.iringbuf[i])

theorem print_eq (r : Iringbuf) : r.print = shown r.slots := by
  rw [print, shown, slots, filterMap_ite (fun i => r.iringbuf[i] = []), List.filter_map, List.map_map]
  rfl

theorem ring_contents (r : Iringbuf) : r.ring.contents = r.iringbuf.toList.rotate (r.iringPtr + 1) :=
  Ring.rotate_next (by simp) r.iringPtr

theorem slots_rotate (r : Iringbuf) : r.slots.rotate (r.iringPtr + 1) = tagged r.ring.contents := by
  have hp := r.iringPtr.isLt
  rw [ring_contents]
  apply List.ext_getElem
  · simp [slots, tagged]
  · intro k hk hk'
    have hk16 : k < iringSize := by simpa [slots] using hk
    simp only [tagged, slots, List.getElem_mapIdx, List.getElem_rotate, List.getElem_map, List.getElem_finRange,
      List.length_map, List.length_finRange, List.length_rotate, Vector.length_toList, Vector.getElem_toList]
    have hlast : (k + (r.iringPtr.val + 1)) % iringSize = r.iringPtr.val ↔ k + 1 = iringSize := by
      simp only [iringSize] at hp hk16 ⊢
      omega
    simp [Fin.ext_iff, hlast]

theorem shown_isRotated {l l' : List (Bool × List Char)} (h : l ~r l') : shown l ~r shown l' := by
  obtain ⟨n, hn, rfl⟩ := List.isRotated_iff_mod.mp h
  have hl : shown l = shown (l.take n) ++ shown (l.drop n) := by
    rw [shown, shown, shown, ← List.map_append, ← List.filter_append, List.take_append_drop]
  have hl' : shown (l.rotate n) = shown (l.drop n) ++ shown (l.take n) := by
    rw [List.rotate_eq_drop_append_take hn, shown, List.filter_append, List.map_append]
    rfl
  rw [hl, hl']
  exact List.isRotated_append

theorem shown_tagged_blank (j : Nat) (xs : List (List Char)) :
    shown (tagged (List.replicate j [] ++ xs)) = shown (tagged xs) := by
  have hblank : ((List.replicate j ([] : List Char)).mapIdx fun k x =>
      (decide (k + 1 = j + xs.length), x)).filter (·.2 ≠ []) = [] := by
    rw [List.filter_eq_nil_iff]
    intro x hx
    obtain ⟨k, hk, rfl⟩ := List.mem_mapIdx.mp hx
    simp
  rw [shown, shown, tagged, tagged, List.mapIdx_append, List.filter_append, List.length_append,
    List.length_replicate, hblank, List.nil_append]
  congr 3
  funext k x
  have hlast : k + j + 1 = j + xs.length ↔ k + 1 = xs.length := by omega
  simp only [hlast]

end Iringbuf

/-- After any instructions `iringbuf_print` shows the last 16, in order from the line below the arrow
on and around to the arrow, which marks the last one. -/
theorem iringbuf_print_latest (xs : List (List Char)) :
    (xs.foldl Iringbuf.push Iringbuf.init).print ~r Iringbuf.shown (Iringbuf.tagged (latest iringSize xs)) := by
  have hslots := Iringbuf.slots_rotate (xs.foldl Iringbuf.push Iringbuf.init)
  rw [Iringbuf.ring_foldl, Iringbuf.init, Iringbuf.ring, contents_of_blank] at hslots
  rw [Iringbuf.print_eq, ← Iringbuf.shown_tagged_blank (iringSize - xs.length)]
  exact Iringbuf.shown_isRotated ⟨_, hslots⟩

namespace Ftrace

/-- Everything the tracer has recorded, and the depth. -/
structure Log where
  events : List Fbuf
  depth : BitVec 32

def functionAt (head : List Fpool) (pc : Word) : Option Fpool := head.find? fun f => decide (f.Contains pc)

/-- What an instruction adds to the log, in terms of the functions at its two addresses. -/
def record (head : List Fpool) (depth : BitVec 32) (s : Decode) : Option Fbuf :=
  if head = [] ∨ ¬ (opcode s.inst = instJal ∨ opcode s.inst = instJalr) then none
  else match functionAt head s.dnpc with
    | none => some ⟨depth, hex08 s.pc ++ [':'], otherText, .typeOther⟩
    | some f =>
      if IsCall s.inst ∧ ∃ g ∈ head, s.dnpc = g.addr then
        some ⟨depth, hex08 s.pc ++ [':'], callText f, .typeCall⟩
      else if IsRet s.inst ∧ f.addr ≠ s.dnpc ∧ functionAt head s.pc ≠ some f then
        (functionAt head s.pc).map fun g => ⟨depth - 1#32, hex08 s.pc ++ [':'], retText g, .typeRet⟩
      else none

def Fbuf.depthAfter (b : Fbuf) : BitVec 32 :=
  match b.type with
  | .typeCall => b.num + 1#32
  | .typeRet | .typeOther => b.num

def Log.step (head : List Fpool) (s : Decode) (x : Log) : Log :=
  match record head x.depth s with
  | some b => ⟨x.events ++ [b], b.depthAfter⟩
  | none => x

/-- The log of a run, without bound. -/
def log (program : List Fpool) (history : Nat → Decode) (n : Nat) : Log :=
  Clocked.run (Log.step program.reverse) ⟨[], 0#32⟩ history n

def Tracer.ring (t : Tracer) : Ring Fbuf fringSize := ⟨t.fringbuf, t.fringbufPtr⟩

section Functions

variable {head next next' : List Fpool} {pc pc' : Word} {f g : Fpool}

theorem functionAt_eq (head : List Fpool) (pc : Word) : functionAt head pc = (pcCompare pc head).head? := by
  induction head with
  | nil => rfl
  | cons f head ih =>
    by_cases hf : f.Contains pc
    · simp [functionAt, pcCompare, hf]
    · simpa [functionAt, pcCompare, hf] using ih

/-- The first function at two addresses is one node of the list. -/
theorem pcCompare_congr (h : pcCompare pc head = f :: next) (h' : pcCompare pc' head = f :: next') :
    next = next' := by
  induction head with
  | nil => cases h
  | cons g head ih =>
    rw [pcCompare] at h h'
    by_cases hg : g.Contains pc <;> by_cases hg' : g.Contains pc'
    · rw [if_pos hg] at h
      rw [if_pos hg'] at h'
      exact (List.cons.inj h).2.symm.trans (List.cons.inj h').2
    · rw [if_pos hg] at h
      rw [if_neg hg'] at h'
      rw [(List.cons.inj h).1] at hg'
      exact absurd (pcCompare_cons h').2 hg'
    · rw [if_neg hg] at h
      rw [if_pos hg'] at h'
      rw [(List.cons.inj h').1] at hg
      exact absurd (pcCompare_cons h).2 hg
    · rw [if_neg hg] at h
      rw [if_neg hg'] at h'
      exact ih h h'

end Functions

/-- The tracer holds the log's last entries and its depth. -/
structure Holds (head : List Fpool) (t : Tracer) (x : Log) : Prop where
  head : t.head = head
  stackPtr : t.stackPtr = x.depth
  ring : t.ring = x.events.foldl Ring.push Tracer.init.ring

theorem ftraceRcd_record {t t' : Tracer} {s : Decode} (ht : ftraceRcd t s = .ok t') :
    match record t.head t.stackPtr s with
    | some b => t'.head = t.head ∧ t'.stackPtr = b.depthAfter ∧ t'.ring = t.ring.push b
    | none => t' = t := by
  rw [ftraceRcd] at ht
  by_cases hhead : t.head = []
  · rw [if_pos hhead] at ht
    rw [record, if_pos (.inl hhead)]
    exact (Except.ok.inj ht).symm
  rw [if_neg hhead] at ht
  by_cases hjump : opcode s.inst = instJal ∨ opcode s.inst = instJalr
  · rw [if_pos (and_jump.mpr hjump)] at ht
    rw [record, if_neg (by simp [hhead, hjump])]
    cases hnext : pcCompare s.dnpc t.head with
    | nil =>
      rw [functionAt_eq, hnext]
      simp only [hnext] at ht
      rw [← Except.ok.inj ht]
      exact ⟨rfl, rfl, rfl⟩
    | cons f next =>
      rw [functionAt_eq, hnext]
      simp only [hnext, ne_eq, and_rd, and_jalr, pcCompareOff_iff] at ht
      have hcall : IsCall s.inst ↔ ¬ rdField s.inst = 0#5 := by simp [IsCall, hjump]
      by_cases hc : ¬ rdField s.inst = 0#5 ∧ ∃ g ∈ t.head, s.dnpc = g.addr
      · rw [if_pos hc] at ht
        rw [List.head?_cons]
        dsimp only
        rw [if_pos ⟨hcall.mpr hc.1, hc.2⟩, ← Except.ok.inj ht]
        exact ⟨rfl, rfl, rfl⟩
      · rw [if_neg hc] at ht
        rw [List.head?_cons]
        dsimp only
        rw [if_neg (by rwa [hcall]), functionAt_eq]
        cases hcurrent : pcCompare s.pc t.head with
        | nil =>
          simp only [hcurrent] at ht
          split_ifs at ht <;> simpa using (Except.ok.inj ht).symm
        | cons g current =>
          have hne : ¬ f :: next = g :: current ↔ some g ≠ some f := by
            refine not_congr ⟨fun hh => (congrArg some (List.cons.inj hh).1).symm, fun hh => ?_⟩
            obtain rfl := Option.some.inj hh
            rw [pcCompare_congr hnext hcurrent]
          simp only [hcurrent, hne] at ht
          rw [List.head?_cons]
          by_cases hr : IsRet s.inst ∧ f.addr ≠ s.dnpc ∧ some g ≠ some f
          · rw [if_pos ⟨hr.1.1, hr.1.2, hr.2⟩] at ht
            rw [if_pos hr]
            split_ifs at ht with h0
            rw [← Except.ok.inj ht]
            exact ⟨rfl, rfl, rfl⟩
          · rw [if_neg (fun hh => hr ⟨⟨hh.1, hh.2.1⟩, hh.2.2⟩)] at ht
            rw [if_neg hr]
            exact (Except.ok.inj ht).symm
  · rw [if_neg (fun hm => hjump (and_jump.mp hm))] at ht
    rw [record, if_pos (.inr hjump)]
    exact (Except.ok.inj ht).symm

theorem Holds.step {head : List Fpool} {t t' : Tracer} {x : Log} {s : Decode} (h : Holds head t x)
    (ht : ftraceRcd t s = .ok t') : Holds head t' (x.step head s) := by
  have hrecord := ftraceRcd_record ht
  rw [h.head, h.stackPtr] at hrecord
  rw [Log.step]
  cases hr : record head x.depth s with
  | none =>
    rw [hr] at hrecord
    rw [hrecord]
    exact h
  | some b =>
    rw [hr] at hrecord
    obtain ⟨hhead, hsp, hring⟩ := hrecord
    exact ⟨hhead, hsp, by rw [hring, h.ring, List.foldl_append, List.foldl_cons, List.foldl_nil]⟩

theorem holds_run {program : List Fpool} {history : Nat → Decode} {n : Nat} {t : Tracer}
    (ht : (run program history n).tracer = .ok t) : Holds program.reverse t (log program history n) := by
  induction n generalizing t with
  | zero =>
    have hstart : start program = .ok t := ht
    rw [start_eq] at hstart
    split_ifs at hstart
    rw [← Except.ok.inj hstart]
    exact ⟨rfl, rfl, rfl⟩
  | succ n ih =>
    rw [run, Clocked.run_succ, ← run, feed] at ht
    cases hn : (run program history n).tracer with
    | error e =>
      rw [hn] at ht
      cases ht
    | ok t₀ =>
      rw [hn] at ht
      exact (ih hn).step ht

theorem message_ne {head : List Fpool} {depth : BitVec 32} {s : Decode} {b : Fbuf}
    (h : record head depth s = some b) :
    b.message ≠ [] := by
  rw [record] at h
  by_cases hj : head = [] ∨ ¬ (opcode s.inst = instJal ∨ opcode s.inst = instJalr)
  · rw [if_pos hj] at h
    cases h
  rw [if_neg hj] at h
  cases hf : functionAt head s.dnpc with
  | none =>
    rw [hf] at h
    rw [← Option.some.inj h]
    exact List.cons_ne_nil _ _
  | some f =>
    simp only [hf] at h
    split_ifs at h
    · rw [← Option.some.inj h]
      exact List.cons_ne_nil _ _
    · obtain ⟨g, -, rfl⟩ := Option.map_eq_some_iff.mp h
      exact List.cons_ne_nil _ _

theorem log_messages (program : List Fpool) (history : Nat → Decode) (n : Nat) :
    ∀ b ∈ (log program history n).events, b.message ≠ [] := by
  apply Clocked.run_invariant (P := fun x : Log => ∀ b ∈ x.events, b.message ≠ [])
  · simp
  · intro s x h
    rw [Log.step]
    cases hr : record program.reverse x.depth s with
    | none => exact h
    | some b =>
      intro c hc
      rcases List.mem_append.mp hc with hc | hc
      · exact h c hc
      · rw [List.mem_singleton.mp hc]
        exact message_ne hr

theorem ftracePrint_eq (t : Tracer) :
    ftracePrint t = (t.ring.contents.filter fun b => ¬ b.message = []).map line := by
  have hslots : (List.finRange fringSize).map (fun i => t.fringbuf[realPtr t i]) = t.ring.contents := by
    have hp := t.fringbufPtr.isLt
    apply List.ext_getElem
    · simp [Ring.length_contents]
    · intro k hk hk'
      have hk50 : k < fringSize := by simpa using hk
      have hreal : (realPtr t ⟨k, hk50⟩).val = (k + t.fringbufPtr.val) % fringSize := by
        simp only [fringSize] at hp hk50 ⊢
        unfold realPtr
        split_ifs with h
        · change t.fringbufPtr.val + k < 50 at h
          change t.fringbufPtr.val + k = _
          omega
        · change ¬ t.fringbufPtr.val + k < 50 at h
          change t.fringbufPtr.val + k - 50 = _
          omega
      simp only [Ring.contents, Tracer.ring, List.getElem_rotate, List.getElem_map, List.getElem_finRange,
        Vector.length_toList, Vector.getElem_toList]
      change t.fringbuf[(realPtr t ⟨k, hk50⟩).val] = _
      simp only [hreal]
  rw [ftracePrint, filterMap_ite (fun i => t.fringbuf[realPtr t i].message = []), ← hslots, List.filter_map,
    List.map_map]
  rfl

end Ftrace

/-- After any run of the tracer `ftrace_print` shows the last 50 entries of the log, the oldest first and
each with its depth. -/
theorem ftrace_print_latest (program : List Ftrace.Fpool) (history : Nat → Ftrace.Decode) (n : Nat)
    (t : Ftrace.Tracer) (ht : (Ftrace.run program history n).tracer = .ok t) :
    Ftrace.ftracePrint t = (latest Ftrace.fringSize (Ftrace.log program history n).events).map Ftrace.line := by
  have hh := Ftrace.holds_run ht
  have hmessages := Ftrace.log_messages program history n
  rw [Ftrace.ftracePrint_eq, hh.ring, Ftrace.Tracer.init, Ftrace.Tracer.ring, contents_of_blank,
    List.filter_append]
  have hblank : (List.replicate (Ftrace.fringSize - (Ftrace.log program history n).events.length)
      (⟨0#32, [], [], .typeOther⟩ : Ftrace.Fbuf)).filter (fun b => ¬ b.message = []) = [] := by
    rw [List.filter_eq_nil_iff]
    intro b hb
    simp [List.eq_of_mem_replicate hb]
  have hall : (latest Ftrace.fringSize (Ftrace.log program history n).events).filter (fun b => ¬ b.message = []) =
      latest Ftrace.fringSize (Ftrace.log program history n).events := by
    rw [List.filter_eq_self]
    intro b hb
    simpa using hmessages b (List.mem_of_mem_drop hb)
  rw [hblank, hall, List.nil_append]

/-- A call and its return. -/
theorem ftrace_print_latest_return : ∃ t, (Ftrace.run Ftrace.twoFunctions Ftrace.callAndReturn 2).tracer = .ok t ∧
    Ftrace.ftracePrint t = ["0x80000010: call [f@0x80000040]\n".toList, "0x80000050: ret [f]\n".toList] := by
  have hsome : (Ftrace.run Ftrace.twoFunctions Ftrace.callAndReturn 2).tracer.toOption.isSome = true := by decide
  cases hrun : (Ftrace.run Ftrace.twoFunctions Ftrace.callAndReturn 2).tracer with
  | error e =>
    rw [hrun] at hsome
    cases hsome
  | ok t =>
    refine ⟨t, rfl, ?_⟩
    rw [ftrace_print_latest _ _ _ t hrun]
    decide

end Npc
