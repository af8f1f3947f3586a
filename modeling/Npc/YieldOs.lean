import Npc.Yield

/-! The kernel `yield-os`: two threads that hand the hart to each other by `yield`. -/

namespace Npc

open ByteMemory Rv32i

namespace Am

namespace Area

/-- The byte at `x` is one of the area's. -/
def Has (a : Area) (x : Word) : Prop := a.start.toNat ≤ x.toNat ∧ x.toNat < a.stop.toNat

variable {a b : Area} {p x y : Word}

instance : Decidable (a.Disjoint b) := inferInstanceAs (Decidable (_ ∨ _))

theorem Disjoint.ne (h : a.Disjoint b) (hx : a.Has x) (hy : b.Has y) : x ≠ y := by
  rintro rfl
  obtain ⟨hx1, hx2⟩ := hx
  obtain ⟨hy1, hy2⟩ := hy
  rcases h with h | h <;> rw [BitVec.le_def] at h <;> omega

theorem Room.has (h : a.Room p) {i : Nat} (hi : i < contextSize) : a.Has (p + BitVec.ofNat 32 i) := by
  obtain ⟨h1, h2⟩ := h
  have hstop := a.stop.isLt
  have hsum : (p + BitVec.ofNat 32 i).toNat = p.toNat + i := by
    rw [BitVec.toNat_add, BitVec.toNat_ofNat]
    omega
  exact ⟨by omega, by omega⟩

end Area

namespace YieldOs

/-- `STACK_SIZE`, which is the size of a PCB. -/
def stackSize : Nat := 4096 * 8

/-- The four bytes of a pointer variable. -/
def cell (x : Word) : Area := ⟨x, x + 4#32⟩

/-- Where the linker puts the variables, the code of `f` and the stack of `main`. -/
structure Image where
  pcb : Word
  pcbBoot : Word
  current : Word
  f : Word
  stack : Area
  pcb_fits : pcb.toNat + 2 * stackSize < 2 ^ 32
  pcbBoot_fits : pcbBoot.toNat + stackSize < 2 ^ 32
  current_fits : current.toNat + 4 < 2 ^ 32
  disjoint : [⟨pcb, pcb + BitVec.ofNat 32 (2 * stackSize)⟩, ⟨pcbBoot, pcbBoot + BitVec.ofNat 32 stackSize⟩,
    cell current, stack].Pairwise Area.Disjoint
  stack_start : 0 < stack.start.toNat

namespace Image

variable (g : Image)

/-- `&pcb[i]`, which is where its member `cp` lies. -/
def pcbAt (i : Fin 2) : Word := g.pcb + BitVec.ofNat 32 (stackSize * i)

/-- The stack of a thread, which is its PCB above `cp`. -/
def kstack (i : Fin 2) : Area := ⟨g.pcbAt i + 4#32, g.pcbAt i + BitVec.ofNat 32 stackSize⟩

def schedule : UserHandler := fun _ prev m =>
  let m := storeWord m (word m g.current 0) 0 prev
  let next := if word m g.current 0 = g.pcbAt 0 then g.pcbAt 1 else g.pcbAt 0
  let m := storeWord m g.current 0 next
  (word m next 0, m)

/-- A thread's context in its PCB, and the pointer to it. -/
def create (i : Fin 2) (arg : Word) (m : Pmem) : Pmem :=
  let c := kcontext ⟨g.pcbAt i, g.pcbAt i + BitVec.ofNat 32 stackSize⟩ g.f arg m
  storeWord c.2 (g.pcbAt i) 0 c.1

/-- The memory that `main` leaves for its `yield`. -/
def main (m : Pmem) : Pmem := g.create 1 2#32 (g.create 0 1#32 m)

/-- Code between two yields keeps off the pointers of the kernel, and off the contexts of the
threads that do not run. -/
structure Keeps (m m' : Pmem) : Prop where
  current : word m' g.current 0 = word m g.current 0
  cp : ∀ i, word m' (g.pcbAt i) 0 = word m (g.pcbAt i) 0
  frame : ∀ i, g.pcbAt i ≠ word m g.current 0 → ∀ k < contextSize,
    m (word m (g.pcbAt i) 0 + BitVec.ofNat 32 k) = m' (word m (g.pcbAt i) 0 + BitVec.ofNat 32 k)

/-- The thread that runs behind `n` yields, where none is `main`. -/
def thread : Nat → Option (Fin 2)
  | 0 => none
  | n + 1 => some (Fin.ofNat 2 n)

/-- The PCB of a thread, which is `&pcb_boot` for `main`. -/
def pcbOf (o : Option (Fin 2)) : Word := o.elim g.pcbBoot g.pcbAt

def stackOf (o : Option (Fin 2)) : Area := o.elim g.stack g.kstack

/-- The thread that `schedule` picks. -/
def next : Option (Fin 2) → Fin 2
  | none => 0
  | some i => i + 1

/-- The harts at their yields, the latest first, and the hart now. -/
inductive Run : List Hart → Hart → Prop
  | start (m : Pmem) (h : Hart) (hcurrent : word m g.current 0 = g.pcbBoot) (hmain : h.pmem = g.main m) :
    Run [] h
  | exec (ys : List Hart) (h h' : Hart) (hr : Run ys h) (hkeeps : g.Keeps h.pmem h'.pmem) : Run ys h'
  | yield (ys : List Hart) (h h' : Hart) (clobber : Reg → Word) (hr : Run ys h)
    (hroom : (g.stackOf (thread ys.length)).Room (framePtr h.gpr))
    (htrap : amAsmTrap (some g.schedule) clobber (ecall h) = some h') : Run (h :: ys) h'

/-- What a thread goes on with when it runs again: what it last yielded with, or its entry. -/
def saved : List Hart → Fin 2 → Ctx
  | [], i => ⟨g.kstack i, .fresh g.f (BitVec.ofNat 32 (i + 1))⟩
  | y :: ys, i => if thread ys.length = some i then ⟨g.kstack i, .suspended y.gpr y.pc⟩ else saved ys i

/-- The threads that do not run while `o` does. -/
def waiting (o : Option (Fin 2)) : List (Fin 2) := (List.finRange 2).filter fun i => o ≠ some i

def world (ys : List Hart) (h : Hart) : World :=
  ⟨h, g.stackOf (thread ys.length), (waiting (thread ys.length)).map (g.saved ys)⟩

/-- `current` names the PCB of the thread that runs, and the other PCBs their contexts. -/
structure Inv (ys : List Hart) (h : Hart) : Prop where
  current : word h.pmem g.current 0 = g.pcbOf (thread ys.length)
  cp : ∀ i ∈ waiting (thread ys.length), word h.pmem (g.pcbAt i) 0 = (g.saved ys i).frame
  world : (g.world ys h).Inv

end Image

section Layout

variable {g : Image} {i j : Fin 2} {n : Nat} {a : Area} {x y z v p : Word} {m m' : Pmem}

theorem stackSize_eq : stackSize = 32768 := rfl

theorem toNat_add_of_fits {k : Nat} (h : x.toNat + k < 2 ^ 32) : (x + BitVec.ofNat 32 k).toNat = x.toNat + k := by
  rw [BitVec.toNat_add, BitVec.toNat_ofNat, Nat.mod_eq_of_lt (a := k) (by omega), Nat.mod_eq_of_lt h]

theorem pcbAt_toNat (i : Fin 2) : (g.pcbAt i).toNat = g.pcb.toNat + 32768 * i := by
  have hfits := g.pcb_fits
  rw [stackSize_eq] at hfits
  rw [Image.pcbAt, stackSize_eq, toNat_add_of_fits (by omega)]

theorem kstack_toNat (i : Fin 2) : (g.kstack i).start.toNat = g.pcb.toNat + 32768 * i + 4 ∧
    (g.kstack i).stop.toNat = g.pcb.toNat + 32768 * i + 32768 := by
  have hfits := g.pcb_fits
  rw [stackSize_eq] at hfits
  have hi := pcbAt_toNat (g := g) i
  rw [Image.kstack, stackSize_eq, ← hi]
  exact ⟨toNat_add_of_fits (by omega), toNat_add_of_fits (by omega)⟩

theorem cell_toNat (hx : x.toNat + 4 < 2 ^ 32) :
    (cell x).start.toNat = x.toNat ∧ (cell x).stop.toNat = x.toNat + 4 :=
  ⟨rfl, toNat_add_of_fits hx⟩

/-- The four objects one before the other, in whatever order. -/
theorem Image.apart (g : Image) :
    ((g.pcb.toNat + 65536 ≤ g.pcbBoot.toNat ∨ g.pcbBoot.toNat + 32768 ≤ g.pcb.toNat) ∧
      (g.pcb.toNat + 65536 ≤ g.current.toNat ∨ g.current.toNat + 4 ≤ g.pcb.toNat) ∧
      (g.pcb.toNat + 65536 ≤ g.stack.start.toNat ∨ g.stack.stop.toNat ≤ g.pcb.toNat)) ∧
    ((g.pcbBoot.toNat + 32768 ≤ g.current.toNat ∨ g.current.toNat + 4 ≤ g.pcbBoot.toNat) ∧
      (g.pcbBoot.toNat + 32768 ≤ g.stack.start.toNat ∨ g.stack.stop.toNat ≤ g.pcbBoot.toNat)) ∧
    (g.current.toNat + 4 ≤ g.stack.start.toNat ∨ g.stack.stop.toNat ≤ g.current.toNat) := by
  have hpcb := g.pcb_fits
  have hboot := g.pcbBoot_fits
  have hcurrent := cell_toNat g.current_fits
  have hall := g.disjoint
  have hpcb' : (g.pcb + BitVec.ofNat 32 (2 * stackSize)).toNat = g.pcb.toNat + 65536 := toNat_add_of_fits hpcb
  have hboot' : (g.pcbBoot + BitVec.ofNat 32 stackSize).toNat = g.pcbBoot.toNat + 32768 := toNat_add_of_fits hboot
  simpa [Area.Disjoint, BitVec.le_def, hpcb', hboot', hcurrent] using hall

theorem pcbOf_fits (o : Option (Fin 2)) : (g.pcbOf o).toNat + 4 < 2 ^ 32 := by
  have hfits := g.pcb_fits
  have hboot := g.pcbBoot_fits
  simp only [stackSize] at hfits hboot
  cases o with
  | none => simp only [Image.pcbOf, Option.elim]; omega
  | some i => simp only [Image.pcbOf, Option.elim, pcbAt_toNat]; omega

theorem cell_disjoint_iff (hx : x.toNat + 4 < 2 ^ 32) :
    (cell x).Disjoint a ↔ x.toNat + 4 ≤ a.start.toNat ∨ a.stop.toNat ≤ x.toNat := by
  obtain ⟨h1, h2⟩ := cell_toNat hx
  rw [Area.Disjoint, BitVec.le_def, BitVec.le_def, h1, h2]

theorem current_disjoint (o : Option (Fin 2)) :
    (cell g.current).Disjoint (cell (g.pcbOf o)) ∧ (cell g.current).Disjoint (g.stackOf o) := by
  obtain ⟨⟨-, hpc, -⟩, ⟨hbc, -⟩, hcs⟩ := g.apart
  obtain ⟨h1, h2⟩ := cell_toNat (pcbOf_fits (g := g) o)
  rw [cell_disjoint_iff g.current_fits, cell_disjoint_iff g.current_fits, h1, h2]
  cases o with
  | none => simp only [Image.pcbOf, Image.stackOf, Option.elim]; omega
  | some i =>
    simp only [Image.pcbOf, Image.stackOf, Option.elim, pcbAt_toNat, kstack_toNat]
    omega

theorem pcbOf_disjoint {o o' : Option (Fin 2)} (h : o ≠ o') :
    (cell (g.pcbOf o)).Disjoint (cell (g.pcbOf o')) := by
  obtain ⟨⟨hpb, -⟩, -⟩ := g.apart
  obtain ⟨h1, h2⟩ := cell_toNat (pcbOf_fits (g := g) o')
  rw [cell_disjoint_iff (pcbOf_fits o), h1, h2]
  cases o <;> cases o' <;> simp only [Image.pcbOf, Option.elim, pcbAt_toNat] <;> grind

theorem pcbOf_disjoint_stackOf (o o' : Option (Fin 2)) : (cell (g.pcbOf o)).Disjoint (g.stackOf o') := by
  obtain ⟨⟨hpb, -, hps⟩, ⟨-, hbs⟩, -⟩ := g.apart
  rw [cell_disjoint_iff (pcbOf_fits o)]
  cases o <;> cases o' <;>
    simp only [Image.pcbOf, Image.stackOf, Option.elim, pcbAt_toNat, kstack_toNat] <;> omega

theorem stackOf_disjoint {o o' : Option (Fin 2)} (h : o ≠ o') : (g.stackOf o).Disjoint (g.stackOf o') := by
  obtain ⟨⟨-, -, hps⟩, -⟩ := g.apart
  rw [Area.Disjoint, BitVec.le_def, BitVec.le_def]
  cases o <;> cases o' <;> simp only [Image.stackOf, Option.elim, kstack_toNat] <;> grind

end Layout

section Memory

variable {g : Image} {o o' : Option (Fin 2)} {a : Area} {x y z v p prev : Word} {m : Pmem} {w : World}

theorem storeWord_cell (hx : x.toNat + 4 < 2 ^ 32) (hz : ¬(cell x).Has z) : storeWord m x 0 v z = m z := by
  obtain ⟨h1, h2⟩ := cell_toNat hx
  refine storeWord_outside (n := 1) (by omega) (by omega) ?_
  rw [Area.Has, h1, h2] at hz
  have hsub := BitVec.toNat_sub z x
  have hlt := z.isLt
  omega

theorem cell_has (hx : x.toNat + 4 < 2 ^ 32) {k : Nat} (hk : k < 4) : (cell x).Has (x + BitVec.ofNat 32 k) := by
  obtain ⟨h1, h2⟩ := cell_toNat hx
  rw [Area.Has, h1, h2, BitVec.toNat_add, BitVec.toNat_ofNat]
  omega

/-- A variable is the same in memories that agree on its cell. -/
theorem word_cell {m m' : Pmem} (hx : x.toNat + 4 < 2 ^ 32) (h : ∀ z, (cell x).Has z → m z = m' z) :
    word m x 0 = word m' x 0 :=
  word_congr (n := 1) (fun k hk => h _ (cell_has hx (by omega))) (by omega)

theorem word_storeWord_cell (hx : x.toNat + 4 < 2 ^ 32) (hy : y.toNat + 4 < 2 ^ 32)
    (h : (cell x).Disjoint (cell y)) : word (storeWord m x 0 v) y 0 = word m y 0 :=
  word_cell hy fun _ hz => storeWord_cell hx fun hz' => h.ne hz' hz rfl

theorem storeWord_cell_of_disjoint (hx : x.toNat + 4 < 2 ^ 32) (h : (cell x).Disjoint a) (hz : a.Has z) :
    storeWord m x 0 v z = m z := storeWord_cell hx fun hz' => h.ne hz' hz rfl

/-- What `schedule` does when `o` runs. -/
structure Scheduled (g : Image) (o : Option (Fin 2)) (prev : Word) (m : Pmem) (r : Word × Pmem) : Prop where
  ret : r.1 = word m (g.pcbAt (Image.next o)) 0
  current : word r.2 g.current 0 = g.pcbAt (Image.next o)
  cp : word r.2 (g.pcbOf o) 0 = prev
  other : ∀ o', o ≠ o' → word r.2 (g.pcbOf o') 0 = word m (g.pcbOf o') 0
  outside : ∀ o' z, (g.stackOf o').Has z → r.2 z = m z

theorem next_ne (o : Option (Fin 2)) : o ≠ some (Image.next o) := by
  cases o with
  | none => nofun
  | some i =>
    revert i
    decide

theorem pcbOf_ne (h : o ≠ o') : g.pcbOf o ≠ g.pcbOf o' := by
  have hcell := fun o => cell_has (pcbOf_fits (g := g) o) (by omega : 0 < 4)
  simpa using (pcbOf_disjoint h).ne (hcell o) (hcell o')

theorem schedule_next (o : Option (Fin 2)) :
    (if g.pcbOf o = g.pcbAt 0 then g.pcbAt 1 else g.pcbAt 0) = g.pcbAt (Image.next o) := by
  by_cases h : o = some 0
  · subst h
    exact if_pos rfl
  · have hnext : Image.next o = 0 := by
      cases o with
      | none => rfl
      | some i =>
        obtain rfl : i = 1 := by grind
        rfl
    rw [hnext]
    exact if_neg (pcbOf_ne h)

theorem schedule_spec (ev : AmEvent) (hcurrent : word m g.current 0 = g.pcbOf o) :
    Scheduled g o prev m (g.schedule ev prev m) := by
  have hfits := g.current_fits
  have hcells := fun o => (current_disjoint (g := g) o).1
  let m₁ := storeWord m (g.pcbOf o) 0 prev
  have hcurrent₁ : word m₁ g.current 0 = g.pcbOf o :=
    (word_storeWord_cell (pcbOf_fits o) hfits (hcells o).symm).trans hcurrent
  have hkept : ∀ o' (v : Word), word (storeWord m₁ g.current 0 v) (g.pcbOf o') 0 = word m₁ (g.pcbOf o') 0 :=
    fun o' v => word_storeWord_cell hfits (pcbOf_fits o') (hcells o')
  have hother : ∀ o', o ≠ o' → word m₁ (g.pcbOf o') 0 = word m (g.pcbOf o') 0 :=
    fun o' h => word_storeWord_cell (pcbOf_fits o) (pcbOf_fits o') (pcbOf_disjoint h)
  have hr : g.schedule ev prev m = (word (storeWord m₁ g.current 0 (g.pcbAt (Image.next o)))
      (g.pcbAt (Image.next o)) 0, storeWord m₁ g.current 0 (g.pcbAt (Image.next o))) := by
    simp only [Image.schedule, hcurrent]
    rw [hcurrent₁, schedule_next]
  rw [hr]
  constructor
  case ret => exact (hkept (some _) _).trans (hother (some _) (next_ne o))
  case current => exact word_storeWord_self (by omega)
  case cp => exact (hkept o _).trans (word_storeWord_self (by omega))
  case other => exact fun o' h => (hkept o' _).trans (hother o' h)
  case outside =>
    intro o' z hz
    have hz₁ : m₁ z = m z := storeWord_cell_of_disjoint (pcbOf_fits o) (pcbOf_disjoint_stackOf o o') hz
    exact (storeWord_cell_of_disjoint hfits (current_disjoint o').2 hz).trans hz₁

theorem Room.outside (hp : a.Room p) (hz : ¬a.Has z) : contextSize ≤ (z - p).toNat := by
  obtain ⟨h1, h2⟩ := hp
  rw [Area.Has] at hz
  have hsub := BitVec.toNat_sub z p
  have hz' := z.isLt
  have hstop := a.stop.isLt
  have hsize : contextSize = 144 := rfl
  omega

/-- Up to the handler the trap has written in the frame only. -/
theorem handed_outside (w : World) (hz : contextSize ≤ (z - w.running.frame).toNat) :
    w.handed z = w.hart.pmem z :=
  (storeWord_outside (n := 36) (by decide) (by decide) hz).trans
    ((entered_trapEntry (ecall w.hart)).outside z hz)

theorem word_handed (w : World) (hx : x.toNat + 4 < 2 ^ 32) (hroom : w.current.Room w.running.frame)
    (h : (cell x).Disjoint w.current) : word w.handed x 0 = word w.hart.pmem x 0 :=
  word_cell hx fun _ hz => handed_outside w (Room.outside hroom fun hz' => h.ne hz hz' rfl)

theorem pmem_of_trap {handler : UserHandler} {clobber : Reg → Word} {hart : Hart} {r : Word × Pmem}
    (hirq : amIrqHandle (some handler) w.running.frame w.entered = some r)
    (htrap : amAsmTrap (some handler) clobber (ecall w.hart) = some hart) : hart.pmem = r.2 := by
  have hptr : (execAll trapEntry (ecall w.hart)).gpr a0 = w.running.frame :=
    (entered_trapEntry (ecall w.hart)).ptr
  have hentered : (execAll trapEntry (ecall w.hart)).pmem = w.entered := rfl
  rw [amAsmTrap, hptr, hentered, hirq, Option.map_some] at htrap
  rw [← Option.some.inj htrap, (left_trapExit _).pmem, afterCall_pmem]

theorem World.Inv.subperm {h : Hart} {cs cs' : List Ctx} (hi : (World.mk h a cs).Inv) (hs : cs'.Subperm cs) :
    (World.mk h a cs').Inv := by
  have hmem : ∀ d ∈ cs', d ∈ cs := fun d hd => hs.subset hd
  obtain ⟨l, hperm, hsub⟩ := hs
  have hsub' : (a :: l.map Ctx.kstack).Sublist (a :: cs.map Ctx.kstack) := (hsub.map Ctx.kstack).cons_cons a
  have hperm' : (a :: l.map Ctx.kstack).Perm (a :: cs'.map Ctx.kstack) := (hperm.map Ctx.kstack).cons a
  exact ⟨(hi.disjoint.sublist hsub').perm hperm' Area.Disjoint.symm,
    fun b hb => hi.start b (hsub'.subset (hperm'.symm.subset hb)),
    fun d hd => hi.room d (hmem d hd), fun d hd => hi.held d (hmem d hd)⟩

end Memory

section Kernel

variable {g : Image} {ys : List Hart} {h h' : Hart} {i : Fin 2} {o : Option (Fin 2)} {clobber : Reg → Word}

theorem thread_succ (n : Nat) : Image.thread (n + 1) = some (Image.next (Image.thread n)) := by
  cases n with
  | zero => rfl
  | succ n =>
    have hmod : (n + 1) % 2 = (n % 2 + 1) % 2 := by omega
    exact congrArg some (Fin.ext hmod)

@[simp] theorem mem_waiting : i ∈ Image.waiting o ↔ o ≠ some i := by simp [Image.waiting]

theorem waiting_some (i : Fin 2) : Image.waiting (some i) = [i + 1] := by
  revert i
  decide

theorem saved_kstack (ys : List Hart) (i : Fin 2) : (g.saved ys i).kstack = g.kstack i := by
  induction ys with
  | nil => rfl
  | cons y ys ih =>
    rw [Image.saved]
    split
    · rfl
    · exact ih

theorem Image.Inv.exec (hi : g.Inv ys h) (hkeeps : g.Keeps h.pmem h'.pmem) : g.Inv ys h' := by
  have hne : ∀ i ∈ Image.waiting (Image.thread ys.length), g.pcbAt i ≠ word h.pmem g.current 0 := by
    intro i hw
    rw [hi.current]
    exact (pcbOf_ne (g := g) (mem_waiting.mp hw)).symm
  refine ⟨hkeeps.current.trans hi.current, fun i hw => (hkeeps.cp i).trans (hi.cp i hw), ?_⟩
  refine (Step.exec (g.world ys h) h' ?_).inv hi.world
  intro c hc k hk
  obtain ⟨i, hw, rfl⟩ := List.mem_map.mp hc
  rw [← hi.cp i hw]
  exact hkeeps.frame i (hne i hw) k hk

theorem running_eq (ho : Image.thread ys.length = some i) :
    (g.world ys h).running = ⟨g.kstack i, .suspended h.gpr h.pc⟩ := by
  rw [World.running, Image.world, ho]
  rfl

theorem mem_contexts (ys : List Hart) (h : Hart) :
    g.saved ys (Image.next (Image.thread ys.length)) ∈ (g.world ys h).contexts :=
  List.mem_cons_of_mem _ (List.mem_map_of_mem (mem_waiting.mpr (next_ne _)))

section Yield

variable (hi : g.Inv ys h) (hroom : (g.stackOf (Image.thread ys.length)).Room (framePtr h.gpr))

include hi hroom

theorem Image.Inv.cp_handed (hne : Image.thread ys.length ≠ some i) :
    word (g.world ys h).handed (g.pcbAt i) 0 = (g.saved ys i).frame :=
  (word_handed (g.world ys h) (pcbOf_fits (some i)) hroom (pcbOf_disjoint_stackOf (some i) _)).trans
    (hi.cp i (mem_waiting.mpr hne))

theorem Image.Inv.scheduled : Scheduled g (Image.thread ys.length) (framePtr h.gpr) (g.world ys h).handed
    (g.schedule .eventYield (framePtr h.gpr) (g.world ys h).handed) :=
  schedule_spec _ <|
    (word_handed (g.world ys h) g.current_fits hroom (current_disjoint _).2).trans hi.current

theorem Image.Inv.serves :
    (g.world ys h).Serves g.schedule (g.saved ys (Image.next (Image.thread ys.length))) := by
  have hs := hi.scheduled hroom
  refine ⟨hs.ret.trans (hi.cp_handed hroom (next_ne _)), fun d hd k hk => ?_⟩
  have hhas : d.kstack.Has (d.frame + BitVec.ofNat 32 k) := (hi.world.room_of_mem hroom hd).has hk
  obtain ⟨o, ho⟩ : ∃ o, d.kstack = g.stackOf o := by
    rcases List.mem_cons.mp hd with rfl | hd
    · exact ⟨_, rfl⟩
    · obtain ⟨i, -, rfl⟩ := List.mem_map.mp hd
      exact ⟨some i, saved_kstack ys i⟩
  rw [ho] at hhas
  exact (hs.outside o _ hhas).symm

theorem Image.Inv.yield_schedule (htrap : amAsmTrap (some g.schedule) clobber (ecall h) = some h') :
    ∃ r, Scheduled g (Image.thread ys.length) (framePtr h.gpr) (g.world ys h).handed r ∧ h'.pmem = r.2 := by
  have hmem := mem_contexts (g := g) ys h
  have hirq := amIrqHandle_running (hi.world.room_of_mem hroom hmem) (hi.world.start_of_mem hmem)
    (hi.serves hroom).1
  exact ⟨_, hi.scheduled hroom, pmem_of_trap hirq htrap⟩

theorem Image.Inv.yield_world (htrap : amAsmTrap (some g.schedule) clobber (ecall h) = some h') :
    (g.world (h :: ys) h').Inv := by
  have hnext : Image.thread (h :: ys).length = some (Image.next (Image.thread ys.length)) := thread_succ _
  obtain ⟨s, t, hst⟩ := List.append_of_mem (mem_waiting.mpr (next_ne (Image.thread ys.length)))
  have hcontexts : (g.world ys h).contexts = ((g.world ys h).running :: s.map (g.saved ys)) ++
      g.saved ys (Image.next (Image.thread ys.length)) :: t.map (g.saved ys) := by
    simp only [World.contexts, Image.world, hst, List.map_append, List.map_cons, List.cons_append]
  have hinv := (Step.yield (g.world ys h) g.schedule clobber h' _ _ _ hroom (hi.serves hroom) hcontexts htrap).inv
    hi.world
  rw [saved_kstack] at hinv
  rw [Image.world, hnext, waiting_some]
  refine World.Inv.subperm hinv (List.singleton_subperm_iff.mpr ?_)
  rw [Image.saved]
  by_cases ho : Image.thread ys.length = some (Image.next (Image.thread ys.length) + 1)
  · rw [if_pos ho]
    exact List.mem_append_left _ (List.mem_cons.mpr (Or.inl (running_eq ho).symm))
  · rw [if_neg ho]
    have hw := mem_waiting.mpr ho
    have hne : ∀ i : Fin 2, i + 1 ≠ i := by decide
    rw [hst, List.mem_append, List.mem_cons] at hw
    rcases hw with hw | hw | hw
    · exact List.mem_append_left _ (List.mem_cons_of_mem _ (List.mem_map_of_mem hw))
    · exact absurd hw (hne _)
    · exact List.mem_append_right _ (List.mem_map_of_mem hw)

theorem Image.Inv.yield (htrap : amAsmTrap (some g.schedule) clobber (ecall h) = some h') :
    g.Inv (h :: ys) h' := by
  obtain ⟨r, hs, hpmem⟩ := hi.yield_schedule hroom htrap
  refine ⟨?_, fun i _ => ?_, hi.yield_world hroom htrap⟩
  · have hnext : Image.thread (h :: ys).length = some (Image.next (Image.thread ys.length)) := thread_succ _
    rw [hpmem, hnext]
    exact hs.current
  · rw [hpmem, Image.saved]
    by_cases ho : Image.thread ys.length = some i
    · rw [if_pos ho]
      have hcp := hs.cp
      rw [ho] at hcp
      exact hcp
    · rw [if_neg ho]
      exact (hs.other (some i) ho).trans (hi.cp_handed hroom ho)

end Yield

section Start

variable {m : Pmem} {x arg : Word}

theorem kstack_room (i : Fin 2) (arg : Word) (m : Pmem) :
    (g.kstack i).Room (kcontext (g.kstack i) g.f arg m).1 := by
  obtain ⟨h1, h2⟩ := kstack_toNat (g := g) i
  have hsize : (BitVec.ofNat 32 contextSize).toNat = 144 := rfl
  have hle : BitVec.ofNat 32 contextSize ≤ (g.kstack i).stop := by
    rw [BitVec.le_def, hsize]
    omega
  have hptr := BitVec.toNat_sub_of_le hle
  rw [hsize] at hptr
  refine ⟨?_, ?_⟩
  · rw [kcontext, hptr, h1]
    omega
  · rw [kcontext, hptr, contextSize]
    omega

theorem word_create (hx : x.toNat + 4 < 2 ^ 32) (hcell : (cell (g.pcbAt i)).Disjoint (cell x))
    (hstack : (cell x).Disjoint (g.kstack i)) : word (g.create i arg m) x 0 = word m x 0 := by
  refine (word_storeWord_cell (pcbOf_fits (some i)) hx hcell).trans (word_cell hx fun z hz => ?_)
  have hfar := Room.outside (kstack_room (g := g) i arg m) fun hz' => hstack.ne hz hz' rfl
  have hout : ∀ {j} (v : Word) (m : Pmem), j < 36 →
      storeWord m (kcontext (g.kstack i) g.f arg m).1 j v z = m z := fun v m hj =>
    storeWord_outside hj (by decide) hfar
  exact (hout _ _ (by decide)).trans ((hout _ _ (by decide)).trans (hout _ _ (by decide)))

theorem create_inv (i : Fin 2) (arg : Word) {cs : List Ctx} (hi : (World.mk { h with pmem := m } g.stack cs).Inv)
    (hcs : ∀ c ∈ cs, ∃ j, i ≠ j ∧ c.kstack = g.kstack j) :
    (World.mk { h with pmem := g.create i arg m } g.stack (⟨g.kstack i, .fresh g.f arg⟩ :: cs)).Inv := by
  have hstart : 0 < (g.kstack i).start.toNat := by
    have hh := (kstack_toNat (g := g) i).1
    omega
  have hdisjoint : ∀ a ∈ (World.mk { h with pmem := m } g.stack cs).kstacks, (g.kstack i).Disjoint a := by
    intro a ha
    rcases List.mem_cons.mp ha with rfl | ha
    · have hh : (g.stackOf (some i)).Disjoint (g.stackOf none) := stackOf_disjoint nofun
      exact hh
    · obtain ⟨c, hc, rfl⟩ := List.mem_map.mp ha
      obtain ⟨j, hne, hj⟩ := hcs c hc
      rw [hj]
      have hh : (g.stackOf (some i)).Disjoint (g.stackOf (some j)) :=
        stackOf_disjoint fun he => hne (Option.some.inj he)
      exact hh
  have hcreated := (Step.kcontext _ (g.kstack i) g.f arg hstart (kstack_room i arg m) hdisjoint).inv hi
  refine (Step.exec _ { h with pmem := g.create i arg m } ?_).inv hcreated
  intro c hc k hk
  obtain ⟨o, ho⟩ : ∃ o, c.kstack = g.stackOf o := by
    rcases List.mem_cons.mp hc with rfl | hc
    · exact ⟨some i, rfl⟩
    · obtain ⟨j, -, hj⟩ := hcs c hc
      exact ⟨some j, hj⟩
  have hhas := (hcreated.room c hc).has hk
  rw [ho] at hhas
  exact (storeWord_cell_of_disjoint (pcbOf_fits (some i)) (pcbOf_disjoint_stackOf (some i) o) hhas).symm

theorem inv_start (hcurrent : word m g.current 0 = g.pcbBoot) (hmain : h.pmem = g.main m) : g.Inv [] h := by
  have hcells := fun i : Fin 2 => current_disjoint (g := g) (some i)
  have hcp : ∀ (i : Fin 2) (arg : Word) (m : Pmem), word (g.create i arg m) (g.pcbAt i) 0 =
      (kcontext (g.kstack i) g.f arg m).1 := fun _ _ _ => word_storeWord_self (by omega)
  have hcell : (cell (g.pcbOf (some 1))).Disjoint (cell (g.pcbOf (some 0))) := pcbOf_disjoint (by decide)
  have hkept : ∀ m : Pmem, word (g.create 1 2#32 m) (g.pcbAt 0) 0 = word m (g.pcbAt 0) 0 := fun m =>
    word_create (pcbOf_fits (some 0)) hcell (pcbOf_disjoint_stackOf (some 0) (some 1))
  constructor
  case current =>
    rw [hmain, Image.main, word_create g.current_fits (hcells 1).1.symm (hcells 1).2,
      word_create g.current_fits (hcells 0).1.symm (hcells 0).2]
    exact hcurrent
  case cp =>
    intro i _
    rw [hmain]
    obtain rfl | rfl : i = 0 ∨ i = 1 := by omega
    · exact (hkept _).trans (hcp 0 1#32 m)
    · exact hcp 1 2#32 _
  case world =>
    have hzero : (World.mk { h with pmem := m } g.stack []).Inv := by
      constructor <;> simp [World.kstacks, g.stack_start]
    have hone := create_inv 0 1#32 hzero (by simp)
    have htwo := create_inv 1 2#32 hone (by simp)
    have hh : h = { h with pmem := g.main m } := by rw [← hmain]
    rw [hh]
    exact World.Inv.subperm htwo (List.Perm.swap _ _ _).subperm

theorem Image.Run.inv (hr : g.Run ys h) : g.Inv ys h := by
  induction hr with
  | start m h hcurrent hmain => exact inv_start hcurrent hmain
  | exec ys h h' _ hkeeps ih => exact ih.exec hkeeps
  | yield ys h h' clobber _ hroom htrap ih => exact ih.yield hroom htrap

end Start

/-- In every run the `n`th yield is served, by thread `n` modulo 2, which goes on from its own last yield or
starts at `f` when it has none. Neither thread is passed over, and `main` never comes back from its `yield`. -/
theorem yieldOs_alternates (g : Image) (ys : List Hart) (h : Hart) (hr : g.Run ys h)
    (hroom : (g.stackOf (Image.thread ys.length)).Room (framePtr h.gpr)) (clobber : Reg → Word) :
    ∃ h', amAsmTrap (some g.schedule) clobber (ecall h) = some h' ∧
      (g.saved ys (Fin.ofNat 2 ys.length)).Resumed h' ∧
      word h'.pmem g.current 0 = g.pcbAt (Fin.ofNat 2 ys.length) := by
  have hi := hr.inv
  have hnext : Image.next (Image.thread ys.length) = Fin.ofNat 2 ys.length :=
    (Option.some.inj (thread_succ ys.length)).symm
  obtain ⟨h', htrap, hresumed, -⟩ := hi.world.yield hroom (hi.serves hroom) (mem_contexts ys h) clobber
  obtain ⟨r, hs, hpmem⟩ := hi.yield_schedule hroom htrap
  rw [← hnext]
  refine ⟨h', htrap, hresumed, ?_⟩
  rw [hpmem]
  exact hs.current

/-- The program of `yield-os` at 0x80000000, its stack behind its variables. -/
def image : Image where
  pcb := 0x80001000#32
  pcbBoot := 0x80011000#32
  current := 0x80019000#32
  f := 0x80000100#32
  stack := ⟨0x80020000#32, 0x80028000#32⟩
  pcb_fits := by decide
  pcbBoot_fits := by decide
  current_fits := by decide
  disjoint := by decide
  stack_start := by decide

/-- `main` at its `yield`. -/
def boot : Hart :=
  { bootWorld.hart with
    gpr := fun r => if r = sp then 0x80028000#32 else 0#32
    pmem := image.main (storeWord (fun _ => 0#8) 0x80019000#32 0 0x80011000#32) }

/-- `main` yields to the first thread, which goes on a little and yields to the second; and when that
yields, the first goes on behind its own yield. -/
theorem yieldOs_alternates_boot : ∃ h₁ h₂ h₃ : Hart,
    amAsmTrap (some image.schedule) (fun _ => 0#32) (ecall boot) = some h₁ ∧
      h₁.pc = 0x80000100#32 ∧ h₁.gpr a0 = 1#32 ∧ h₁.gpr sp = 0x80009000#32 ∧
    amAsmTrap (some image.schedule) (fun _ => 0#32) (ecall { h₁ with pc := 0x80000140#32 }) = some h₂ ∧
      h₂.pc = 0x80000100#32 ∧ h₂.gpr a0 = 2#32 ∧ h₂.gpr sp = 0x80011000#32 ∧
    amAsmTrap (some image.schedule) (fun _ => 0#32) (ecall h₂) = some h₃ ∧
      h₃.pc = 0x80000144#32 ∧ h₃.gpr a0 = 1#32 ∧ h₃.gpr sp = 0x80009000#32 := by
  have hrun : image.Run [] boot := .start _ boot (word_storeWord_self (by decide)) rfl
  have hroom : (image.stackOf (Image.thread 0)).Room (framePtr boot.gpr) := by decide
  obtain ⟨h₁, htrap₁, ⟨hpc₁, ha₁, hsp₁⟩, -⟩ := yieldOs_alternates image [] boot hrun hroom fun _ => 0#32
  have hrun₁ : image.Run [boot] { h₁ with pc := 0x80000140#32 } :=
    .exec _ h₁ _ (.yield _ boot h₁ _ hrun hroom htrap₁) ⟨rfl, fun _ => rfl, fun _ _ _ _ => rfl⟩
  have hroom₁ : (image.stackOf (Image.thread 1)).Room (framePtr h₁.gpr) := by
    rw [framePtr, hsp₁]
    decide
  obtain ⟨h₂, htrap₂, ⟨hpc₂, ha₂, hsp₂⟩, -⟩ := yieldOs_alternates image [boot] _ hrun₁ hroom₁ fun _ => 0#32
  have hrun₂ : image.Run [{ h₁ with pc := 0x80000140#32 }, boot] h₂ :=
    .yield _ _ h₂ _ hrun₁ hroom₁ htrap₂
  have hroom₂ : (image.stackOf (Image.thread 2)).Room (framePtr h₂.gpr) := by
    rw [framePtr, hsp₂]
    decide
  obtain ⟨h₃, htrap₃, hresumed, -⟩ := yieldOs_alternates image _ h₂ hrun₂ hroom₂ fun _ => 0#32
  have hsaved : image.saved [{ h₁ with pc := 0x80000140#32 }, boot] 0 =
      ⟨image.kstack 0, .suspended h₁.gpr 0x80000140#32⟩ := if_pos rfl
  have htwo : ∀ y y' : Hart, Fin.ofNat 2 [y, y'].length = 0 := by simp
  rw [htwo, hsaved] at hresumed
  obtain ⟨hpc₃, hgpr₃⟩ := hresumed
  exact ⟨h₁, h₂, h₃, htrap₁, hpc₁, ha₁, hsp₁, htrap₂, hpc₂, ha₂, hsp₂, htrap₃, hpc₃,
    (hgpr₃ a0 (by decide)).trans ha₁, (hgpr₃ sp (by decide)).trans hsp₁⟩

end Kernel

end YieldOs

end Am

end Npc
