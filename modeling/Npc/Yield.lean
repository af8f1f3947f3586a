import Mathlib.Logic.Relation
import Npc.Trap

/-! Contexts on their stacks, and what a yield from one to another leaves of them. -/

namespace Npc

open ByteMemory Rv32i

namespace Am

/-- A context that does not run: at an `ecall`, with its registers and pc there, or never run. -/
inductive Saved
  | suspended (gpr : Reg → Word) (pc : Word)
  | fresh (entry arg : Word)

structure Ctx where
  kstack : Area
  saved : Saved

namespace Area

/-- The frame at `p` lies within the stack. -/
def Room (a : Area) (p : Word) : Prop :=
  a.start.toNat ≤ p.toNat ∧ p.toNat + contextSize ≤ a.stop.toNat

instance (a : Area) (p : Word) : Decidable (a.Room p) := by
  unfold Room
  infer_instance

def Disjoint (a b : Area) : Prop := a.stop ≤ b.start ∨ b.stop ≤ a.start

theorem Disjoint.symm {a b : Area} (h : a.Disjoint b) : b.Disjoint a := Or.symm h

end Area

namespace Ctx

def frame (c : Ctx) : Word :=
  match c.saved with
  | .suspended gpr _ => framePtr gpr
  | .fresh _ _ => c.kstack.stop - BitVec.ofNat 32 contextSize

/-- The saved context is the same in both memories. -/
def Untouched (c : Ctx) (m m' : Pmem) : Prop :=
  ∀ i < contextSize, m (c.frame + BitVec.ofNat 32 i) = m' (c.frame + BitVec.ofNat 32 i)

/-- The memory holds what the context needs to go on. -/
def Held (c : Ctx) (m : Pmem) : Prop :=
  match c.saved with
  | .suspended gpr pc =>
    (∀ r ∈ regs, word m c.frame r.toNat = gpr r) ∧ word m c.frame epcWord = pc + 4#32
  | .fresh entry arg => word m c.frame epcWord = entry ∧ word m c.frame a0.toNat = arg

/-- The hart goes on behind the `ecall` with its registers, or starts at the entry. -/
def Resumed (c : Ctx) (h : Hart) : Prop :=
  match c.saved with
  | .suspended gpr pc => h.pc = pc + 4#32 ∧ ∀ r, r ≠ 0#5 → h.gpr r = gpr r
  | .fresh entry arg => h.pc = entry ∧ h.gpr a0 = arg ∧ h.gpr sp = c.kstack.stop

end Ctx

/-- The hart, the stack it runs on, and the contexts that do not run. -/
structure World where
  hart : Hart
  current : Area
  others : List Ctx

namespace World

variable (w : World)

/-- The running context, which an `ecall` suspends. -/
def running : Ctx := ⟨w.current, .suspended w.hart.gpr w.hart.pc⟩

def contexts : List Ctx := w.running :: w.others

def kstacks : List Area := w.current :: w.others.map Ctx.kstack

def entered : Pmem := (execAll trapEntry (ecall w.hart)).pmem

/-- The memory handed to the user's handler, with `mepc` behind the `ecall`. -/
def handed : Pmem :=
  storeWord w.entered w.running.frame epcWord (word w.entered w.running.frame epcWord + 4#32)

/-- The handler returns the context `c`, and leaves every saved context untouched. -/
def Serves (handler : UserHandler) (c : Ctx) : Prop :=
  (handler .eventYield w.running.frame w.handed).1 = c.frame ∧
    ∀ d ∈ w.contexts, d.Untouched w.handed (handler .eventYield w.running.frame w.handed).2

end World

/-- The running context executes code of its own, creates a context, or yields with room for its
frame on its stack. -/
inductive Step : World → World → Prop
  | exec (w : World) (hart : Hart) (h : ∀ c ∈ w.others, c.Untouched w.hart.pmem hart.pmem) :
    Step w { w with hart := hart }
  | kcontext (w : World) (kstack : Area) (entry arg : Word) (hstart : 0 < kstack.start.toNat)
    (hroom : kstack.Room (kcontext kstack entry arg w.hart.pmem).1)
    (hdisjoint : ∀ a ∈ w.kstacks, kstack.Disjoint a) :
    Step w { w with
      hart := { w.hart with pmem := (kcontext kstack entry arg w.hart.pmem).2 }
      others := ⟨kstack, .fresh entry arg⟩ :: w.others }
  | yield (w : World) (handler : UserHandler) (clobber : Reg → Word) (hart : Hart) (c : Ctx)
    (before after : List Ctx) (hroom : w.current.Room w.running.frame)
    (hserves : w.Serves handler c) (hcontexts : w.contexts = before ++ c :: after)
    (htrap : amAsmTrap (some handler) clobber (ecall w.hart) = some hart) :
    Step w ⟨hart, c.kstack, before ++ after⟩

/-- The states that a start with a single context leads to. -/
def Reachable (w : World) : Prop :=
  ∃ w₀ : World, w₀.others = [] ∧ 0 < w₀.current.start.toNat ∧ Relation.ReflTransGen Step w₀ w

/-- Disjoint stacks, none of them at NULL, with the contexts saved on them. -/
structure World.Inv (w : World) : Prop where
  disjoint : w.kstacks.Pairwise Area.Disjoint
  start : ∀ a ∈ w.kstacks, 0 < a.start.toNat
  room : ∀ c ∈ w.others, c.kstack.Room c.frame
  held : ∀ c ∈ w.others, c.Held w.hart.pmem

section Frames

variable {c d : Ctx} {m m' m'' : Pmem}

theorem Ctx.Untouched.trans (h : c.Untouched m m') (h' : c.Untouched m' m'') :
    c.Untouched m m'' := fun i hi => (h i hi).trans (h' i hi)

theorem Ctx.Held.congr (h : c.Held m) (hu : c.Untouched m m') : c.Held m' := by
  have hword : ∀ {i}, i < 36 → word m c.frame i = word m' c.frame i := fun hi =>
    word_congr (n := 36) hu hi
  unfold Ctx.Held at h ⊢
  split at h
  · refine ⟨fun r hr => ?_, ?_⟩
    · rw [← hword (reg_lt r)]
      exact h.1 r hr
    · rw [← hword (by decide)]
      exact h.2
  · refine ⟨?_, ?_⟩
    · rw [← hword (by decide)]
      exact h.1
    · rw [← hword (by decide)]
      exact h.2

theorem frame_outside {a b : Area} {p q : Word} (hd : a.Disjoint b) (hp : a.Room p) (hq : b.Room q) :
    ∀ i < contextSize, 144 ≤ (q + BitVec.ofNat 32 i - p).toNat := by
  intro i hi
  have h144 : contextSize = 144 := rfl
  obtain ⟨hp1, hp2⟩ := hp
  obtain ⟨hq1, hq2⟩ := hq
  have ha := a.stop.isLt
  have hb := b.stop.isLt
  rw [h144] at hi hp2 hq2
  rw [BitVec.toNat_sub, BitVec.toNat_add, BitVec.toNat_ofNat]
  rcases hd with hd | hd <;> rw [BitVec.le_def] at hd <;> omega

theorem Ctx.Held.resumed {h e : Hart} (hc : c.Held h.pmem) (ha0 : h.gpr a0 = c.frame)
    (hl : Left h e) : c.Resumed e := by
  obtain ⟨hpc, hloaded, hstack, -⟩ := hl
  rw [ha0] at hpc hloaded hstack
  unfold Ctx.Held at hc
  unfold Ctx.Resumed
  split at hc
  case h_1 gpr pc hs =>
    refine ⟨hpc.trans hc.2, fun r hr => ?_⟩
    by_cases hsp : r = sp
    · subst hsp
      rw [hstack, Ctx.frame, hs]
      exact BitVec.sub_add_cancel _ _
    · have hin : r ∈ regs := mem_regs_iff.mpr ⟨hr, hsp⟩
      rw [hloaded r hin, hc.1 r hin]
  case h_2 entry arg hs =>
    refine ⟨hpc.trans hc.1, (hloaded a0 (by decide)).trans hc.2, ?_⟩
    rw [hstack, Ctx.frame, hs]
    exact BitVec.sub_add_cancel _ _

theorem held_kcontext (kstack : Area) (entry arg : Word) (m : Pmem) :
    (Ctx.mk kstack (.fresh entry arg)).Held (kcontext kstack entry arg m).2 := by
  have hset : ∀ cp m', m' = storeWord (storeWord (storeWord m cp epcWord entry) cp a0.toNat arg) cp
      statusWord 0x1800#32 → word m' cp epcWord = entry ∧ word m' cp a0.toNat = arg := by
    rintro cp m' rfl
    have hne : ∀ {i j} (v : Word) (m : Pmem), i < 36 → j < 36 → i ≠ j →
        word (storeWord m cp j v) cp i = word m cp i := fun v m hi hj hij =>
      word_storeWord_of_ne hi hj (by decide) hij
    have hself : ∀ (m : Pmem) i (v : Word), word (storeWord m cp i v) cp i = v := fun m i v =>
      word_storeWord_self (by decide)
    constructor
    · rw [hne _ _ (by decide) (by decide) (by decide), hne _ _ (by decide) (by decide) (by decide),
        hself]
    · rw [hne _ _ (by decide) (by decide) (by decide), hself]
  exact hset (kstack.stop - BitVec.ofNat 32 contextSize) _ rfl

theorem untouched_kcontext {kstack : Area} {entry arg : Word} (hd : kstack.Disjoint d.kstack)
    (hroom : kstack.Room (kcontext kstack entry arg m).1) (hd' : d.kstack.Room d.frame) :
    d.Untouched m (kcontext kstack entry arg m).2 := by
  intro i hi
  have hx := frame_outside hd hroom hd' i hi
  have hout : ∀ {j} (v : Word) (m : Pmem), j < 36 →
      storeWord m (kstack.stop - BitVec.ofNat 32 contextSize) j v (d.frame + BitVec.ofNat 32 i) =
        m (d.frame + BitVec.ofNat 32 i) := fun v m hj => storeWord_outside hj (by decide) hx
  dsimp only [kcontext]
  rw [hout _ _ (by decide), hout _ _ (by decide), hout _ _ (by decide)]

end Frames

section Yield

variable {w : World} {handler : UserHandler} {clobber : Reg → Word} {c d : Ctx}

namespace World.Inv

theorem room_of_mem (hi : w.Inv) (hroom : w.current.Room w.running.frame) (hc : c ∈ w.contexts) :
    c.kstack.Room c.frame := by
  rcases List.mem_cons.mp hc with rfl | hc
  · exact hroom
  · exact hi.room c hc

theorem start_of_mem (hi : w.Inv) (hc : c ∈ w.contexts) : 0 < c.kstack.start.toNat :=
  hi.start c.kstack (List.mem_map_of_mem (f := Ctx.kstack) hc)

theorem outside (hi : w.Inv) (hroom : w.current.Room w.running.frame) (hd : d ∈ w.others) :
    ∀ i < contextSize, 144 ≤ (d.frame + BitVec.ofNat 32 i - w.running.frame).toNat := by
  have hpair := (List.pairwise_cons.mp hi.disjoint).1 d.kstack (List.mem_map_of_mem hd)
  exact frame_outside hpair hroom (hi.room d hd)

theorem untouched_entered (hi : w.Inv) (hroom : w.current.Room w.running.frame)
    (hd : d ∈ w.others) : d.Untouched w.hart.pmem w.entered := fun i hlt =>
  ((entered_trapEntry (ecall w.hart)).outside _ (hi.outside hroom hd i hlt)).symm

theorem untouched_handed (hi : w.Inv) (hroom : w.current.Room w.running.frame)
    (hd : d ∈ w.others) : d.Untouched w.hart.pmem w.handed := by
  refine (hi.untouched_entered hroom hd).trans fun i hlt => ?_
  exact (storeWord_outside (n := 36) (by decide) (by decide) (hi.outside hroom hd i hlt)).symm

theorem held_running (w : World) : w.running.Held w.handed := by
  have he := entered_trapEntry (ecall w.hart)
  refine ⟨fun r hr => ?_, ?_⟩
  · have hne : r.toNat ≠ epcWord := by
      have hlt := r.isLt
      simp only [epcWord]
      omega
    exact (word_storeWord_of_ne (reg_lt r) (by decide) (by decide) hne).trans (he.saved r hr)
  · refine (word_storeWord_self (by decide)).trans ?_
    exact congrArg (· + 4#32) he.epc

theorem held_handed (hi : w.Inv) (hroom : w.current.Room w.running.frame) (hc : c ∈ w.contexts) :
    c.Held w.handed := by
  rcases List.mem_cons.mp hc with rfl | hc
  · exact held_running w
  · exact (hi.held c hc).congr (hi.untouched_handed hroom hc)

end World.Inv

theorem amIrqHandle_running (hc : c.kstack.Room c.frame) (h0 : 0 < c.kstack.start.toNat)
    (hret : (handler .eventYield w.running.frame w.handed).1 = c.frame) :
    amIrqHandle (some handler) w.running.frame w.entered =
      some (handler .eventYield w.running.frame w.handed) := by
  have hcause : word w.entered w.running.frame causeWord = 0xb#32 :=
    (entered_trapEntry (ecall w.hart)).cause
  have hne : (handler .eventYield w.running.frame w.handed).1 ≠ 0#32 := by
    rw [hret]
    intro hz
    have hle := hc.1
    rw [hz] at hle
    exact absurd (h0.trans_le hle) (Nat.lt_irrefl 0)
  rw [amIrqHandle]
  simp only [hcause, if_true]
  exact if_neg hne

theorem World.Inv.yield (hi : w.Inv) (hroom : w.current.Room w.running.frame)
    (hserves : w.Serves handler c) (hc : c ∈ w.contexts) (clobber : Reg → Word) :
    ∃ hart, amAsmTrap (some handler) clobber (ecall w.hart) = some hart ∧ c.Resumed hart ∧
      ∀ d ∈ w.contexts, d.Held hart.pmem := by
  have hptr : (execAll trapEntry (ecall w.hart)).gpr a0 = w.running.frame :=
    (entered_trapEntry (ecall w.hart)).ptr
  have hirq := amIrqHandle_running (hi.room_of_mem hroom hc) (hi.start_of_mem hc) hserves.1
  have hheld : ∀ d ∈ w.contexts, d.Held (handler .eventYield w.running.frame w.handed).2 :=
    fun d hd => (hi.held_handed hroom hd).congr (hserves.2 d hd)
  obtain ⟨h, ha0, hpmem, htrap⟩ : ∃ h : Hart, h.gpr a0 = c.frame ∧
      h.pmem = (handler .eventYield w.running.frame w.handed).2 ∧
      amAsmTrap (some handler) clobber (ecall w.hart) = some (execAll trapExit h) := by
    refine ⟨afterCall clobber (handler .eventYield w.running.frame w.handed)
      (execAll trapEntry (ecall w.hart)), ?_, ?_, ?_⟩
    · rw [afterCall_a0, hserves.1]
    · rw [afterCall_pmem]
    · have hentered : (execAll trapEntry (ecall w.hart)).pmem = w.entered := rfl
      rw [amAsmTrap, hptr, hentered, hirq, Option.map_some]
  have hleft := left_trapExit h
  rw [← hpmem] at hheld
  refine ⟨_, htrap, (hheld c hc).resumed ha0 hleft, fun d hd => ?_⟩
  rw [hleft.pmem]
  exact hheld d hd

theorem Step.inv {w' : World} (hs : Step w w') (hi : w.Inv) : w'.Inv := by
  cases hs with
  | exec hart h =>
    exact ⟨hi.disjoint, hi.start, hi.room, fun c hc => (hi.held c hc).congr (h c hc)⟩
  | kcontext kstack entry arg hstart hroom hdisjoint =>
    have hkstacks : (kstack :: w.kstacks).Pairwise Area.Disjoint :=
      List.pairwise_cons.mpr ⟨hdisjoint, hi.disjoint⟩
    constructor
    case disjoint => exact hkstacks.perm (List.Perm.swap _ _ _) Area.Disjoint.symm
    case start =>
      intro a ha
      rcases List.mem_cons.mp ha with rfl | ha
      · exact hi.start _ List.mem_cons_self
      · rcases List.mem_cons.mp ha with rfl | ha
        · exact hstart
        · exact hi.start a (List.mem_cons_of_mem _ ha)
    case room =>
      intro d hd
      rcases List.mem_cons.mp hd with rfl | hd
      · exact hroom
      · exact hi.room d hd
    case held =>
      intro d hd
      rcases List.mem_cons.mp hd with rfl | hd
      · exact held_kcontext kstack entry arg w.hart.pmem
      · have hdis := hdisjoint d.kstack (List.mem_cons_of_mem _ (List.mem_map_of_mem hd))
        exact (hi.held d hd).congr (untouched_kcontext hdis hroom (hi.room d hd))
  | yield handler clobber hart c before after hroom hserves hcontexts htrap =>
    have hmem : ∀ d ∈ before ++ after, d ∈ w.contexts := by
      intro d hd
      rw [hcontexts]
      rcases List.mem_append.mp hd with hd | hd
      · exact List.mem_append_left _ hd
      · exact List.mem_append_right _ (List.mem_cons_of_mem _ hd)
    have hc : c ∈ w.contexts := by
      rw [hcontexts]
      exact List.mem_append_right _ List.mem_cons_self
    have hkstacks : w.kstacks = (before ++ c :: after).map Ctx.kstack := by
      rw [← hcontexts]
      rfl
    obtain ⟨hart', htrap', -, hheld⟩ := hi.yield hroom hserves hc clobber
    obtain rfl := Option.some.inj (htrap.symm.trans htrap')
    have hperm : w.kstacks.Perm (c.kstack :: (before ++ after).map Ctx.kstack) := by
      rw [hkstacks]
      exact List.perm_middle.map Ctx.kstack
    exact ⟨hi.disjoint.perm hperm Area.Disjoint.symm,
      fun a ha => hi.start a (hperm.symm.subset ha),
      fun d hd => hi.room_of_mem hroom (hmem d hd), fun d hd => hheld d (hmem d hd)⟩

theorem Reachable.inv (hw : Reachable w) : w.Inv := by
  obtain ⟨w₀, hothers, hstart, hrun⟩ := hw
  have hinit : w₀.Inv := by
    constructor <;> simp [World.kstacks, hothers, hstart]
  induction hrun with
  | refl => exact hinit
  | tail _ hs ih => exact hs.inv ih

/-- From any state that is reached, the `ecall` and the trap resume the context that the handler
picks, and the entry of the trap leaves every other saved context untouched. -/
theorem yield_transparent (w : World) (hw : Reachable w) (hroom : w.current.Room w.running.frame)
    (handler : UserHandler) (c : Ctx) (hc : c ∈ w.contexts) (hserves : w.Serves handler c)
    (clobber : Reg → Word) :
    ∃ hart, amAsmTrap (some handler) clobber (ecall w.hart) = some hart ∧ c.Resumed hart ∧
      ∀ d ∈ w.others, d.Untouched w.hart.pmem w.entered := by
  have hi := hw.inv
  obtain ⟨hart, htrap, hresumed, -⟩ := hi.yield hroom hserves hc clobber
  exact ⟨hart, htrap, hresumed, fun d hd => hi.untouched_entered hroom hd⟩

/-- A start on the stack that ends at 0x80100000, before an `ecall` at 0x80000100. -/
def bootWorld : World where
  hart := ⟨fun r => if r = sp then 0x80100000#32 else 0#32, 0x80000100#32, fun _ => 0#8,
    0x1800#32, 0x80000040#32, 0#32, 0#32⟩
  current := ⟨0x800f0000#32, 0x80100000#32⟩
  others := []

def taskStack : Area := ⟨0x80200000#32, 0x80208000#32⟩

def taskWorld : World :=
  { bootWorld with
    hart := { bootWorld.hart with
      pmem := (kcontext taskStack 0x80001000#32 5#32 bootWorld.hart.pmem).2 }
    others := [⟨taskStack, .fresh 0x80001000#32 5#32⟩] }

theorem yield_transparent_task : ∃ hart,
    amAsmTrap (some fun _ _ m => (0x80207f70#32, m)) (fun _ => 0#32) (ecall taskWorld.hart) =
      some hart ∧ hart.pc = 0x80001000#32 ∧ hart.gpr a0 = 5#32 ∧ hart.gpr sp = 0x80208000#32 := by
  have hstep : Step bootWorld taskWorld := by
    refine Step.kcontext bootWorld taskStack 0x80001000#32 5#32 (by decide) (by decide) ?_
    intro a ha
    rw [List.mem_singleton.mp ha]
    exact Or.inr (by decide)
  have hreach : Reachable taskWorld :=
    ⟨bootWorld, rfl, by decide, Relation.ReflTransGen.single hstep⟩
  obtain ⟨hart, htrap, hresumed, -⟩ := yield_transparent taskWorld hreach (by decide)
    (fun _ _ m => (0x80207f70#32, m)) ⟨taskStack, .fresh 0x80001000#32 5#32⟩
    (List.mem_cons_of_mem _ List.mem_cons_self) ⟨rfl, fun _ _ _ _ => rfl⟩ fun _ => 0#32
  exact ⟨hart, htrap, hresumed⟩

end Yield

end Am

end Npc
