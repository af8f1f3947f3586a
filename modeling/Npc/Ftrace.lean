import Mathlib.Data.Fin.Basic
import Npc.Clocked
import Npc.Format

/-! The function tracer, `ftrace.cpp`. A pointer into the list of functions is the list from there
on, and NULL is the empty list. -/

namespace Npc

namespace Ftrace

structure Fpool where
  name : List Char
  addr : Word
  size : Word
  deriving DecidableEq, Repr

inductive InstType
  | typeOther | typeCall | typeRet
  deriving DecidableEq, Repr

structure Fbuf where
  num : BitVec 32
  pcbuf : List Char
  message : List Char
  type : InstType
  deriving DecidableEq, Repr

/-- The part of `Decode` that the tracer reads. -/
structure Decode where
  pc : Word
  dnpc : Word
  inst : Word
  deriving DecidableEq, Repr

/-- How the tracer ends: the panic, a name longer than its array, or one read through NULL. -/
inductive Fault
  | returnBeforeCall | nameOverflow | nullName
  deriving DecidableEq, Repr

def fringSize : Nat := 50

structure Tracer where
  head : List Fpool
  fringbuf : Vector Fbuf fringSize
  fringbufPtr : Fin fringSize
  stackPtr : BitVec 32

def Tracer.init : Tracer := ⟨[], .replicate fringSize ⟨0#32, [], [], .typeOther⟩, ⟨0, by decide⟩, 0#32⟩

/-- `new_fp`, with a name of at most 31 characters and the NUL. -/
def newFp (t : Tracer) (f : Fpool) : Except Fault Tracer :=
  if f.name.length < 32 then .ok { t with head := f :: t.head } else .error .nameOverflow

def Fpool.Contains (f : Fpool) (pc : Word) : Prop := f.addr ≤ pc ∧ pc < f.addr + f.size

instance (f : Fpool) (pc : Word) : Decidable (f.Contains pc) := by
  unfold Fpool.Contains
  infer_instance

def pcCompare (pc : Word) : List Fpool → List Fpool
  | [] => []
  | f :: next => if f.Contains pc then f :: next else pcCompare pc next

def pcCompareOff (pc : Word) : List Fpool → Bool
  | [] => false
  | f :: next => if pc = f.addr then true else pcCompareOff pc next

/-- `0x%08x` -/
def hex08 (w : Word) : List Char := '0' :: 'x' :: Klib.field true 8 [] (Nat.toDigits 16 w.toNat)

def fringbufPush (type : InstType) (pc : Word) (logbuf : List Char) (stackNum : BitVec 32)
    (t : Tracer) : Tracer :=
  { t with
    fringbuf := t.fringbuf.set t.fringbufPtr ⟨stackNum, hex08 pc ++ [':'], logbuf, type⟩
    fringbufPtr :=
      if h : t.fringbufPtr + 1 < fringSize then ⟨t.fringbufPtr + 1, h⟩ else ⟨0, by decide⟩ }

def otherText : List Char := "call/ret [???]".toList

def callText (f : Fpool) : List Char := "call [".toList ++ f.name ++ '@' :: hex08 f.addr ++ [']']

def retText (f : Fpool) : List Char := "ret [".toList ++ f.name ++ [']']

def ftraceRcd (t : Tracer) (s : Decode) : Except Fault Tracer :=
  if t.head = [] then .ok t
  else if s.inst &&& 0b1110111#32 = 0b1100111#32 then
    let nextFp := pcCompare s.dnpc t.head
    let currentFp := pcCompare s.pc t.head
    match nextFp with
    | [] => .ok (fringbufPush .typeOther s.pc otherText t.stackPtr t)
    | next :: _ =>
      if (s.inst >>> 7) &&& 0b11111#32 ≠ 0#32 ∧ pcCompareOff s.dnpc t.head then
        .ok { fringbufPush .typeCall s.pc (callText next) t.stackPtr t with
          stackPtr := t.stackPtr + 1#32 }
      else if s.inst &&& 0b1111111#32 = 0b1100111#32 ∧ (s.inst >>> 7) &&& 0b11111#32 = 0#32 ∧
          next.addr ≠ s.dnpc ∧ nextFp ≠ currentFp then
        match currentFp with
        | [] => .error .nullName
        | current :: _ =>
          if t.stackPtr = 0#32 then .error .returnBeforeCall
          else
            .ok { fringbufPush .typeRet s.pc (retText current) (t.stackPtr - 1#32) t with
              stackPtr := t.stackPtr - 1#32 }
      else .ok t
  else .ok t

def start (program : List Fpool) : Except Fault Tracer := program.foldlM newFp Tracer.init

section History

def IsCall (inst : Word) : Prop :=
  (opcode inst = instJal ∨ opcode inst = instJalr) ∧ rdField inst ≠ 0#5

def IsRet (inst : Word) : Prop := opcode inst = instJalr ∧ rdField inst = 0#5

instance (inst : Word) : Decidable (IsCall inst) := by
  unfold IsCall
  infer_instance

instance (inst : Word) : Decidable (IsRet inst) := by
  unfold IsRet
  infer_instance

/-- The tracer, and where the calls not yet returned from return to. -/
structure Traced where
  tracer : Except Fault Tracer
  returns : List Word

def nextReturns (s : Decode) (returns : List Word) : List Word :=
  if IsCall s.inst then (s.pc + 4#32) :: returns
  else if IsRet s.inst then returns.tail
  else returns

def feed (s : Decode) (x : Traced) : Traced :=
  ⟨x.tracer.bind fun t => ftraceRcd t s, nextReturns s x.returns⟩

def run (program : List Fpool) (history : Nat → Decode) (n : Nat) : Traced :=
  Clocked.run feed ⟨start program, []⟩ history n

/-- A call goes to the first address of a function, and a return behind the last open call. -/
def Nested (program : List Fpool) (s : Decode) (x : Traced) : Prop :=
  (IsCall s.inst → ∃ f ∈ program, s.dnpc = f.addr) ∧
    (IsRet s.inst → x.returns.head? = some s.dnpc)

/-- The tracer still runs, and its depth is the number of open calls. -/
def Tracked (x : Traced) : Prop :=
  ∃ t, x.tracer = .ok t ∧ t.stackPtr.toInt = x.returns.length

/-- A call stays within the depths of an `int`, and its target lies in a function. A return comes
from one function and goes into another one, behind its first address. -/
def Right (program : List Fpool) (s : Decode) (x : Traced) : Prop :=
  (IsCall s.inst → x.returns.length + 1 < 2 ^ 31 ∧ ∃ f ∈ program, f.Contains s.dnpc) ∧
    (IsRet s.inst → ∃ f ∈ program, ∃ g ∈ program,
      f.Contains s.dnpc ∧ f.addr ≠ s.dnpc ∧ g.Contains s.pc ∧ f ≠ g)

def NonOverlapping (program : List Fpool) : Prop :=
  ∀ f ∈ program, ∀ g ∈ program, ∀ a, f.addr.toNat ≤ a → a < f.addr.toNat + f.size.toNat →
    g.addr.toNat ≤ a → a < g.addr.toNat + g.size.toNat → f = g

instance (program : List Fpool) (s : Decode) (x : Traced) : Decidable (Nested program s x) := by
  unfold Nested
  infer_instance

instance (program : List Fpool) (s : Decode) (x : Traced) : Decidable (Right program s x) := by
  unfold Right
  infer_instance

end History

section Opcode

variable {inst : Word}

theorem and_opcode (inst : Word) (m : BitVec 7) :
    inst &&& m.setWidth 32 = (opcode inst &&& m).setWidth 32 := by
  refine BitVec.eq_of_getLsbD_eq fun i hi => ?_
  simp only [opcode, BitVec.getLsbD_and, BitVec.getLsbD_setWidth, BitVec.getLsbD_extractLsb']
  by_cases h7 : i < 7
  · simp [h7, hi]
  · simp [h7, BitVec.getLsbD_of_ge _ _ (not_lt.mp h7)]

theorem and_jump : inst &&& 0b1110111#32 = 0b1100111#32 ↔
    opcode inst = instJal ∨ opcode inst = instJalr := by
  have hmask := and_opcode inst 0b1110111#7
  rw [show (0b1110111#7).setWidth 32 = 0b1110111#32 from rfl] at hmask
  rw [hmask]
  generalize opcode inst = o
  revert o
  decide

theorem and_jalr : inst &&& 0b1111111#32 = 0b1100111#32 ↔ opcode inst = instJalr := by
  have hmask := and_opcode inst 0b1111111#7
  rw [show (0b1111111#7).setWidth 32 = 0b1111111#32 from rfl] at hmask
  rw [hmask]
  generalize opcode inst = o
  revert o
  decide

theorem and_rd : (inst >>> 7) &&& 0b11111#32 = 0#32 ↔ rdField inst = 0#5 := by
  have hmask : (inst >>> 7) &&& 0b11111#32 = (rdField inst).setWidth 32 := by
    refine BitVec.eq_of_getLsbD_eq fun i hi => ?_
    rw [show 0b11111#32 = (0b11111#5).setWidth 32 from rfl]
    simp only [rdField, BitVec.getLsbD_and, BitVec.getLsbD_setWidth, BitVec.getLsbD_extractLsb',
      BitVec.getLsbD_ushiftRight]
    by_cases h5 : i < 5
    · have hone : (0b11111#5).getLsbD i = true := by
        revert i
        decide
      simp [h5, hi, hone]
    · simp [h5, BitVec.getLsbD_of_ge _ _ (not_lt.mp h5)]
  rw [hmask]
  generalize rdField inst = r
  revert r
  decide

end Opcode

section Compare

variable {pc pc' : Word} {head next next' : List Fpool} {f f' : Fpool}

theorem pcCompare_eq_nil : pcCompare pc head = [] ↔ ∀ f ∈ head, ¬ f.Contains pc := by
  induction head with
  | nil => simp [pcCompare]
  | cons f head ih => by_cases hf : f.Contains pc <;> simp [pcCompare, hf, ih]

theorem pcCompare_cons (h : pcCompare pc head = f :: next) : f ∈ head ∧ f.Contains pc := by
  induction head with
  | nil => cases h
  | cons g head ih =>
    rw [pcCompare] at h
    split_ifs at h with hg
    · obtain ⟨rfl, rfl⟩ := List.cons.inj h
      exact ⟨List.mem_cons_self, hg⟩
    · exact ⟨List.mem_cons_of_mem _ (ih h).1, (ih h).2⟩

theorem pcCompare_suffix (pc : Word) (head : List Fpool) : pcCompare pc head <:+ head := by
  induction head with
  | nil => exact List.suffix_rfl
  | cons f head ih =>
    rw [pcCompare]
    split_ifs
    · exact List.suffix_rfl
    · exact ih.trans (List.suffix_cons _ _)

theorem pcCompare_eq_iff (hnodup : head.Nodup) (h : pcCompare pc head = f :: next)
    (h' : pcCompare pc' head = f' :: next') : f :: next = f' :: next' ↔ f = f' := by
  refine ⟨fun hh => (List.cons.inj hh).1, ?_⟩
  rintro rfl
  have hs : f :: next <:+ head := h ▸ pcCompare_suffix pc head
  have hs' : f :: next' <:+ head := h' ▸ pcCompare_suffix pc' head
  have hnot : ∀ {l l'}, f :: l' <:+ head → ¬ f :: l <:+ l' := by
    intro l l' hl' hl
    have hn := hl'.sublist.nodup hnodup
    exact (List.nodup_cons.mp hn).1 (hl.subset List.mem_cons_self)
  rcases List.suffix_or_suffix_of_suffix hs hs' with hl | hl
  · exact (List.suffix_cons_iff.mp hl).resolve_right (hnot hs')
  · exact ((List.suffix_cons_iff.mp hl).resolve_right (hnot hs)).symm

theorem pcCompareOff_iff : pcCompareOff pc head = true ↔ ∃ f ∈ head, pc = f.addr := by
  induction head with
  | nil => simp [pcCompareOff]
  | cons f head ih => by_cases hf : pc = f.addr <;> simp [pcCompareOff, hf, ih]

theorem NonOverlapping.eq (h : NonOverlapping head) (hf : f ∈ head) (hf' : f' ∈ head)
    (hc : f.Contains pc) (hc' : f'.Contains pc) : f = f' := by
  have hnat : ∀ g : Fpool, g.Contains pc →
      g.addr.toNat ≤ pc.toNat ∧ pc.toNat < g.addr.toNat + g.size.toNat := by
    rintro g ⟨hle, hlt⟩
    rw [BitVec.le_def] at hle
    rw [BitVec.lt_def, BitVec.toNat_add] at hlt
    exact ⟨hle, hlt.trans_le (Nat.mod_le _ _)⟩
  exact h f hf f' hf' pc.toNat (hnat f hc).1 (hnat f hc).2 (hnat f' hc').1 (hnat f' hc').2

end Compare

section Record

variable {t : Tracer} {s : Decode} {next current : Fpool} {n c : List Fpool}

theorem ftraceRcd_call (hc : IsCall s.inst) (hoff : ∃ f ∈ t.head, s.dnpc = f.addr) :
    ∃ t', ftraceRcd t s = .ok t' ∧ t'.head = t.head ∧
      t'.stackPtr = if pcCompare s.dnpc t.head = [] then t.stackPtr else t.stackPtr + 1#32 := by
  have hhead : t.head ≠ [] := by
    obtain ⟨f, hf, -⟩ := hoff
    exact List.ne_nil_of_mem hf
  have hrd : (s.inst >>> 7) &&& 0b11111#32 ≠ 0#32 := fun h => hc.2 (and_rd.mp h)
  rw [ftraceRcd, if_neg hhead, if_pos (and_jump.mpr hc.1)]
  cases hn : pcCompare s.dnpc t.head with
  | nil => exact ⟨_, rfl, rfl, rfl⟩
  | cons next n =>
    dsimp only
    rw [if_pos ⟨hrd, pcCompareOff_iff.mpr hoff⟩]
    exact ⟨_, rfl, rfl, rfl⟩

def SeesReturn (head : List Fpool) (s : Decode) : Prop :=
  ∃ next n current c, pcCompare s.dnpc head = next :: n ∧ pcCompare s.pc head = current :: c ∧
    next.addr ≠ s.dnpc ∧ next :: n ≠ current :: c

theorem ftraceRcd_ret (hr : IsRet s.inst) (h0 : t.stackPtr ≠ 0#32) (hsees : SeesReturn t.head s) :
    ∃ t', ftraceRcd t s = .ok t' ∧ t'.head = t.head ∧ t'.stackPtr = t.stackPtr - 1#32 := by
  obtain ⟨next, n, current, c, hn, hc, haddr, hne⟩ := hsees
  have hhead : t.head ≠ [] := List.ne_nil_of_mem (pcCompare_cons hn).1
  have hrd := and_rd.mpr hr.2
  have hjalr := and_jalr.mpr hr.1
  rw [ftraceRcd, if_neg hhead, if_pos (and_jump.mpr (Or.inr hr.1)), hn, hc]
  dsimp only
  rw [if_neg fun h => h.1 hrd, if_pos ⟨hjalr, hrd, haddr, hne⟩, if_neg h0]
  exact ⟨_, rfl, rfl, rfl⟩

theorem ftraceRcd_ret_not (hr : IsRet s.inst) (hsees : ¬ SeesReturn t.head s) {t' : Tracer}
    (h : ftraceRcd t s = .ok t') : t'.stackPtr = t.stackPtr := by
  have hrd := and_rd.mpr hr.2
  by_cases hhead : t.head = []
  · rw [ftraceRcd, if_pos hhead] at h
    obtain rfl := Except.ok.inj h
    rfl
  rw [ftraceRcd, if_neg hhead, if_pos (and_jump.mpr (Or.inr hr.1))] at h
  cases hn : pcCompare s.dnpc t.head with
  | nil =>
    rw [hn] at h
    obtain rfl := Except.ok.inj h
    rfl
  | cons next n =>
    rw [hn] at h
    dsimp only at h
    rw [if_neg fun h => h.1 hrd] at h
    split at h
    case isTrue hret =>
      cases hc : pcCompare s.pc t.head with
      | nil =>
        rw [hc] at h
        cases h
      | cons current c =>
        exact absurd ⟨next, n, current, c, hn, hc, hret.2.2.1, hc ▸ hret.2.2.2⟩ hsees
    case isFalse hret =>
      obtain rfl := Except.ok.inj h
      rfl

theorem ftraceRcd_other (hc : ¬ IsCall s.inst) (hr : ¬ IsRet s.inst) :
    ∃ t', ftraceRcd t s = .ok t' ∧ t'.head = t.head ∧ t'.stackPtr = t.stackPtr := by
  by_cases hhead : t.head = []
  · exact ⟨t, if_pos hhead, rfl, rfl⟩
  rw [ftraceRcd, if_neg hhead]
  by_cases hjump : s.inst &&& 0b1110111#32 = 0b1100111#32
  · have hcall : ¬ ((s.inst >>> 7) &&& 0b11111#32 ≠ 0#32 ∧ pcCompareOff s.dnpc t.head = true) :=
      fun h => hc ⟨and_jump.mp hjump, fun hrd => h.1 (and_rd.mpr hrd)⟩
    rw [if_pos hjump]
    cases hn : pcCompare s.dnpc t.head with
    | nil => exact ⟨_, rfl, rfl, rfl⟩
    | cons next n =>
      dsimp only
      rw [if_neg hcall, if_neg fun h => hr ⟨and_jalr.mp h.1, and_rd.mp h.2.1⟩]
      exact ⟨_, rfl, rfl, rfl⟩
  · exact ⟨t, if_neg hjump, rfl, rfl⟩

end Record

section Start

theorem start_eq (program : List Fpool) : start program =
    if ∀ f ∈ program, f.name.length < 32 then
      .ok { Tracer.init with head := program.reverse }
    else .error .nameOverflow := by
  have hfold : ∀ t : Tracer, program.foldlM newFp t =
      if ∀ f ∈ program, f.name.length < 32 then
        .ok { t with head := program.reverse ++ t.head }
      else .error .nameOverflow := by
    induction program with
    | nil => simp [pure, Except.pure]
    | cons f program ih =>
      intro t
      by_cases hf : f.name.length < 32
      · simp [newFp, hf, ih, bind, Except.bind]
      · simp [newFp, hf, bind, Except.bind]
  simp [start, hfold, Tracer.init]

end Start

section Depth

variable {program : List Fpool} {s : Decode} {x : Traced}

theorem toInt_add_one {sp : BitVec 32} {n : Nat} (h : sp.toInt = n) :
    (sp + 1#32).toInt = (n + 1 : Nat) ↔ n + 1 < 2 ^ 31 := by
  have hlt := sp.isLt
  rw [BitVec.toInt_eq_toNat_cond] at h ⊢
  rw [BitVec.toNat_add, BitVec.toNat_ofNat]
  split_ifs at h ⊢ <;> omega

theorem toInt_sub_one {sp : BitVec 32} {n : Nat} (h : sp.toInt = (n + 1 : Nat)) :
    (sp - 1#32).toInt = n := by
  have hlt := sp.isLt
  rw [BitVec.toInt_eq_toNat_cond] at h ⊢
  rw [BitVec.toNat_sub, BitVec.toNat_ofNat]
  split_ifs at h ⊢ <;> omega

/-- The tracer runs at the right depth, over the functions of the program. -/
def Inv (program : List Fpool) (x : Traced) : Prop :=
  ∃ t, x.tracer = .ok t ∧ t.head = program.reverse ∧ t.stackPtr.toInt = x.returns.length

theorem Inv.tracked (h : Inv program x) : Tracked x := by
  obtain ⟨t, ht, -, hsp⟩ := h
  exact ⟨t, ht, hsp⟩

theorem seesReturn_iff (hnames : (program.map Fpool.name).Nodup) (hdisj : NonOverlapping program) :
    SeesReturn program.reverse s ↔ ∃ f ∈ program, ∃ g ∈ program,
      f.Contains s.dnpc ∧ f.addr ≠ s.dnpc ∧ g.Contains s.pc ∧ f ≠ g := by
  have hnodup : program.reverse.Nodup := List.nodup_reverse.mpr (List.Nodup.of_map _ hnames)
  constructor
  · rintro ⟨f, n, g, c, hn, hc, haddr, hne⟩
    obtain ⟨hf, hfc⟩ := pcCompare_cons hn
    obtain ⟨hg, hgc⟩ := pcCompare_cons hc
    refine ⟨f, List.mem_reverse.mp hf, g, List.mem_reverse.mp hg, hfc, haddr, hgc, fun hh => hne ?_⟩
    exact (pcCompare_eq_iff hnodup hn hc).mpr hh
  · rintro ⟨f, hf, g, hg, hfc, haddr, hgc, hne⟩
    have hfind : ∀ {h : Fpool} {pc : Word}, h ∈ program → h.Contains pc →
        ∃ n, pcCompare pc program.reverse = h :: n := by
      intro h pc hh hhc
      cases hn : pcCompare pc program.reverse with
      | nil => exact absurd hhc (pcCompare_eq_nil.mp hn h (List.mem_reverse.mpr hh))
      | cons h' n =>
        obtain ⟨hh', hhc'⟩ := pcCompare_cons hn
        exact ⟨n, by rw [hdisj.eq hh (List.mem_reverse.mp hh') hhc hhc']⟩
    obtain ⟨n, hn⟩ := hfind hf hfc
    obtain ⟨c, hc⟩ := hfind hg hgc
    exact ⟨f, n, g, c, hn, hc, haddr, fun hh => hne (List.cons.inj hh).1⟩

theorem feed_tracer {t : Tracer} (ht : x.tracer = .ok t) : (feed s x).tracer = ftraceRcd t s := by
  rw [feed, ht]
  rfl

theorem feed_of_ok {t : Tracer} {R : Prop} (ht : (feed s x).tracer = .ok t)
    (hhead : t.head = program.reverse)
    (hiff : t.stackPtr.toInt = (feed s x).returns.length ↔ R) :
    (Tracked (feed s x) ↔ R) ∧ (R → Inv program (feed s x)) := by
  refine ⟨⟨?_, fun hR => ⟨t, ht, hiff.mpr hR⟩⟩, fun hR => ⟨t, ht, hhead, hiff.mpr hR⟩⟩
  rintro ⟨t', ht', hsp⟩
  obtain rfl := Except.ok.inj (ht.symm.trans ht')
  exact hiff.mp hsp

theorem Inv.feed_call (hi : Inv program x) (hn : Nested program s x) (hc : IsCall s.inst) :
    (Tracked (feed s x) ↔ Right program s x) ∧ (Right program s x → Inv program (feed s x)) := by
  obtain ⟨t, ht, hhead, hsp⟩ := hi
  have hr : ¬ IsRet s.inst := fun hr => hc.2 hr.2
  have hmem : ∀ f, f ∈ t.head ↔ f ∈ program := by simp [hhead]
  have hstart : ∃ f ∈ t.head, s.dnpc = f.addr := by simpa [hmem] using hn.1 hc
  obtain ⟨t', ht', hhead', hsp'⟩ := ftraceRcd_call hc hstart
  refine feed_of_ok ((feed_tracer ht).trans ht') (hhead'.trans hhead) ?_
  have hlen : (feed s x).returns.length = x.returns.length + 1 := by simp [feed, nextReturns, hc]
  rw [hlen, hsp', Right]
  by_cases hnil : pcCompare s.dnpc t.head = []
  · have hnot : ¬ ∃ f ∈ program, f.Contains s.dnpc := by
      simpa [hmem] using pcCompare_eq_nil.mp hnil
    rw [if_pos hnil, hsp]
    exact iff_of_false (by omega) fun hright => hnot (hright.1 hc).2
  · have hin : ∃ f ∈ program, f.Contains s.dnpc := by
      simpa [hmem] using mt pcCompare_eq_nil.mpr hnil
    rw [if_neg hnil, toInt_add_one hsp]
    simp [hc, hr, hin]

theorem Inv.feed_ret (hnames : (program.map Fpool.name).Nodup) (hdisj : NonOverlapping program)
    (hi : Inv program x) (hn : Nested program s x) (hr : IsRet s.inst) :
    (Tracked (feed s x) ↔ Right program s x) ∧ (Right program s x → Inv program (feed s x)) := by
  obtain ⟨t, ht, hhead, hsp⟩ := hi
  have hc : ¬ IsCall s.inst := fun hc => hc.2 hr.2
  obtain ⟨rest, hrest⟩ := List.head?_eq_some_iff.mp (hn.2 hr)
  have hlen : (feed s x).returns.length = rest.length := by simp [feed, nextReturns, hc, hr, hrest]
  have hsp1 : t.stackPtr.toInt = (rest.length + 1 : Nat) := by rw [hsp, hrest, List.length_cons]
  have hright : Right program s x ↔ SeesReturn t.head s := by
    rw [hhead, seesReturn_iff hnames hdisj]
    simp [Right, hc, hr]
  by_cases hsees : SeesReturn t.head s
  · have h0 : t.stackPtr ≠ 0#32 := by
      intro h0
      rw [h0, BitVec.toInt_zero] at hsp1
      omega
    obtain ⟨t', ht', hhead', hsp'⟩ := ftraceRcd_ret hr h0 hsees
    refine feed_of_ok ((feed_tracer ht).trans ht') (hhead'.trans hhead) ?_
    rw [hlen, hsp', hright]
    exact iff_of_true (toInt_sub_one hsp1) hsees
  · -- the depth stays, or the tracer ends
    have hnot : ¬ Tracked (feed s x) := by
      rintro ⟨t', ht', hsp'⟩
      have hsame := ftraceRcd_ret_not hr hsees ((feed_tracer ht).symm.trans ht')
      rw [hsame, hsp1, hlen] at hsp'
      omega
    exact ⟨iff_of_false hnot (mt hright.mp hsees), fun h => absurd (hright.mp h) hsees⟩

theorem Inv.feed_other (hi : Inv program x) (hc : ¬ IsCall s.inst) (hr : ¬ IsRet s.inst) :
    (Tracked (feed s x) ↔ Right program s x) ∧ (Right program s x → Inv program (feed s x)) := by
  obtain ⟨t, ht, hhead, hsp⟩ := hi
  obtain ⟨t', ht', hhead', hsp'⟩ := ftraceRcd_other hc hr
  refine feed_of_ok ((feed_tracer ht).trans ht') (hhead'.trans hhead) ?_
  rw [hsp', hsp]
  simp [feed, nextReturns, Right, hc, hr]

theorem Inv.feed_iff (hnames : (program.map Fpool.name).Nodup) (hdisj : NonOverlapping program)
    (hi : Inv program x) (hn : Nested program s x) :
    (Tracked (feed s x) ↔ Right program s x) ∧ (Right program s x → Inv program (feed s x)) := by
  by_cases hc : IsCall s.inst
  · exact hi.feed_call hn hc
  · by_cases hr : IsRet s.inst
    · exact hi.feed_ret hnames hdisj hn hr
    · exact hi.feed_other hc hr

/-- Over a properly nested history the tracer keeps the depth just when every name fits its array,
and every call and return is right. -/
theorem tracked_iff (program : List Fpool) (hnames : (program.map Fpool.name).Nodup)
    (hdisj : NonOverlapping program) (history : Nat → Decode) (n : Nat)
    (hnested : ∀ k < n, Nested program (history k) (run program history k)) :
    (∀ k ≤ n, Tracked (run program history k)) ↔ (∀ f ∈ program, f.name.length < 32) ∧
      ∀ k < n, Right program (history k) (run program history k) := by
  have hstart := start_eq program
  by_cases hfit : ∀ f ∈ program, f.name.length < 32
  · rw [if_pos hfit] at hstart
    have hinit : Inv program ⟨start program, []⟩ := ⟨_, hstart, rfl, rfl⟩
    have hrun := Clocked.run_forall_iff feed ⟨start program, []⟩ history (I := Inv program)
      (P := fun s x => Nested program s x ∧ Tracked (feed s x))
      (Q := fun s x => Nested program s x ∧ Right program s x) hinit
      (fun s x hi => and_congr_right fun hn => (hi.feed_iff hnames hdisj hn).1)
      (fun s x hi h => (hi.feed_iff hnames hdisj h.1).2 h.2) n
    constructor
    · exact fun h => ⟨hfit, fun k hk => (hrun.mp (fun j hj => ⟨hnested j hj, h (j + 1) hj⟩) k hk).2⟩
    · intro h k hk
      cases k with
      | zero => exact hinit.tracked
      | succ k => exact (hrun.mpr (fun j hj => ⟨hnested j hj, h.2 j hj⟩) k hk).2
  · rw [if_neg hfit] at hstart
    refine iff_of_false (fun h => ?_) fun h => hfit h.1
    obtain ⟨t, ht, -⟩ := h 0 (Nat.zero_le n)
    exact absurd (hstart.symm.trans ht) (by simp)

/-- Two functions, of 64 and 32 bytes. -/
def twoFunctions : List Fpool :=
  [⟨['m', 'a', 'i', 'n'], 0x80000000#32, 64#32⟩, ⟨['f'], 0x80000040#32, 32#32⟩]

/-- `main` calls `f`, which returns. -/
def callAndReturn (k : Nat) : Decode :=
  if k = 0 then ⟨0x80000010#32, 0x80000040#32, 0x030000ef#32⟩
  else ⟨0x80000050#32, 0x80000014#32, 0x00008067#32⟩

theorem nonOverlapping_two : NonOverlapping twoFunctions := by
  intro f hf g hg a h1 h2 h3 h4
  simp only [twoFunctions, List.mem_cons, List.not_mem_nil, or_false] at hf hg
  rcases hf with rfl | rfl <;> rcases hg with rfl | rfl <;> first
    | rfl
    | simp only [BitVec.toNat_ofNat] at h1 h2 h3 h4
      omega

theorem tracked_iff_returned :
    Tracked (run twoFunctions callAndReturn 1) ∧ Tracked (run twoFunctions callAndReturn 2) := by
  have hh := (tracked_iff twoFunctions (by decide) nonOverlapping_two callAndReturn 2 (by decide)).mpr
    ⟨by decide, by decide⟩
  exact ⟨hh 1 (by decide), hh 2 le_rfl⟩

/-- `main` calls `f`, which calls itself; the inner call returns. -/
def callItself (k : Nat) : Decode :=
  if k = 0 then ⟨0x80000010#32, 0x80000040#32, 0x030000ef#32⟩
  else if k = 1 then ⟨0x80000044#32, 0x80000040#32, 0xffdff0ef#32⟩
  else ⟨0x80000050#32, 0x80000048#32, 0x00008067#32⟩

/-- A return into the same function is not seen: the depth stays at 2. -/
theorem tracked_not : (∀ k < 3, Nested twoFunctions (callItself k) (run twoFunctions callItself k)) ∧
    ¬ ∀ k ≤ 3, Tracked (run twoFunctions callItself k) := by
  refine ⟨by decide, fun h => ?_⟩
  obtain ⟨t, ht, hsp⟩ := h 3 le_rfl
  have hdepth : (run twoFunctions callItself 3).tracer.toOption.map Tracer.stackPtr = some 2#32 := by
    decide
  have hreturns : (run twoFunctions callItself 3).returns.length = 1 := by decide
  rw [ht] at hdepth
  rw [hreturns, Option.some.inj hdepth] at hsp
  exact absurd hsp (by decide)

end Depth

end Ftrace

end Npc
