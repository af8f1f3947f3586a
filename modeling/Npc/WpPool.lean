import Npc.LinkedList
import Npc.Monitor

/-! The watchpoint pool of `watchpoint.c`: 32 static nodes on two linked lists, the active
watchpoints from `head` and the unused nodes from `free_`. A loop that walks a list is given
a budget of 32 rounds; that it suffices is part of what is proved. -/

namespace Npc

open LinkedList

abbrev nrWp : Nat := 32

abbrev WpIdx := Fin nrWp

/-- A node of `wp_pool`. `NO` is an `int`. -/
structure WpNode where
  no : BitVec 32
  next : Option WpIdx
  eStr : List Char
  preResult : Word

structure WpPool where
  node : WpIdx → WpNode
  head : Option WpIdx
  free : Option WpIdx

namespace WpPool

def next (p : WpPool) (i : WpIdx) : Option WpIdx := (p.node i).next

def setNode (i : WpIdx) (w : WpNode) (p : WpPool) : WpPool := { p with node := Function.update p.node i w }

def setNext (i : WpIdx) (x : Option WpIdx) (p : WpPool) : WpPool := p.setNode i { p.node i with next := x }

def initWpPool : WpPool where
  node i := ⟨BitVec.ofNat 32 i, if h : i.val + 1 < nrWp then some ⟨i.val + 1, h⟩ else none, [], 0#32⟩
  head := none
  free := some 0

section Set

-- `expr e` is the value of the expression, `none` when it fails
variable (expr : List Char → Option Word) (e : List Char)

/-- `none` is the assertion failure of an exhausted pool. -/
def newWp (p : WpPool) : Option (Option WpIdx × WpPool) :=
  match p.free with
  | none => none
  | some new =>
    if e.length > 31 then some (none, p)
    else
      match expr e with
      | none => some (none, p)
      | some exprResult =>
        some (some new,
          { p.setNode new ⟨p.head.elim 1#32 fun old => (p.node old).no + 1#32, p.head, e, exprResult⟩ with
            head := some new
            free := p.next new })

def setNewWp (p : WpPool) : Option WpPool := (newWp expr e p).map Prod.snd

end Set

/-- The loop of `free_wp`: whoever links to `wp` takes over its link. -/
def unlinkFrom (wp : WpIdx) : Nat → Option WpIdx → WpPool → Option WpPool
  | _, none, p => some p
  | 0, some _, _ => none
  | n + 1, some current, p =>
    let p' := if p.next current = some wp then p.setNext current (p.next wp) else p
    unlinkFrom wp n (p'.next current) p'

/-- `wp->next = free_; free_ = wp;` -/
def release (wp : WpIdx) (p : WpPool) : WpPool := { p.setNext wp p.free with free := some wp }

def freeWp (wp : WpIdx) (p : WpPool) : Option WpPool :=
  (if p.head = some wp then some { p with head := p.next wp }
    else unlinkFrom wp nrWp p.head p).map (release wp)

/-- The search of `delete_wp`; the outer `none` is a budget used up. -/
def findFrom (no : BitVec 32) : Nat → Option WpIdx → WpPool → Option (Option WpIdx)
  | _, none, _ => some none
  | 0, some _, _ => none
  | n + 1, some current, p =>
    if (p.node current).no = no then some (some current) else findFrom no n (p.next current) p

def deleteWp (no : BitVec 32) (p : WpPool) : Option WpPool :=
  match findFrom no nrWp p.head p with
  | none => none
  | some none => some p
  | some (some wp) => freeWp wp p

/-- The loop of `scan_wp_diff`, with its assertion that the expressions evaluate. -/
def scanFrom (expr : List Char → Option Word) : Nat → Option WpIdx → WpPool → Option (Bool × WpPool)
  | _, none, p => some (false, p)
  | 0, some _, _ => none
  | n + 1, some current, p =>
    match expr (p.node current).eStr with
    | none => none
    | some newResult =>
      if (p.node current).preResult ≠ newResult then
        some (true, p.setNode current { p.node current with preResult := newResult })
      else scanFrom expr n (p.next current) p

def scanWpDiff (expr : List Char → Option Word) (p : WpPool) : Option (Bool × WpPool) :=
  scanFrom expr nrWp p.head p

/-- The states of the pool, with the number of `set_new_wp` calls made. -/
inductive Reached : WpPool → Nat → Prop
  | init : Reached initWpPool 0
  | set {p p' sets} (expr : List Char → Option Word) (e : List Char) :
      Reached p sets → setNewWp expr e p = some p' → Reached p' (sets + 1)
  | delete {p p' sets} (no : BitVec 32) : Reached p sets → deleteWp no p = some p' → Reached p' sets

/-- The lists of the pool: the active nodes and the free nodes, each of the 32 once. -/
structure Lists (p : WpPool) (active unused : List WpIdx) : Prop where
  activeList : Chain p.next p.head active
  freeList : Chain p.next p.free unused
  perm : (active ++ unused).Perm (List.finRange nrWp)

/-- The contents of a node: what it holds besides its link. -/
def wp (p : WpPool) (i : WpIdx) : Wp (List Char) := ⟨(p.node i).no.toNat, (p.node i).eStr, (p.node i).preResult⟩

/-- The numbers fall along the active list and are at most that of the sets. -/
structure Numbered (p : WpPool) (active : List WpIdx) (sets : Nat) : Prop where
  falling : active.Pairwise fun i j => (p.wp j).no < (p.wp i).no
  bounds : ∀ i ∈ active, 1 ≤ (p.wp i).no ∧ (p.wp i).no ≤ sets

section Links

variable {p : WpPool} {active unused l l₁ l₂ : List WpIdx} {i wp : WpIdx} {start : Option WpIdx} {n : Nat}

@[simp] theorem next_setNode (p : WpPool) (i : WpIdx) (w : WpNode) :
    (p.setNode i w).next = Function.update p.next i w.next := by
  funext j
  by_cases hj : j = i
  · subst hj
    simp [next, setNode]
  · simp [next, setNode, hj]

@[simp] theorem next_setNext (p : WpPool) (i : WpIdx) (x : Option WpIdx) :
    (p.setNext i x).next = Function.update p.next i x := next_setNode p i _

@[simp] theorem wp_setNext (p : WpPool) (i : WpIdx) (x : Option WpIdx) : (p.setNext i x).wp = p.wp := by
  funext j
  by_cases hj : j = i
  · subst hj
    simp [WpPool.wp, setNext, setNode]
  · simp [WpPool.wp, setNext, setNode, hj]

theorem Lists.nodup (h : p.Lists active unused) : (active ++ unused).Nodup :=
  h.perm.nodup_iff.mpr (List.nodup_finRange nrWp)

theorem Lists.length_le (h : p.Lists active unused) : active.length ≤ nrWp := by
  have hh := h.perm.length_eq
  rw [List.length_append, List.length_finRange] at hh
  omega

theorem findFrom_eq (h : Chain p.next start l) (hn : l.length ≤ n) (no : BitVec 32) :
    findFrom no n start p = some (l.find? fun i => (p.node i).no = no) := by
  refine h.walk_induction (motive := fun n start l =>
    findFrom no n start p = some (l.find? fun i => (p.node i).no = no)) hn ?_ ?_
  · intro n
    cases n <;> rfl
  · intro n i l _ hh
    by_cases hi : (p.node i).no = no
    · simp [findFrom, hi]
    · simp [findFrom, hi, hh]

theorem unlinkFrom_of_not_mem (h : Chain p.next start l) (hw : wp ∉ l) (hn : l.length ≤ n) :
    unlinkFrom wp n start p = some p := by
  refine h.walk_induction (motive := fun n start l => wp ∉ l → unlinkFrom wp n start p = some p) hn
    ?_ ?_ hw
  · intro n _
    cases n <;> rfl
  · intro n i l h hh hw
    have hi : p.next i ≠ some wp := by
      intro hi
      exact hw (List.mem_cons_of_mem _ (List.mem_of_mem_head? (h.start_eq.symm.trans hi)))
    simp only [unlinkFrom, hi, if_false]
    exact hh fun hm => hw (List.mem_cons_of_mem _ hm)

theorem unlinkFrom_eq (h : Chain p.next start (l₁ ++ i :: wp :: l₂))
    (hd : (l₁ ++ i :: wp :: l₂).Nodup) (hn : (l₁ ++ i :: wp :: l₂).length ≤ n) :
    unlinkFrom wp n start p = some (p.setNext i (p.next wp)) := by
  induction l₁ generalizing start n with
  | nil =>
    obtain ⟨rfl, hi, h⟩ := h
    cases n with
    | zero => simp at hn
    | succ n =>
      have hd' := List.nodup_cons.mp hd
      have hdw := List.nodup_cons.mp hd'.2
      simp only [unlinkFrom, hi, if_true, next_setNext, Function.update_self]
      apply unlinkFrom_of_not_mem (l := l₂)
      · rw [next_setNext]
        exact h.update (fun hm => hd'.1 (List.mem_cons_of_mem _ hm)) _
      · exact hdw.1
      · simp at hn
        omega
  | cons k l₁ ih =>
    obtain ⟨rfl, h⟩ := h
    cases n with
    | zero => simp at hn
    | succ n =>
      have hk : p.next k ≠ some wp := by
        intro hk
        have hh := h.start_eq.symm.trans hk
        have hd' := (List.nodup_cons.mp hd).2
        cases l₁ with
        | nil =>
          obtain rfl : i = wp := Option.some.inj hh
          simp at hd'
        | cons k' l₁ =>
          obtain rfl : k' = wp := Option.some.inj hh
          simp at hd'
      simp only [unlinkFrom, hk, if_false]
      exact ih h (List.nodup_cons.mp hd).2 (by simpa using hn)

end Links

section Calls

variable {p : WpPool} {active unused l₁ l₂ : List WpIdx} {wp : WpIdx} {sets : Nat}

theorem release_lists (ha : Chain p.next p.head active) (hu : Chain p.next p.free unused)
    (hna : wp ∉ active) (hnu : wp ∉ unused) (hp : (active ++ wp :: unused).Perm (List.finRange nrWp)) :
    (p.release wp).Lists active (wp :: unused) := by
  have hnext : (p.release wp).next = Function.update p.next wp p.free := next_setNext p wp p.free
  refine ⟨?_, ?_, hp⟩
  · rw [hnext]
    exact ha.update hna p.free
  · rw [hnext]
    exact hu.push hnu

theorem wp_release (p : WpPool) (wp : WpIdx) : (p.release wp).wp = p.wp := wp_setNext p wp p.free

theorem Lists.freeWp (h : p.Lists (l₁ ++ wp :: l₂) unused) :
    ∃ p', p.freeWp wp = some p' ∧ p'.Lists (l₁ ++ l₂) (wp :: unused) ∧ p'.wp = p.wp := by
  have hd := List.nodup_append.mp h.nodup
  have hna : wp ∉ l₁ ++ l₂ := (List.nodup_cons.mp (List.nodup_middle.mp hd.1)).1
  have hnu : wp ∉ unused := fun hm => hd.2.2 wp (by simp) wp hm rfl
  have hperm : (l₁ ++ l₂ ++ wp :: unused).Perm (List.finRange nrWp) := by
    refine List.Perm.trans ?_ h.perm
    simp only [List.append_assoc, List.cons_append]
    exact List.Perm.append_left l₁ List.perm_middle
  rcases List.eq_nil_or_concat l₁ with rfl | ⟨l, i, rfl⟩
  · obtain ⟨hhead, htail⟩ := h.activeList
    refine ⟨({ p with head := p.next wp } : WpPool).release wp, ?_, ?_, wp_release _ wp⟩
    · rw [WpPool.freeWp, if_pos hhead, Option.map_some]
    · exact release_lists htail h.freeList hna hnu hperm
  · have hlist : l.concat i ++ wp :: l₂ = l ++ i :: wp :: l₂ := by simp
    have hlist' : l.concat i ++ l₂ = l ++ i :: l₂ := by simp
    have hchain := h.activeList
    rw [hlist] at hchain hd
    have hhead : p.head ≠ some wp := by
      rw [hchain.start_eq]
      cases l with
      | nil =>
        rintro hw
        obtain rfl : i = wp := Option.some.inj hw
        simp at hd
      | cons k l =>
        rintro hw
        obtain rfl : k = wp := Option.some.inj hw
        simp at hd
    have hlen : (l ++ i :: wp :: l₂).length ≤ nrWp := hlist ▸ h.length_le
    have hun := unlinkFrom_eq hchain hd.1 hlen
    have hiu : i ∉ unused := fun hm => hd.2.2 i (by simp) i hm rfl
    refine ⟨_, by rw [WpPool.freeWp, if_neg hhead, hun, Option.map_some], ?_, ?_⟩
    · rw [hlist'] at hna hperm ⊢
      apply release_lists _ _ hna hnu hperm
      · rw [next_setNext]
        exact hchain.unlink hd.1
      · rw [next_setNext]
        exact h.freeList.update hiu _
    · rw [wp_release, wp_setNext]

theorem Lists.delete (h : p.Lists active unused) (no : BitVec 32) :
    (∀ i ∈ active, (p.node i).no ≠ no) ∧ p.deleteWp no = some p ∨
      ∃ l₁ wp l₂ p', active = l₁ ++ wp :: l₂ ∧ (p.node wp).no = no ∧ p.deleteWp no = some p' ∧
        p'.Lists (l₁ ++ l₂) (wp :: unused) ∧ p'.wp = p.wp := by
  have hfind := findFrom_eq h.activeList h.length_le no
  cases hf : active.find? fun i => (p.node i).no = no with
  | none =>
    left
    refine ⟨fun i hi => by simpa using List.find?_eq_none.mp hf i hi, ?_⟩
    rw [deleteWp, hfind, hf]
  | some wp =>
    right
    obtain ⟨l₁, l₂, rfl⟩ := List.append_of_mem (List.mem_of_find?_eq_some hf)
    obtain ⟨p', hp, hl, hw⟩ := h.freeWp
    refine ⟨l₁, wp, l₂, p', rfl, by simpa using List.find?_some hf, ?_, hl, hw⟩
    rw [deleteWp, hfind, hf]
    exact hp

theorem Numbered.sublist {l : List WpIdx} (h : p.Numbered active sets) (hl : l.Sublist active) :
    p.Numbered l sets :=
  ⟨h.falling.sublist hl, fun i hi => h.bounds i (hl.subset hi)⟩

theorem Numbered.congr {p' : WpPool} (h : p.Numbered active sets) (hw : p'.wp = p.wp) :
    p'.Numbered active sets := by
  obtain ⟨h1, h2⟩ := h
  rw [← hw] at h1 h2
  exact ⟨h1, h2⟩

theorem Lists.newWp (h : p.Lists active unused) (expr : List Char → Option Word) (e : List Char)
    (hf : p.free ≠ none) :
    (e.length > 31 ∨ expr e = none) ∧ newWp expr e p = some (none, p) ∨
      ∃ new rest p' v, unused = new :: rest ∧ e.length ≤ 31 ∧ expr e = some v ∧
        newWp expr e p = some (some new, p') ∧ p'.Lists (new :: active) rest ∧
        p'.node new = ⟨active.head?.elim 1#32 fun old => (p.node old).no + 1#32, p.head, e, v⟩ ∧
        ∀ i ≠ new, p'.node i = p.node i := by
  obtain ⟨new, hnew⟩ := Option.ne_none_iff_exists'.mp hf
  by_cases hlen : e.length > 31
  · exact Or.inl ⟨Or.inl hlen, by simp [WpPool.newWp, hnew, hlen]⟩
  · cases hv : expr e with
    | none => exact Or.inl ⟨Or.inr rfl, by simp [WpPool.newWp, hnew, hlen, hv]⟩
    | some v =>
      right
      cases unused with
      | nil => exact absurd h.freeList hf
      | cons i rest =>
        obtain ⟨hi, hrest⟩ := h.freeList
        obtain rfl : i = new := Option.some.inj (hi.symm.trans hnew)
        have hd := h.nodup
        have hia : i ∉ active := (List.nodup_cons.mp (List.nodup_middle.mp hd)).1 ∘ List.mem_append_left _
        have hir : i ∉ rest := (List.nodup_cons.mp (List.nodup_middle.mp hd)).1 ∘ List.mem_append_right _
        refine ⟨i, rest, _, v, rfl, by omega, rfl,
          by simp only [WpPool.newWp, hnew, hlen, hv, if_false]; rfl, ?_, ?_, ?_⟩
        · refine ⟨?_, ?_, ?_⟩
          · change Chain (setNode i _ p).next (some i) (i :: active)
            rw [next_setNode]
            exact h.activeList.push hia
          · change Chain (setNode i _ p).next (p.next i) rest
            rw [next_setNode]
            exact hrest.update hir _
          · exact List.perm_middle.symm.trans h.perm
        · rw [← h.activeList.start_eq]
          simp [setNode]
        · intro j hj
          simp [setNode, hj]

section NewNumber

variable {p' : WpPool} {new : WpIdx} {e : List Char} {v : Word} {x : Option WpIdx}

theorem Numbered.newWp_no (h : p.Numbered active sets) (hs : sets + 1 < 2 ^ 31)
    (hn : p'.node new = ⟨active.head?.elim 1#32 fun old => (p.node old).no + 1#32, x, e, v⟩) :
    (p'.wp new).no = active.head?.elim 1 fun old => (p.wp old).no + 1 := by
  rw [WpPool.wp, hn]
  cases active with
  | nil => rfl
  | cons i l =>
    have hb : (p.node i).no.toNat ≤ sets := (h.bounds i List.mem_cons_self).2
    simp only [List.head?_cons, Option.elim_some, WpPool.wp, BitVec.toNat_add, BitVec.toNat_ofNat]
    omega

theorem Numbered.newWp (h : p.Numbered active sets) (hs : sets + 1 < 2 ^ 31) (hnew : new ∉ active)
    (hn : p'.node new = ⟨active.head?.elim 1#32 fun old => (p.node old).no + 1#32, x, e, v⟩)
    (ho : ∀ i ≠ new, p'.node i = p.node i) : p'.Numbered (new :: active) (sets + 1) := by
  have hold : ∀ i ∈ active, p'.wp i = p.wp i := fun i hi => by
    rw [WpPool.wp, WpPool.wp, ho i (fun he => hnew (he ▸ hi))]
  have hno := h.newWp_no hs hn
  constructor
  case falling =>
    refine List.pairwise_cons.mpr ⟨fun i hi => ?_, ?_⟩
    · rw [hold i hi, hno]
      cases active with
      | nil => simp at hi
      | cons k l =>
        simp only [List.head?_cons, Option.elim_some]
        rcases List.mem_cons.mp hi with rfl | hi
        · omega
        · have hlt := (List.pairwise_cons.mp h.falling).1 i hi
          omega
    · refine h.falling.imp_of_mem fun hi hj hlt => ?_
      rwa [hold _ hi, hold _ hj]
  case bounds =>
    intro i hi
    rcases List.mem_cons.mp hi with rfl | hi
    · rw [hno]
      cases active with
      | nil => simp
      | cons k l =>
        have hb := h.bounds k List.mem_cons_self
        simp only [List.head?_cons, Option.elim_some]
        omega
    · have hb := h.bounds i hi
      rw [hold i hi]
      omega

end NewNumber

end Calls

theorem lists_init : initWpPool.Lists [] (List.finRange nrWp) := by
  refine ⟨rfl, by decide +kernel, List.Perm.refl _⟩

theorem Reached.inv {p : WpPool} {sets : Nat} (h : Reached p sets) (hs : sets < 2 ^ 31) :
    ∃ active unused, p.Lists active unused ∧ p.Numbered active sets := by
  induction h with
  | init => exact ⟨[], _, lists_init, List.Pairwise.nil, by simp⟩
  | @set p p' sets expr e _ hp ih =>
    obtain ⟨active, unused, hl, hn⟩ := ih (by omega)
    have hf : p.free ≠ none := fun hf => by simp [setNewWp, newWp, hf] at hp
    rcases hl.newWp expr e hf with ⟨-, hq⟩ | ⟨new, rest, q, v, rfl, -, -, hq, hl', hnew, hold⟩
    · obtain rfl : p = p' := by simpa [setNewWp, hq] using hp
      exact ⟨active, unused, hl, hn.falling, fun i hi =>
        ⟨(hn.bounds i hi).1, (hn.bounds i hi).2.trans (by omega)⟩⟩
    · obtain rfl : q = p' := by simpa [setNewWp, hq] using hp
      have hna : new ∉ active := (List.nodup_cons.mp (List.nodup_middle.mp hl.nodup)).1 ∘ List.mem_append_left _
      exact ⟨new :: active, rest, hl', hn.newWp hs hna hnew hold⟩
  | @delete p p' sets no _ hp ih =>
    obtain ⟨active, unused, hl, hn⟩ := ih hs
    rcases hl.delete no with ⟨-, hq⟩ | ⟨l₁, wp, l₂, q, rfl, -, hq, hl', hw⟩
    · obtain rfl : p = p' := Option.some.inj (hq.symm.trans hp)
      exact ⟨active, unused, hl, hn⟩
    · obtain rfl : q = p' := Option.some.inj (hq.symm.trans hp)
      refine ⟨l₁ ++ l₂, wp :: unused, hl', (hn.sublist ?_).congr hw⟩
      exact List.Sublist.append_left (List.sublist_cons_self wp l₂) l₁

theorem Numbered.filter_eq {p : WpPool} {l₁ l₂ : List WpIdx} {wp : WpIdx} {sets : Nat}
    (h : p.Numbered (l₁ ++ wp :: l₂) sets) :
    (l₁ ++ wp :: l₂).filter (fun i => (p.node i).no ≠ (p.node wp).no) = l₁ ++ l₂ := by
  obtain ⟨-, h2, h12⟩ := List.pairwise_append.mp h.falling
  have hne : ∀ i, (p.wp i).no ≠ (p.wp wp).no → (p.node i).no ≠ (p.node wp).no :=
    fun i hi he => hi (by rw [WpPool.wp, WpPool.wp, he])
  have hl₁ : l₁.filter (fun i => (p.node i).no ≠ (p.node wp).no) = l₁ := by
    refine List.filter_eq_self.mpr fun i hi => ?_
    have hlt := h12 i hi wp List.mem_cons_self
    exact decide_eq_true (hne i (by omega))
  have hl₂ : l₂.filter (fun i => (p.node i).no ≠ (p.node wp).no) = l₂ := by
    refine List.filter_eq_self.mpr fun i hi => ?_
    have hlt := (List.pairwise_cons.mp h2).1 i hi
    exact decide_eq_true (hne i (by omega))
  rw [List.filter_append, List.filter_cons_of_neg (by simp), hl₁, hl₂]

theorem Numbered.slt {p : WpPool} {active : List WpIdx} {sets : Nat} (h : p.Numbered active sets)
    (hs : sets < 2 ^ 31) :
    active.Pairwise fun i j => (p.node j).no.slt (p.node i).no = true := by
  refine h.falling.imp_of_mem fun {i j} hi hj hlt => ?_
  have hbi := (h.bounds i hi).2
  have hbj := (h.bounds j hj).2
  simp only [WpPool.wp] at hlt hbi hbj
  rw [BitVec.slt_eq_decide, BitVec.toInt_eq_toNat_of_lt (by omega), BitVec.toInt_eq_toNat_of_lt (by omega)]
  exact decide_eq_true (by omega)

/-- What is promised of the pool between two calls. -/
structure Consistent (p : WpPool) (active unused : List WpIdx) : Prop where
  lists : p.Lists active unused
  falling : active.Pairwise fun i j => (p.node j).no.slt (p.node i).no = true
  /-- A deletion takes out what has the number, and changes nothing if nothing has it. -/
  delete : ∀ no, ∃ p' unused', p.deleteWp no = some p' ∧
    p'.Lists (active.filter fun i => (p.node i).no ≠ no) unused' ∧ p'.wp = p.wp ∧
    ((∀ i ∈ active, (p.node i).no ≠ no) → p' = p)
  /-- With a node left, a set that fails changes nothing, and any other succeeds. -/
  set : ∀ (expr : List Char → Option Word) (e : List Char), unused ≠ [] →
    if e.length > 31 ∨ expr e = none then setNewWp expr e p = some p
    else ∃ p' new unused', setNewWp expr e p = some p' ∧ p'.Lists (new :: active) unused' ∧
      (p'.node new).eStr = e ∧ some (p'.node new).preResult = expr e ∧ ∀ i ∈ active, p'.wp i = p.wp i

theorem Lists.consistent {p : WpPool} {active unused : List WpIdx} {sets : Nat}
    (hl : p.Lists active unused) (hn : p.Numbered active sets) (hs : sets < 2 ^ 31) :
    p.Consistent active unused := by
  constructor
  case lists => exact hl
  case falling => exact hn.slt hs
  case delete =>
    intro no
    rcases hl.delete no with ⟨hno, hq⟩ | ⟨l₁, wp, l₂, q, rfl, rfl, hq, hl', hw⟩
    · have hfilter : active.filter (fun i => (p.node i).no ≠ no) = active :=
        List.filter_eq_self.mpr fun i hi => decide_eq_true (hno i hi)
      exact ⟨p, unused, hq, hfilter.symm ▸ hl, rfl, fun _ => rfl⟩
    · refine ⟨q, wp :: unused, hq, hn.filter_eq.symm ▸ hl', hw, fun hno => ?_⟩
      exact absurd rfl (hno wp (by simp))
  case set =>
    intro expr e hu
    have hf : p.free ≠ none := by
      rw [hl.freeList.start_eq]
      cases unused with
      | nil => exact absurd rfl hu
      | cons i l => simp
    rcases hl.newWp expr e hf with ⟨hfail, hq⟩ | ⟨new, rest, q, v, rfl, hlen, hv, hq, hl', hnew, hold⟩
    · rw [if_pos hfail, setNewWp, hq]
      rfl
    · rw [if_neg (by simp [hv, hlen])]
      refine ⟨q, new, rest, by rw [setNewWp, hq]; rfl, hl', by rw [hnew], by rw [hnew, hv], fun i hi => ?_⟩
      have hne : i ≠ new := by
        rintro rfl
        exact (List.nodup_cons.mp (List.nodup_append.mp hl'.nodup).1).1 hi
      rw [WpPool.wp, WpPool.wp, hold i hne]

/-- The pool stays consistent: after any calls of `set_new_wp` and `delete_wp`, fewer than 2^31
of them sets, none of them on an exhausted pool, the two lists hold each node once, the numbers
fall along the active list, and deletions and failing sets do exactly what they should. -/
theorem wpPool_consistent {p : WpPool} {sets : Nat} (h : Reached p sets) (hs : sets < 2 ^ 31) :
    ∃ active unused, p.Consistent active unused := by
  obtain ⟨active, unused, hl, hn⟩ := h.inv hs
  exact ⟨active, unused, hl.consistent hn hs⟩

/-- Two sets and the deletion of the first. -/
theorem wpPool_consistent_deleted : ∃ p, Reached p 2 ∧ ∃ active unused, p.Consistent active unused := by
  have h1 : Reached _ 1 := .set (fun _ => some 5#32) ['5'] .init rfl
  have h2 : Reached _ 2 := .set (fun _ => some 6#32) ['6'] h1 rfl
  have h3 : Reached _ 2 := .delete 1#32 h2 rfl
  exact ⟨_, h3, wpPool_consistent h3 (by decide)⟩

end WpPool

end Npc
