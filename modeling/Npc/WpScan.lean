import Npc.WpPool

/-! Which changes `scan_wp_diff` reports. It returns at the first watchpoint whose value
changed and leaves the later ones with an old value, so the next call compares with that. -/

namespace Npc

open LinkedList

namespace WpPool

inductive WpCall
  | set (expr : List Char → Option Word) (e : List Char)
  | delete (no : BitVec 32)
  | scan (value : List Char → Word)

/-- The pool, with the value each node's expression had at the last scan, or at its creation if
that is later. -/
structure WpTrace where
  pool : WpPool
  last : WpIdx → Word

namespace WpTrace

def init : WpTrace := ⟨initWpPool, fun _ => 0#32⟩

def step (c : WpCall) (t : WpTrace) : Option WpTrace :=
  match c with
  | .set expr e => (newWp expr e t.pool).map fun r =>
    ⟨r.2, r.1.elim t.last fun new => Function.update t.last new (r.2.node new).preResult⟩
  | .delete no => (t.pool.deleteWp no).map fun p => ⟨p, t.last⟩
  | .scan value => (t.pool.scanWpDiff fun e => some (value e)).map fun r =>
    ⟨r.2, fun i => value (t.pool.node i).eStr⟩

/-- `t` runs through the states of the first `n` of the calls. -/
structure Run (calls : Nat → WpCall) (t : Nat → WpTrace) (n : Nat) : Prop where
  start : t 0 = init
  next : ∀ k < n, (t k).step (calls k) = some (t (k + 1))

/-- The watchpoint's value has changed since the last scan. -/
def Changed (value : List Char → Word) (t : WpTrace) (i : WpIdx) : Prop :=
  value (t.pool.node i).eStr ≠ t.last i

def Active (t : WpTrace) (i : WpIdx) : Prop := ∃ l, Chain t.pool.next t.pool.head l ∧ i ∈ l

/-- The scan reports whether an active watchpoint changed and brings all of them up to date. -/
def ScanRight (value : List Char → Word) (t : WpTrace) : Prop :=
  ∃ diff p', t.pool.scanWpDiff (fun e => some (value e)) = some (diff, p') ∧
    (diff = true ↔ ∃ i, t.Active i ∧ t.Changed value i) ∧
    ∀ i, t.Active i → (p'.node i).preResult = value (p'.node i).eStr

/-- No two active watchpoints have changed since the last scan. -/
def OneChanged (value : List Char → Word) (t : WpTrace) : Prop :=
  ∀ i j, t.Active i → t.Active j → t.Changed value i → t.Changed value j → i = j

/-- The lists are in order and the stored values are those of the last scan. -/
structure Fresh (t : WpTrace) (active unused : List WpIdx) : Prop where
  lists : t.pool.Lists active unused
  stored : ∀ i ∈ active, (t.pool.node i).preResult = t.last i

end WpTrace

section Scan

variable {p : WpPool} {l active unused : List WpIdx} {start : Option WpIdx} {n : Nat}
  (value : List Char → Word)

def stale (p : WpPool) (i : WpIdx) : Bool := (p.node i).preResult ≠ value (p.node i).eStr

def update (p : WpPool) (i : WpIdx) : WpPool :=
  p.setNode i { p.node i with preResult := value (p.node i).eStr }

theorem scanFrom_eq (h : Chain p.next start l) (hn : l.length ≤ n) :
    scanFrom (fun e => some (value e)) n start p =
      some ((l.find? (p.stale value)).elim (false, p) fun i => (true, p.update value i)) := by
  refine h.walk_induction (motive := fun n start l => scanFrom (fun e => some (value e)) n start p =
    some ((l.find? (p.stale value)).elim (false, p) fun i => (true, p.update value i))) hn ?_ ?_
  · intro n
    cases n <;> rfl
  · intro n i l _ hh
    by_cases hi : (p.node i).preResult = value (p.node i).eStr
    · simp [scanFrom, stale, hi, hh]
    · simp [scanFrom, stale, hi, WpPool.update]

theorem Lists.scanWpDiff_eq (h : p.Lists active unused) :
    p.scanWpDiff (fun e => some (value e)) =
      some ((active.find? (p.stale value)).elim (false, p) fun i => (true, p.update value i)) :=
  scanFrom_eq value h.activeList h.length_le

theorem update_node_self (p : WpPool) (i : WpIdx) :
    ((p.update value i).node i).preResult = value ((p.update value i).node i).eStr := by
  simp [WpPool.update, setNode]

theorem update_eStr (p : WpPool) (i j : WpIdx) : ((p.update value i).node j).eStr = (p.node j).eStr := by
  by_cases hj : j = i
  · subst hj
    simp [WpPool.update, setNode]
  · simp [WpPool.update, setNode, hj]

theorem update_lists {p : WpPool} (h : p.Lists active unused) (i : WpIdx) :
    (p.update value i).Lists active unused := by
  have hnext : (p.update value i).next = p.next := by
    rw [WpPool.update, next_setNode]
    exact Function.update_eq_self i p.next
  refine ⟨?_, ?_, h.perm⟩
  · rw [hnext]
    exact h.activeList
  · rw [hnext]
    exact h.freeList

theorem update_node_ne (p : WpPool) {i j : WpIdx} (h : j ≠ i) : (p.update value i).node j = p.node j := by
  simp [WpPool.update, setNode, h]

theorem monitor_scanWpDiff (p : WpPool) (hd : l.Nodup) :
    Monitor.scanWpDiff (fun e (_ : Unit) => value e) () (l.map p.wp) =
      ((l.find? (p.stale value)).isSome,
        l.map ((l.find? (p.stale value)).elim p (p.update value)).wp) := by
  induction l with
  | nil => rfl
  | cons i l ih =>
    obtain ⟨hi, hd⟩ := List.nodup_cons.mp hd
    by_cases hst : p.stale value i = true
    · have hne : (p.wp i).preResult ≠ value (p.wp i).eStr := by simpa [stale, WpPool.wp] using hst
      have hwi : (p.update value i).wp i = { p.wp i with preResult := value (p.wp i).eStr } := by
        simp [WpPool.wp, WpPool.update, setNode]
      have hl : l.map (p.update value i).wp = l.map p.wp := by
        refine List.map_congr_left fun j hj => ?_
        have hji : j ≠ i := fun he => hi (he ▸ hj)
        rw [WpPool.wp, WpPool.wp, update_node_ne value p hji]
      rw [List.find?_cons_of_pos hst, List.map_cons, Monitor.scanWpDiff, if_pos hne, Option.elim_some,
        List.map_cons, hl, hwi]
      rfl
    · have heq : (p.node i).preResult = value (p.node i).eStr := by simpa [stale] using hst
      have hw : ((l.find? (p.stale value)).elim p (p.update value)).wp i = p.wp i := by
        cases hf : l.find? (p.stale value) with
        | none => rfl
        | some k =>
          have hik : i ≠ k := fun he => hi (he ▸ List.mem_of_find?_eq_some hf)
          simp [WpPool.wp, update_node_ne value p hik]
      have hwp : (p.wp i).preResult = value (p.wp i).eStr := heq
      rw [List.find?_cons_of_neg hst, List.map_cons, List.map_cons, Monitor.scanWpDiff, if_neg (not_not.mpr hwp),
        ih hd, hw]

end Scan

theorem monitor_eraseP {p : WpPool} {l₁ l₂ : List WpIdx} {i : WpIdx} {sets : Nat}
    (h : p.Numbered (l₁ ++ i :: l₂) sets) :
    ((l₁ ++ i :: l₂).map p.wp).eraseP (fun w => w.no = (p.wp i).no) = (l₁ ++ l₂).map p.wp := by
  have h12 := (List.pairwise_append.mp h.falling).2.2
  rw [List.map_append, List.map_cons, List.eraseP_append_right _ ?_, List.eraseP_cons_of_pos (by simp),
    List.map_append]
  intro w hw
  obtain ⟨j, hj, rfl⟩ := List.mem_map.mp hw
  have hlt := h12 j hj i List.mem_cons_self
  simpa using (by omega : (p.wp j).no ≠ (p.wp i).no)

/-- The pool refines the list of watchpoints that the monitor keeps: scans, deletions and
successful sets change the contents of the active nodes as the monitor changes its list. -/
theorem pool_refines_monitor {p : WpPool} {sets : Nat} (h : Reached p sets) (hs : sets + 1 < 2 ^ 31) :
    ∃ active unused, p.Lists active unused ∧
      (∀ value : List Char → Word, ∃ p', p.scanWpDiff (fun e => some (value e)) =
          some ((Monitor.scanWpDiff (fun e (_ : Unit) => value e) () (active.map p.wp)).1, p') ∧
        p'.Lists active unused ∧
        active.map p'.wp = (Monitor.scanWpDiff (fun e (_ : Unit) => value e) () (active.map p.wp)).2) ∧
      (∀ no, ∃ p' active' unused', p.deleteWp no = some p' ∧ p'.Lists active' unused' ∧
        active'.map p'.wp = (active.map p.wp).eraseP fun w => w.no = no.toNat) ∧
      (∀ expr e v, unused ≠ [] → e.length ≤ 31 → expr e = some v →
        ∃ p' new unused', setNewWp expr e p = some p' ∧ p'.Lists (new :: active) unused' ∧
          (new :: active).map p'.wp =
            ⟨((active.map p.wp).head?.elim 0 Wp.no) + 1, e, v⟩ :: active.map p.wp) := by
  obtain ⟨active, unused, hl, hn⟩ := h.inv (by omega)
  refine ⟨active, unused, hl, fun value => ?_, fun no => ?_, fun expr e v hu hlen hv => ?_⟩
  · have hscan := hl.scanWpDiff_eq value
    rw [monitor_scanWpDiff value p (List.nodup_append.mp hl.nodup).1, hscan]
    cases hf : active.find? (p.stale value) with
    | none => exact ⟨p, rfl, hl, rfl⟩
    | some k => exact ⟨p.update value k, rfl, update_lists value hl k, rfl⟩
  · rcases hl.delete no with ⟨hno, hq⟩ | ⟨l₁, i, l₂, q, rfl, rfl, hq, hl', hw⟩
    · refine ⟨p, active, unused, hq, hl, (List.eraseP_of_forall_not fun w hw => ?_).symm⟩
      obtain ⟨i, hi, rfl⟩ := List.mem_map.mp hw
      simpa [WpPool.wp, BitVec.toNat_inj] using hno i hi
    · refine ⟨q, l₁ ++ l₂, i :: unused, hq, hl', ?_⟩
      rw [hw]
      exact (monitor_eraseP hn).symm
  · have hf : p.free ≠ none := by
      rw [hl.freeList.start_eq]
      simpa using hu
    rcases hl.newWp expr e hf with ⟨hfail, -⟩ | ⟨new, rest, q, v', rfl, -, hv', hq, hl', hnew, hold⟩
    · rcases hfail with hfail | hfail
      · omega
      · exact absurd (hfail.symm.trans hv) (by simp)
    · obtain rfl : v = v' := Option.some.inj (hv.symm.trans hv')
      have hna : new ∉ active := (List.nodup_cons.mp (List.nodup_append.mp hl'.nodup).1).1
      have hno := hn.newWp_no hs hnew
      have hmap : active.map q.wp = active.map p.wp := List.map_congr_left fun i hi => by
        rw [WpPool.wp, WpPool.wp, hold i fun he => hna (he ▸ hi)]
      have hno' : (q.wp new).no = ((active.map p.wp).head?.elim 0 Wp.no) + 1 := by
        rw [hno]
        cases active <;> rfl
      refine ⟨q, new, rest, by rw [setNewWp, hq]; rfl, hl', ?_⟩
      rw [List.map_cons, hmap, ← hno', WpPool.wp, hnew]

namespace WpTrace

variable {t t' : WpTrace} {active unused : List WpIdx} {value : List Char → Word}

theorem Fresh.active_iff (h : t.Fresh active unused) (i : WpIdx) : t.Active i ↔ i ∈ active := by
  constructor
  · rintro ⟨l, hl, hi⟩
    rwa [← hl.unique h.lists.activeList]
  · exact fun hi => ⟨active, h.lists.activeList, hi⟩

theorem Fresh.changed_iff (h : t.Fresh active unused) {i : WpIdx} (hi : i ∈ active) :
    t.Changed value i ↔ t.pool.stale value i = true := by
  rw [Changed, stale, ← h.stored i hi, decide_eq_true_eq]
  exact ne_comm

/-- A scan of stored values that are up to date is right exactly when at most one changed. -/
theorem Fresh.scanRight_iff (h : t.Fresh active unused) : t.ScanRight value ↔ t.OneChanged value := by
  have hscan := h.lists.scanWpDiff_eq value
  cases hf : active.find? (t.pool.stale value) with
  | none =>
    rw [hf] at hscan
    have hn : ∀ i ∈ active, ¬ t.Changed value i := fun i hi hc =>
      List.find?_eq_none.mp hf i hi ((h.changed_iff hi).mp hc)
    constructor
    · intro _ i j hi _ hci
      exact absurd hci (hn i ((h.active_iff i).mp hi))
    · intro _
      refine ⟨_, _, hscan, ?_, fun i hi => ?_⟩
      · simpa using fun i hi => hn i ((h.active_iff i).mp hi)
      · have hi' := (h.active_iff i).mp hi
        simpa [stale] using List.find?_eq_none.mp hf i hi'
  | some k =>
    rw [hf] at hscan
    have hk := List.mem_of_find?_eq_some hf
    have hck := (h.changed_iff hk).mpr (List.find?_some hf)
    constructor
    · rintro ⟨diff, p', hs, -, hpre⟩
      obtain ⟨-, rfl⟩ := Prod.mk.inj (Option.some.inj (hscan.symm.trans hs))
      -- what changed besides `k` would be left with its old value
      have honly : ∀ i, t.Active i → t.Changed value i → i = k := by
        intro i hi hci
        by_contra hne
        have hst := (h.changed_iff ((h.active_iff i).mp hi)).mp hci
        have hh := hpre i hi
        rw [update_node_ne _ _ hne] at hh
        simp [stale, hh] at hst
      exact fun i j hi hj hci hcj => (honly i hi hci).trans (honly j hj hcj).symm
    · intro hone
      refine ⟨_, _, hscan, ?_, fun i hi => ?_⟩
      · exact iff_of_true rfl ⟨k, (h.active_iff k).mpr hk, hck⟩
      · by_cases hik : i = k
        · subst hik
          exact update_node_self _ _ _
        · have hci : ¬ t.Changed value i := fun hci =>
            hik (hone i k hi ((h.active_iff k).mpr hk) hci hck)
          rw [h.changed_iff ((h.active_iff i).mp hi)] at hci
          rw [update_node_ne _ _ hik]
          simpa [stale] using hci

theorem Fresh.step_set {expr : List Char → Option Word} {e : List Char} (h : t.Fresh active unused)
    (ht : t.step (.set expr e) = some t') : ∃ active' unused', t'.Fresh active' unused' := by
  have hf : t.pool.free ≠ none := fun hf => by simp [WpTrace.step, newWp, hf] at ht
  rcases h.lists.newWp expr e hf with ⟨-, hq⟩ | ⟨new, rest, q, v, rfl, -, -, hq, hl, -, hold⟩
  · obtain rfl : t = t' := by simpa [WpTrace.step, hq] using ht
    exact ⟨active, unused, h⟩
  · obtain rfl : ⟨q, Function.update t.last new (q.node new).preResult⟩ = t' := by
      simpa [WpTrace.step, hq] using ht
    refine ⟨new :: active, rest, hl, fun i hi => ?_⟩
    by_cases hin : i = new
    · subst hin
      simp
    · have hi' : i ∈ active := List.mem_of_ne_of_mem hin hi
      simp [hin, hold i hin, h.stored i hi']

theorem Fresh.step_delete {no : BitVec 32} (h : t.Fresh active unused)
    (ht : t.step (.delete no) = some t') : ∃ active' unused', t'.Fresh active' unused' := by
  rcases h.lists.delete no with ⟨-, hq⟩ | ⟨l₁, wp, l₂, q, rfl, -, hq, hl, hw⟩
  · obtain rfl : t = t' := by simpa [WpTrace.step, hq] using ht
    exact ⟨active, unused, h⟩
  · obtain rfl : ⟨q, t.last⟩ = t' := by simpa [WpTrace.step, hq] using ht
    refine ⟨l₁ ++ l₂, wp :: unused, hl, fun i hi => ?_⟩
    have hi' : i ∈ l₁ ++ wp :: l₂ := by
      rcases List.mem_append.mp hi with hi | hi <;> simp [hi]
    have hwi := congrArg Wp.preResult (congrFun hw i)
    exact hwi.trans (h.stored i hi')

theorem Fresh.step_scan (h : t.Fresh active unused) (hr : t.ScanRight value)
    (ht : t.step (.scan value) = some t') : t'.Fresh active unused := by
  obtain ⟨diff, p', hs, -, hpre⟩ := hr
  obtain rfl : ⟨p', fun i => value (t.pool.node i).eStr⟩ = t' := by simpa [WpTrace.step, hs] using ht
  have hscan := h.lists.scanWpDiff_eq value
  have hp := (Prod.mk.inj (Option.some.inj (hscan.symm.trans hs))).2
  have hactive : ∀ i ∈ active, (p'.node i).preResult = value (p'.node i).eStr := fun i hi =>
    hpre i ((h.active_iff i).mpr hi)
  cases hf : active.find? (t.pool.stale value) with
  | none =>
    obtain rfl : t.pool = p' := by simpa [hf] using hp
    exact ⟨h.lists, hactive⟩
  | some k =>
    obtain rfl : t.pool.update value k = p' := by simpa [hf] using hp
    refine ⟨update_lists _ h.lists k, fun i hi => ?_⟩
    rw [hactive i hi, update_eStr]

theorem fresh_init : init.Fresh [] (List.finRange nrWp) := ⟨lists_init, by simp⟩

section Run

variable {calls : Nat → WpCall} {ts : Nat → WpTrace} {n : Nat}

/-- As long as every scan is right, the stored values are those of the last scan. -/
theorem Run.fresh (h : Run calls ts n)
    (hr : ∀ k < n, ∀ value, calls k = .scan value → (ts k).ScanRight value) :
    ∃ active unused, (ts n).Fresh active unused := by
  induction n with
  | zero => exact ⟨_, _, h.start ▸ fresh_init⟩
  | succ n ih =>
    obtain ⟨active, unused, hf⟩ := ih ⟨h.start, fun k hk => h.next k (by omega)⟩ fun k hk => hr k (by omega)
    have hs := h.next n (by omega)
    cases hc : calls n with
    | set expr e => exact hf.step_set (hc ▸ hs)
    | delete no => exact hf.step_delete (hc ▸ hs)
    | scan value => exact ⟨active, unused, hf.step_scan (hr n (by omega) value hc) (hc ▸ hs)⟩

end Run

end WpTrace

open WpTrace

/-- The scans of a run are all right exactly when no two active watchpoints ever change
between one scan, or their creation, and the next. -/
theorem scans_right_iff {calls : Nat → WpCall} {ts : Nat → WpTrace} {n : Nat} (h : Run calls ts n) :
    (∀ k < n, ∀ value, calls k = .scan value → (ts k).ScanRight value) ↔
      ∀ k < n, ∀ value, calls k = .scan value → (ts k).OneChanged value := by
  have hpref : ∀ k ≤ n, Run calls ts k := fun k hk => ⟨h.start, fun j hj => h.next j (by omega)⟩
  constructor
  · intro hr k hk value hc
    obtain ⟨active, unused, hf⟩ := (hpref k (by omega)).fresh fun j hj => hr j (by omega)
    exact hf.scanRight_iff.mp (hr k hk value hc)
  · intro ho k hk value hc
    induction k using Nat.strong_induction_on generalizing value with
    | _ k ih =>
      obtain ⟨active, unused, hf⟩ := (hpref k (by omega)).fresh fun j hj value hc =>
        ih j hj (by omega) value hc
      exact hf.scanRight_iff.mpr (ho k hk value hc)

/-- Watchpoints on `1` and `2` that are both 0 at first and both 1 at the next two scans. -/
def twoChange : Nat → WpCall
  | 0 => .set (fun _ => some 0#32) ['1']
  | 1 => .set (fun _ => some 0#32) ['2']
  | _ => .scan fun _ => 1#32

def twoChangeTrace (n : Nat) : WpTrace :=
  n.rec WpTrace.init fun k t => (t.step (twoChange k)).getD t

theorem twoChange_run : Run twoChange twoChangeTrace 4 := by
  refine ⟨rfl, fun k hk => ?_⟩
  rcases (by omega : k = 0 ∨ k = 1 ∨ k = 2 ∨ k = 3) with rfl | rfl | rfl | rfl <;> rfl

theorem twoChange_fresh : ∃ active unused, (twoChangeTrace 2).Fresh active unused := by
  refine Run.fresh (n := 2) ⟨twoChange_run.start, fun k hk => twoChange_run.next k (by omega)⟩ ?_
  intro k hk value hc
  rcases (by omega : k = 0 ∨ k = 1) with rfl | rfl <;> cases hc

/-- The first scan leaves the older watchpoint at 0, and the second reports it although
nothing has changed. -/
theorem twoChange_scans_wrong :
    Run twoChange twoChangeTrace 4 ∧ ¬ (twoChangeTrace 2).ScanRight (fun _ => 1#32) ∧
      ¬ (twoChangeTrace 3).ScanRight (fun _ => 1#32) := by
  refine ⟨twoChange_run, fun h => ?_, ?_⟩
  · obtain ⟨active, unused, hf⟩ := twoChange_fresh
    have hactive : ∀ i ∈ [(1 : WpIdx), 0], (twoChangeTrace 2).Active i :=
      fun i hi => ⟨[1, 0], by decide +kernel, hi⟩
    have hone := hf.scanRight_iff.mp h 0 1 (hactive 0 (by simp)) (hactive 1 (by simp))
    exact absurd (hone (show 1#32 ≠ 0#32 by decide) (show 1#32 ≠ 0#32 by decide)) (by decide)
  · rintro ⟨diff, p', hs, hdiff, -⟩
    have hd : diff = true := (Option.some.inj (congrArg (Option.map Prod.fst) hs)).symm
    obtain ⟨i, -, hc⟩ := hdiff.mp hd
    exact hc rfl

theorem scans_right_iff_twoChange :
    (∀ k < 4, ∀ value, twoChange k = .scan value → (twoChangeTrace k).ScanRight value) ↔
      ∀ k < 4, ∀ value, twoChange k = .scan value → (twoChangeTrace k).OneChanged value :=
  scans_right_iff twoChange_run

end WpPool

end Npc
