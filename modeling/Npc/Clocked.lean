import Mathlib.Data.List.Basic
import Mathlib.Data.List.Range
import Mathlib.Data.List.TakeDrop
import Mathlib.Logic.Function.Iterate

/-! Clocked machines. A state is updated once a cycle under a stream of inputs; some
cycles emit a value. A sequential machine consumes a list of values, one a step. The
retirement rule relates the two: it carries a relation between a clocked state and the
numbers of values emitted on two channels through a whole run. -/

namespace Clocked

section Runs

variable {σ ι ω : Type*} (step : ι → σ → σ) (s : σ) (inp : Nat → ι)

def run : Nat → σ
  | 0 => s
  | n + 1 => step (inp n) (run n)

def emitted (out : ι → σ → Option ω) : Nat → List ω
  | 0 => []
  | n + 1 => emitted out n ++ (out (inp n) (run step s inp n)).toList

/-- The values seen in the states of the cycles `0, ..., n`, in order. -/
def observed (obs : σ → Option ω) (n : Nat) : List ω :=
  (List.range (n + 1)).filterMap fun t => obs (run step s inp t)

@[simp] theorem run_zero : run step s inp 0 = s := rfl

theorem run_succ (n : Nat) : run step s inp (n + 1) = step (inp n) (run step s inp n) := rfl

theorem run_add (m n : Nat) :
    run step s inp (m + n) = run step (run step s inp m) (fun t => inp (m + t)) n := by
  induction n with
  | zero => rfl
  | succ n ih => rw [← Nat.add_assoc, run_succ, run_succ, ih]

theorem run_congr (inp' : Nat → ι) {n : Nat} (h : ∀ t < n, inp t = inp' t) :
    run step s inp n = run step s inp' n := by
  induction n with
  | zero => rfl
  | succ n ih => rw [run_succ, run_succ, ih fun t ht => h t (by omega), h n (by omega)]

theorem run_invariant {P : σ → Prop} (hs : P s) (hstep : ∀ i s, P s → P (step i s)) (n : Nat) :
    P (run step s inp n) := by
  induction n with
  | zero => exact hs
  | succ n ih => exact hstep _ _ ih

/-- Two readings of a run, equivalent while an invariant holds that the second one preserves. -/
theorem run_forall_iff {I : σ → Prop} {P Q : ι → σ → Prop} (hs : I s)
    (hiff : ∀ i s, I s → (P i s ↔ Q i s)) (hstep : ∀ i s, I s → Q i s → I (step i s)) (n : Nat) :
    (∀ k < n, P (inp k) (run step s inp k)) ↔ ∀ k < n, Q (inp k) (run step s inp k) := by
  have hinv : ∀ k, (∀ j < k, Q (inp j) (run step s inp j)) → I (run step s inp k) := by
    intro k
    induction k with
    | zero => exact fun _ => hs
    | succ k ih => exact fun h => hstep _ _ (ih fun j hj => h j (by omega)) (h k (by omega))
  constructor
  · intro h k
    induction k using Nat.strong_induction_on with
    | _ k ih =>
      intro hk
      have hI := hinv k fun j hj => ih j hj (by omega)
      exact (hiff _ _ hI).mp (h k hk)
  · intro h k hk
    have hI := hinv k fun j hj => h j (by omega)
    exact (hiff _ _ hI).mpr (h k hk)

theorem run_succ' (n : Nat) :
    run step s inp (n + 1) = run step (step (inp 0) s) (fun t => inp (t + 1)) n := by
  have hh := run_add step s inp 1 n
  rw [Nat.add_comm 1 n] at hh
  simpa [run, Nat.add_comm 1] using hh

/-- A rank that falls until the goal is met bounds the time to the goal. -/
theorem exists_run_of_rank {P : σ → Prop} (goal : σ → Prop) (rank : σ → Nat) (hs : P s)
    (hstep : ∀ t s, P s →
      goal (step (inp t) s) ∨ P (step (inp t) s) ∧ rank (step (inp t) s) < rank s) :
    ∃ k, 1 ≤ k ∧ k ≤ rank s + 1 ∧ goal (run step s inp k) := by
  induction hr : rank s using Nat.strong_induction_on generalizing s inp with
  | _ r ih =>
    rcases hstep 0 s hs with hg | ⟨hP, hlt⟩
    · exact ⟨1, le_refl 1, by omega, hg⟩
    · obtain ⟨k, h1, hk, hg⟩ := ih _ (hr ▸ hlt) (step (inp 0) s) (fun t => inp (t + 1)) hP
        (fun t => hstep (t + 1)) rfl
      exact ⟨k + 1, by omega, by omega, by rwa [run_succ']⟩

/-- A rank that never grows and falls at every tick reaches the goal when the ticks recur. -/
theorem exists_run_of_fair {P : σ → Prop} (goal : σ → Prop) (rank : σ → Nat) (tick : ι → Prop) (hs : P s)
    (hfair : ∀ n, ∃ k, n ≤ k ∧ tick (inp k))
    (hstep : ∀ i s, P s → goal (step i s) ∨
      P (step i s) ∧ rank (step i s) ≤ rank s ∧ (tick i → rank (step i s) < rank s)) :
    ∃ k, 1 ≤ k ∧ goal (run step s inp k) := by
  induction hr : rank s using Nat.strong_induction_on generalizing s inp with
  | _ r ih =>
    obtain ⟨k, -, htick⟩ := hfair 0
    have hkeep : ∀ j ≤ k, (∃ i, 1 ≤ i ∧ goal (run step s inp i)) ∨
        P (run step s inp j) ∧ rank (run step s inp j) ≤ rank s := by
      intro j
      induction j with
      | zero => exact fun _ => Or.inr ⟨hs, le_refl _⟩
      | succ j ihj =>
        intro hj
        rcases ihj (by omega) with hg | ⟨hP, hle⟩
        · exact Or.inl hg
        · rcases hstep (inp j) _ hP with hg | ⟨hP', hle', -⟩
          · exact Or.inl ⟨j + 1, by omega, hg⟩
          · exact Or.inr ⟨hP', hle'.trans hle⟩
    rcases hkeep k (le_refl k) with hg | ⟨hP, hle⟩
    · exact hg
    rcases hstep (inp k) _ hP with hg | ⟨hP', -, hlt⟩
    · exact ⟨k + 1, by omega, hg⟩
    · have hlt' : rank (run step s inp (k + 1)) < r := (hlt htick).trans_le (hle.trans hr.le)
      obtain ⟨i, h1, hg⟩ := ih _ hlt' (run step s inp (k + 1)) (fun t => inp (k + 1 + t)) hP'
        (fun n => by
          obtain ⟨k', hk', ht⟩ := hfair (k + 1 + n)
          exact ⟨k' - (k + 1), by omega, by rwa [Nat.add_sub_cancel' (by omega)]⟩) rfl
      exact ⟨k + 1 + i, by omega, by rwa [run_add]⟩

theorem run_eq_iterate (f : σ → σ) (n : Nat) : run (fun _ => f) s inp n = f^[n] s := by
  induction n with
  | zero => rfl
  | succ n ih => rw [run_succ, ih, Function.iterate_succ_apply']

/-- A potential that pays for every cycle counted, while a condition lasts, bounds their number. -/
theorem countP_le_potential (cond count : ι → σ → Bool) (potential : σ → Nat)
    (hstep : ∀ i s, cond i s = true → potential (step i s) + (count i s).toNat ≤ potential s)
    {k : Nat} (h : ∀ j < k, cond (inp j) (run step s inp j) = true) :
    ((List.range k).countP fun j => count (inp j) (run step s inp j)) +
      potential (run step s inp k) ≤ potential s := by
  induction k with
  | zero => simp
  | succ k ih =>
    have hih := ih fun j hj => h j (by omega)
    have hk := hstep _ _ (h k (by omega))
    rw [← run_succ step s inp] at hk
    rw [List.range_succ, List.countP_append, List.countP_singleton]
    cases hc : count (inp k) (run step s inp k) <;> simp_all <;> omega

theorem emitted_succ (out : ι → σ → Option ω) (n : Nat) :
    emitted step s inp out (n + 1) =
      emitted step s inp out n ++ (out (inp n) (run step s inp n)).toList := rfl

theorem emitted_prefix (out : ι → σ → Option ω) {m n : Nat} (h : m ≤ n) :
    emitted step s inp out m <+: emitted step s inp out n := by
  induction n, h using Nat.le_induction with
  | base => exact List.prefix_refl _
  | succ n _ ih => exact ih.trans (List.prefix_append _ _)

theorem observed_succ (obs : σ → Option ω) (n : Nat) :
    observed step s inp obs (n + 1) =
      observed step s inp obs n ++ (obs (run step s inp (n + 1))).toList := by
  simp only [observed, List.range_succ (n := n + 1), List.filterMap_append]
  cases h : obs (run step s inp (n + 1)) <;> simp [h]

/-- A stream whose next value depends on its position alone. -/
theorem emitted_eq_map {out : ι → σ → Option ω} (f : Nat → ω) {n : Nat}
    (h : ∀ t < n, ∀ x, out (inp t) (run step s inp t) = some x →
      x = f (emitted step s inp out t).length) :
    emitted step s inp out n = (List.range (emitted step s inp out n).length).map f := by
  induction n with
  | zero => rfl
  | succ n ih =>
    have hih := ih fun t ht => h t (by omega)
    rw [emitted_succ]
    cases hx : out (inp n) (run step s inp n) with
    | none => simpa using hih
    | some x =>
      rw [Option.toList_some, List.length_append, List.length_singleton, List.range_succ, List.map_append,
        ← hih, h n (by omega) x hx]
      rfl

theorem observed_eq_emitted {out : ι → σ → Option ω} {obs : σ → Option ω} (hs : obs s = none)
    (hstep : ∀ i s, obs (step i s) = out i s) (n : Nat) :
    observed step s inp obs n = emitted step s inp out n := by
  induction n with
  | zero => simp [observed, emitted, hs]
  | succ n ih => rw [observed_succ, emitted_succ, ih, run_succ, hstep]

end Runs

section Sequential

variable {α κ : Type*} (step : κ → α → α) (a : α)

def after (l : List κ) (k : Nat) : α :=
  (l.take k).foldl (fun a x => step x a) a

@[simp] theorem after_zero (l : List κ) : after step a l 0 = a := rfl

theorem after_succ (l : List κ) {k : Nat} {x : κ} (h : l[k]? = some x) :
    after step a l (k + 1) = step x (after step a l k) := by
  obtain ⟨hk, hx⟩ := List.getElem?_eq_some_iff.mp h
  rw [after, after, ← List.take_concat_get' l k hk, List.foldl_append, hx]
  rfl

end Sequential

section Retirement

variable {σ ι α κ ω : Type*} (step : ι → σ → σ) (s : σ) (inp : Nat → ι)
  (seq : κ → α → α) (a : α) (consumed : ι → σ → Option κ) (retired : ι → σ → Option ω)

/-- The retirement rule. `Sim A e c s` relates a clocked state with the trace `A` of the
sequential machine, `e` of whose steps have consumed their value and `c` of which have
retired. If every clock edge moves `e` and `c` with the values it consumes and retires,
the relation holds after any number of edges, the trace being that of the values
consumed up to any later edge. -/
theorem retirement {Sim : (Nat → α) → Nat → Nat → σ → Prop}
    (hinit : ∀ A : Nat → α, A 0 = a → Sim A 0 0 s)
    (hstep : ∀ (A : Nat → α) e c i s, Sim A e c s →
      (∀ x, consumed i s = some x → A (e + 1) = seq x (A e)) →
      Sim A (e + (consumed i s).toList.length) (c + (retired i s).toList.length) (step i s))
    {n m : Nat} (hnm : n ≤ m) :
    Sim (after seq a (emitted step s inp consumed m))
      (emitted step s inp consumed n).length (emitted step s inp retired n).length
      (run step s inp n) := by
  induction n with
  | zero => exact hinit _ (after_zero _ _ _)
  | succ n ih =>
    have hh := hstep _ _ _ (inp n) _ (ih (by omega)) (by
      intro x hx
      apply after_succ
      obtain ⟨t, ht⟩ := emitted_prefix step s inp consumed hnm
      simp [← ht, emitted_succ, hx])
    simpa only [emitted_succ, List.length_append, run_succ] using hh

end Retirement

end Clocked
