import Mathlib.Data.List.Nodup
import Mathlib.Logic.Function.Basic

/-! Singly linked lists in a store of nodes. The store is known by its links alone: `next i` is
the node after `i`. -/

namespace LinkedList

variable {ι : Type*} {next next' : ι → Option ι} {start : Option ι} {l l' : List ι}

/-- From `start` the links lead through exactly the nodes `l`, and end. -/
def Chain (next : ι → Option ι) : Option ι → List ι → Prop
  | start, [] => start = none
  | start, i :: l => start = some i ∧ Chain next (next i) l

instance Chain.decidable [DecidableEq ι] (next : ι → Option ι) :
    (start : Option ι) → (l : List ι) → Decidable (Chain next start l)
  | start, [] => inferInstanceAs (Decidable (start = none))
  | start, i :: l =>
    have := Chain.decidable next (next i) l
    inferInstanceAs (Decidable (start = some i ∧ Chain next (next i) l))

theorem Chain.start_eq (h : Chain next start l) : start = l.head? := by
  cases l with
  | nil => exact h
  | cons i l => exact h.1

theorem Chain.congr (h : Chain next start l) (heq : ∀ i ∈ l, next i = next' i) :
    Chain next' start l := by
  induction l generalizing start with
  | nil => exact h
  | cons i l ih =>
    refine ⟨h.1, ?_⟩
    rw [← heq i List.mem_cons_self]
    exact ih h.2 fun j hj => heq j (List.mem_cons_of_mem _ hj)

theorem Chain.unique (h : Chain next start l) (h' : Chain next start l') : l = l' := by
  induction l generalizing start l' with
  | nil =>
    cases l' with
    | nil => rfl
    | cons j l' => exact absurd (h.symm.trans h'.1) (by simp)
  | cons i l ih =>
    cases l' with
    | nil => exact absurd (h'.symm.trans h.1) (by simp)
    | cons j l' =>
      obtain rfl : i = j := Option.some.inj (h.1.symm.trans h'.1)
      rw [ih h.2 h'.2]

/-- Induction along the rounds of a loop that walks the list, with a budget that suffices. -/
theorem Chain.walk_induction {motive : Nat → Option ι → List ι → Prop} {n : Nat}
    (h : Chain next start l) (hn : l.length ≤ n) (nil : ∀ n, motive n none [])
    (cons : ∀ n i l, Chain next (next i) l → motive n (next i) l → motive (n + 1) (some i) (i :: l)) :
    motive n start l := by
  induction l generalizing start n with
  | nil =>
    obtain rfl : start = none := h
    exact nil n
  | cons i l ih =>
    obtain ⟨rfl, h⟩ := h
    cases n with
    | zero => simp at hn
    | succ n => exact cons n i l h (ih h (by simpa using hn))

section Update

variable [DecidableEq ι] {i j : ι} {l₁ l₂ : List ι}

theorem Chain.update (h : Chain next start l) (hi : i ∉ l) (x : Option ι) :
    Chain (Function.update next i x) start l :=
  h.congr fun j hj => (Function.update_of_ne (fun he : j = i => hi (he ▸ hj)) x next).symm

theorem Chain.push (h : Chain next start l) (hi : i ∉ l) :
    Chain (Function.update next i start) (some i) (i :: l) := by
  refine ⟨rfl, ?_⟩
  rw [Function.update_self]
  exact h.update hi start

theorem Chain.unlink (h : Chain next start (l₁ ++ i :: j :: l₂)) (hn : (l₁ ++ i :: j :: l₂).Nodup) :
    Chain (Function.update next i (next j)) start (l₁ ++ i :: l₂) := by
  induction l₁ generalizing start with
  | nil =>
    have hi := (List.nodup_cons.mp hn).1
    refine ⟨h.1, ?_⟩
    rw [Function.update_self]
    exact Chain.update h.2.2 (fun hm => hi (List.mem_cons_of_mem _ hm)) _
  | cons k l₁ ih =>
    have hk : k ≠ i := by
      rintro rfl
      exact (List.nodup_cons.mp hn).1 (by simp)
    refine ⟨h.1, ?_⟩
    rw [Function.update_of_ne hk]
    exact ih h.2 (List.nodup_cons.mp hn).2

end Update

end LinkedList
