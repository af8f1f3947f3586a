import Mathlib.Logic.Function.Basic

/-! Loops that copy a store entry by entry, from the first to the last or from the last to the
first. The entries are `src i` and `dst i`, and may overlap. -/

namespace CopyLoop

variable {α β : Type*} [DecidableEq α] (dst src : Nat → α)

/-- `dst i := src i` for `i = 0, ..., n - 1`, in this order. -/
def up : Nat → (α → β) → α → β
  | 0, m => m
  | n + 1, m => Function.update (up n m) (dst n) (up n m (src n))

/-- `dst i := src i` for `i = n - 1, ..., 0`, in this order. -/
def down : Nat → (α → β) → α → β
  | 0, m => m
  | n + 1, m => down n (Function.update m (dst n) (m (src n)))

variable {dst src} {n i : Nat} {m : α → β} {x : α}

theorem up_of_ne (h : ∀ i < n, x ≠ dst i) : up dst src n m x = m x := by
  induction n with
  | zero => rfl
  | succ n ih =>
    rw [up, Function.update_of_ne (h n (by omega))]
    exact ih fun i hi => h i (by omega)

theorem down_of_ne (h : ∀ i < n, x ≠ dst i) : down dst src n m x = m x := by
  induction n generalizing m with
  | zero => rfl
  | succ n ih =>
    rw [down, ih fun i hi => h i (by omega), Function.update_of_ne (h n (by omega))]

theorem up_apply (hinj : ∀ i < n, ∀ j < n, dst i = dst j → i = j)
    (h : ∀ i < n, ∀ j < i, src i ≠ dst j) (hi : i < n) : up dst src n m (dst i) = m (src i) := by
  induction n with
  | zero => omega
  | succ n ih =>
    rw [up]
    by_cases hn : i = n
    · subst hn
      rw [Function.update_self]
      exact up_of_ne (h i hi)
    · have hne : dst i ≠ dst n := fun he => hn (hinj i hi n (by omega) he)
      rw [Function.update_of_ne hne]
      exact ih (fun i hi j hj => hinj i (by omega) j (by omega)) (fun i hi => h i (by omega))
        (by omega)

theorem down_apply (hinj : ∀ i < n, ∀ j < n, dst i = dst j → i = j)
    (h : ∀ i < n, ∀ j < i, src j ≠ dst i) (hi : i < n) :
    down dst src n m (dst i) = m (src i) := by
  induction n generalizing m with
  | zero => omega
  | succ n ih =>
    rw [down]
    by_cases hn : i = n
    · subst hn
      have hne : ∀ j < i, dst i ≠ dst j := fun j hj he => by
        have hij := hinj i hi j (by omega) he
        omega
      rw [down_of_ne hne, Function.update_self]
    · have hlt : i < n := by omega
      rw [ih (fun i hi j hj => hinj i (by omega) j (by omega)) (fun i hi => h i (by omega)) hlt,
        Function.update_of_ne (h n (by omega) i hlt)]

end CopyLoop
