import Mathlib.Data.List.Rotate

/-! Ring buffers that overwrite their oldest entry. -/

namespace RingBuffer

/-- The slots, and the place of the next entry. -/
structure Ring (α : Type*) (n : Nat) where
  slot : Vector α n
  ptr : Fin n

variable {α : Type*} {n : Nat}

def next (p : Fin n) : Fin n :=
  if h : p.val + 1 < n then ⟨p.val + 1, h⟩ else ⟨0, Nat.zero_lt_of_lt p.isLt⟩

namespace Ring

variable (r : Ring α n) (x : α)

def push : Ring α n := ⟨r.slot.set r.ptr x, next r.ptr⟩

/-- The entries, the oldest first. -/
def contents : List α := r.slot.toList.rotate r.ptr

theorem rotate_next {l : List α} (hl : l.length = n) (p : Fin n) :
    l.rotate (next p) = l.rotate (p.val + 1) := by
  by_cases h : p.val + 1 < n
  · rw [next, dif_pos h]
  · have hp := p.isLt
    rw [next, dif_neg h, show p.val + 1 = l.length by omega, List.rotate_length, List.rotate_zero]

theorem rotate_set_succ {l : List α} {p : Nat} (hp : p < l.length) :
    (l.set p x).rotate (p + 1) = (l.rotate p).tail ++ [x] := by
  have hrest : l.rotate p = l[p] :: (l.drop (p + 1) ++ l.take p) := by
    rw [List.rotate_eq_drop_append_take hp.le, List.drop_eq_getElem_cons hp, List.cons_append]
  rw [hrest, List.tail_cons, List.rotate_eq_drop_append_take (by rw [List.length_set]; omega),
    List.drop_set_of_lt (by omega), List.take_succ_eq_append_getElem (by rwa [List.length_set]),
    List.getElem_set_self, List.take_set_of_le (by omega), List.append_assoc]

theorem contents_push : (r.push x).contents = r.contents.tail ++ [x] := by
  have hrotate := rotate_next (l := (r.slot.set r.ptr x).toList) (by simp) r.ptr
  rw [Vector.toList_set, rotate_set_succ x (by simp)] at hrotate
  rw [contents, push, Vector.toList_set, hrotate, contents]

theorem length_contents : r.contents.length = n := by
  rw [contents, List.length_rotate, Vector.length_toList]

theorem contents_foldl (xs : List α) : (xs.foldl push r).contents = (r.contents ++ xs).drop xs.length := by
  induction xs using List.reverseRecOn with
  | nil => simp
  | append_singleton xs x ih =>
    have hpos := Nat.zero_lt_of_lt r.ptr.isLt
    have hle : xs.length + 1 ≤ (r.contents ++ xs).length := by
      rw [List.length_append, length_contents]
      omega
    rw [List.foldl_append, List.foldl_cons, List.foldl_nil, contents_push, ih, List.length_append, List.tail_drop,
      ← List.append_assoc, List.length_singleton, List.drop_append_of_le_length hle]

end Ring

/-- The last `n` entries of a list. -/
def latest (n : Nat) (xs : List α) : List α := xs.drop (xs.length - n)

/-- A ring of blank slots holds the latest entries, after blanks for those still missing. -/
theorem contents_of_blank {b : α} (p : Fin n) (xs : List α) :
    (xs.foldl Ring.push ⟨.replicate n b, p⟩).contents = List.replicate (n - xs.length) b ++ latest n xs := by
  have hc : (Ring.contents ⟨.replicate n b, p⟩ : List α) = List.replicate n b := by
    rw [Ring.contents, Vector.toList_replicate, List.rotate_replicate]
  rw [Ring.contents_foldl, hc, List.drop_append, List.length_replicate, List.drop_replicate, latest]

end RingBuffer
