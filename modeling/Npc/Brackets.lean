import Mathlib.Data.List.Basic

/-! Nesting of brackets in a word. The depth grows at an opening bracket and falls at a closing
one; a word is balanced when it never falls below where it started and ends there. -/

namespace Brackets

variable {α : Type*} (opening closing : α → Bool)

/-- The depth after one more letter, `none` for a closing bracket at depth 0. -/
def next (d : Nat) (x : α) : Option Nat :=
  if opening x then some (d + 1)
  else if closing x then (if d = 0 then none else some (d - 1))
  else some d

def depth : Nat → List α → Option Nat
  | d, [] => some d
  | d, x :: l => (next opening closing d x).bind fun e => depth e l

def Balanced (l : List α) : Prop := depth opening closing 0 l = some 0

variable {opening closing} {d e k : Nat} {l r : List α} {x y : α}

theorem depth_append (l r : List α) :
    depth opening closing d (l ++ r) =
      (depth opening closing d l).bind fun e => depth opening closing e r := by
  induction l generalizing d with
  | nil => rfl
  | cons x l ih =>
    cases hx : next opening closing d x <;> simp [depth, hx, ih]

theorem next_add (h : next opening closing d x = some e) :
    next opening closing (d + k) x = some (e + k) := by
  unfold next at h ⊢
  split_ifs at h ⊢ <;> simp only [Option.some.injEq] at h ⊢ <;> omega

theorem depth_add (h : depth opening closing d l = some e) :
    depth opening closing (d + k) l = some (e + k) := by
  induction l generalizing d with
  | nil => exact congrArg (fun n => some (n + k)) (Option.some.inj h)
  | cons x l ih =>
    obtain ⟨c, hc, hl⟩ := Option.bind_eq_some_iff.mp h
    exact Option.bind_eq_some_iff.mpr ⟨c + k, next_add hc, ih hl⟩

theorem Balanced.depth (h : Balanced opening closing l) (d : Nat) :
    depth opening closing d l = some d := by
  have hd := depth_add (k := d) h
  rwa [Nat.zero_add] at hd

theorem Balanced.append (hl : Balanced opening closing l) (hr : Balanced opening closing r) :
    Balanced opening closing (l ++ r) := by
  rw [Balanced, depth_append, hl]
  exact hr

theorem balanced_singleton (ho : opening x = false) (hc : closing x = false) :
    Balanced opening closing [x] := by
  simp [Balanced, Brackets.depth, next, ho, hc]

theorem Balanced.wrap (hx : opening x = true) (hy : opening y = false) (hc : closing y = true)
    (h : Balanced opening closing l) : Balanced opening closing (x :: (l ++ [y])) := by
  simp [Balanced, Brackets.depth, next, hx, depth_append, h.depth, hy, hc]

theorem Balanced.tail (h : Balanced opening closing (x :: l)) (hx : opening x = true) :
    Brackets.depth opening closing 1 l = some 0 := by
  have hd : next opening closing 0 x = some 1 := by simp [next, hx]
  rwa [Balanced, Brackets.depth, hd] at h

theorem Balanced.dropLast (h : Balanced opening closing (l ++ [y])) (hy : opening y = false)
    (hc : closing y = true) : Brackets.depth opening closing 0 l = some 1 := by
  rw [Balanced, depth_append] at h
  obtain ⟨e, he, hlast⟩ := Option.bind_eq_some_iff.mp h
  have he1 : e = 1 := by
    simp only [Brackets.depth, next, hy, hc] at hlast
    cases e with
    | zero => simp at hlast
    | succ n => simpa using hlast
  rw [he, he1]

end Brackets
