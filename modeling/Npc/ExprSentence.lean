import Npc.UnaryChain

/-! The expression grammar, over the token types before unary operators are retyped. A list that
`eval` accepts is a sentence unless an operator lacks its left operand. -/

namespace Npc

namespace Expr

inductive Sentence : List TokType → Prop
  | num : Sentence [.num]
  | paren {ts : List TokType} (h : Sentence ts) : Sentence (.lparen :: (ts ++ [.rparen]))
  | unary {op : TokType} {ts : List TokType} (hop : op = .minus ∨ op = .star) (h : Sentence ts) :
    Sentence (op :: ts)
  | binary {op : TokType} {l r : List TokType} (hop : isOperator op = true) (hl : Sentence l)
    (hr : Sentence r) : Sentence (l ++ op :: r)

/-- How the first loop of `expr` leaves an entry behind another, or at the start: a binary operator
only behind an operand, unless it follows a unary one. -/
def Fits (prev : Option TokType) (type : TokType) : Prop :=
  (isOperator type = true → opensOperand prev = false) ∧
    (opHirc type = 1 → opensOperand prev = true)

variable {ts l r : List Token} {us vs : List TokType} {prev prev' : Option TokType} {t : Token}
  {type : TokType}

theorem Sentence.last (h : Sentence us) : us.getLast? = some .num ∨ us.getLast? = some .rparen := by
  induction h with
  | num => exact Or.inl rfl
  | paren h ih =>
    refine Or.inr ?_
    rw [← List.cons_append, List.getLast?_append]
    rfl
  | unary hop h ih =>
    rw [List.getLast?_cons]
    rcases ih with ih | ih <;> rw [ih]
    · exact Or.inl rfl
    · exact Or.inr rfl
  | binary hop hl hr ihl ihr =>
    rw [List.getLast?_append, List.getLast?_cons]
    rcases ihr with ihr | ihr <;> rw [ihr]
    · exact Or.inl rfl
    · exact Or.inr rfl

theorem Sentence.apart (h : Sentence us) : us.IsChain fun a b => ¬ (a = .num ∧ b = .num) := by
  induction h with
  | num => exact .singleton _
  | paren h ih =>
    have hlast := List.isChain_append.mpr ⟨ih, .singleton _, fun a ha b hb hab => by
      obtain rfl : TokType.rparen = b := Option.some.inj hb
      cases hab.2⟩
    exact List.isChain_cons.mpr ⟨fun b hb hab => (nomatch hab.1), hlast⟩
  | unary hop h ih =>
    refine List.isChain_cons.mpr ⟨fun b hb hab => ?_, ih⟩
    rcases hop with rfl | rfl <;> cases hab.1
  | @binary op l r hop hl hr ihl ihr =>
    have hne : op ≠ .num := by
      rintro rfl
      cases hop
    refine List.isChain_append.mpr ⟨ihl, List.isChain_cons.mpr ⟨fun b hb hab => hne hab.1, ihr⟩, ?_⟩
    intro a ha b hb hab
    obtain rfl : op = b := Option.some.inj hb
    exact hne hab.2

end Expr

end Npc
