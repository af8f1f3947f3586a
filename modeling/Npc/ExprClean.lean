import Npc.ExprShape
import Npc.Lexing

/-! Malformed expressions. Whether `expr` returns, and reports success for a sentence only, is read off
the lexemes of the text and the shape of its tokens. -/

namespace Npc

namespace Expr

variable {atoi : List Char → Word} {pmemRead : Word → Option Word} {cpu : CpuState}
  {stale : Nat → List Char} {e : List Char} {ts : List Token} {ls : List Lexeme}

/-- What `expr` makes of the result of `eval`. -/
def exprResult (v : Word × Bool) : Word × Bool := if v.2 then v else (0#32, v.2)

theorem exprTokens_of (ts : List Token) :
    ((walk atoi pmemRead ts).Harmless pmemRead → exprTokens atoi pmemRead ts true =
        .ok (exprResult ((walk atoi pmemRead ts).value, (walk atoi pmemRead ts).success))) ∧
      (¬ (walk atoi pmemRead ts).Harmless pmemRead → ∃ f, exprTokens atoi pmemRead ts true = .error f) := by
  constructor
  · intro hw
    rw [exprTokens, (walk_of ts).ok hw]
    rfl
  · intro hn
    obtain ⟨f, hf⟩ := (walk_of ts).error hn
    exact ⟨f, by rw [exprTokens, hf]; rfl⟩

theorem exprTokens_ok_iff (ts : List Token) :
    (∃ r, exprTokens atoi pmemRead ts true = .ok r) ↔ (walk atoi pmemRead ts).Harmless pmemRead := by
  constructor
  · rintro ⟨r, hr⟩
    by_contra hn
    obtain ⟨f, hf⟩ := (exprTokens_of ts).2 hn
    rw [hr] at hf
    cases hf
  · exact fun hw => ⟨_, (exprTokens_of ts).1 hw⟩

section Clean

variable (atoi : List Char → Word) (pmemRead : Word → Option Word) (cpu : CpuState)
  (stale : Nat → List Char) (e : List Char)

/-- The text is refused, or its tokens are evaluated without harm. -/
def HarmlessText : Prop :=
  Refused e ∨ ∃ ls, Lexed e ls [] ∧ ls.length ≤ maxTokens ∧
    (walk atoi pmemRead (lexTokens cpu stale 0 ls)).Harmless pmemRead

variable {cpu stale e}

theorem expr_refused (h : Refused e) : expr atoi pmemRead cpu stale e true = .ok (0#32, false) := by
  obtain ⟨ls, rest, h, hle, hstuck⟩ := h
  rw [expr, h.reads_stuck hle hstuck]

theorem Lexed.expr_eq (h : Lexed e ls []) (hle : ls.length ≤ maxTokens) :
    expr atoi pmemRead cpu stale e true = exprTokens atoi pmemRead (lexTokens cpu stale 0 ls) true := by
  rw [expr, h.reads_end hle]

theorem expr_ok_iff (cpu : CpuState) (stale : Nat → List Char) (e : List Char) :
    (∃ r, expr atoi pmemRead cpu stale e true = .ok r) ↔ HarmlessText atoi pmemRead cpu stale e := by
  constructor
  · rintro ⟨r, hr⟩
    rcases makeToken_cases cpu stale e with ⟨ls, h, hle, -⟩ | ⟨href, -⟩ | hread
    · rw [h.expr_eq atoi pmemRead hle] at hr
      exact Or.inr ⟨ls, h, hle, (exprTokens_ok_iff _).mp ⟨r, hr⟩⟩
    · exact Or.inl href
    · rw [expr, hread] at hr
      cases hr
  · rintro (href | ⟨ls, h, hle, hharm⟩)
    · exact ⟨_, expr_refused atoi pmemRead href⟩
    · rw [h.expr_eq atoi pmemRead hle]
      exact (exprTokens_ok_iff _).mpr hharm

end Clean

end Expr

end Npc
