import Npc.Lexemes

/-! Every text read as blanks and lexemes, each as long as it goes, up to where it cannot be read on.
`make_token` accepts a text that is read to its end and refuses the others, as long as the tokens
fit. -/

namespace Npc

namespace Expr

/-- The text begins with a run of blanks or a lexeme that is not too long, and `rest` follows. -/
inductive Piece : List Char → Option Lexeme → List Char → Prop
  | blanks {k : Nat} {rest : List Char} (h0 : k ≠ 0) (hlen : k ≤ 31)
    (hrest : rest.head?.all fun c => !(c = ' ' : Bool)) : Piece (List.replicate k ' ' ++ rest) none rest
  | lexeme {l : Lexeme} {rest : List Char} (hlen : l.text.length ≤ 31) (hend : l.EndsAt rest) :
    Piece (l.text ++ rest) (some l) rest

/-- The text is read as the lexemes, up to the rest. -/
inductive Lexed : List Char → List Lexeme → List Char → Prop
  | refl (e : List Char) : Lexed e [] e
  | step {e rest rest' : List Char} {l : Option Lexeme} {ls : List Lexeme} (hp : Piece e l rest)
    (h : Lexed rest ls rest') : Lexed e (l.toList ++ ls) rest'

/-- Nothing can be read at the start of the text, and it is not at its end. -/
def Stuck (e : List Char) : Prop := e ≠ [] ∧ ∀ l rest, ¬ Piece e l rest

/-- The text cannot be read on behind a number of lexemes that fit. -/
def Refused (e : List Char) : Prop := ∃ ls rest, Lexed e ls rest ∧ ls.length ≤ maxTokens ∧ Stuck rest

variable {cpu : CpuState} {stale : Nat → List Char} {nr len : Nat} {e rest : List Char} {l : Option Lexeme}
  {ls : List Lexeme} {ts toks : List Token} {rule : RuleType}

theorem Piece.length_lt (h : Piece e l rest) : rest.length < e.length := by
  cases h with
  | blanks h0 hlen hrest =>
    rw [List.length_append, List.length_replicate]
    omega
  | @lexeme l rest hlen hend =>
    obtain ⟨c, t, ht, -⟩ := text_head l
    rw [ht, List.length_append, List.length_cons]
    omega

theorem map_nil_append (x : Except Fault (Option (List Token))) : x.map (·.map ([] ++ ·)) = x := by
  cases x with
  | error f => rfl
  | ok r => cases r <;> rfl

theorem Piece.reads (h : Piece e l rest) :
    makeTokenFrom cpu stale e.length nr e =
      if l ≠ none ∧ nr ≥ maxTokens then .error .outOfBounds
      else (makeTokenFrom cpu stale rest.length (nr + l.toList.length) rest).map
        (·.map (lexTokens cpu stale nr l.toList ++ ·)) := by
  cases h with
  | blanks h0 hlen hrest =>
    rw [makeTokenFrom_blanks hrest, if_neg (by omega), if_neg (by simp)]
    exact (map_nil_append _).symm
  | lexeme hlen hend =>
    rw [makeTokenFrom_lexeme hend, if_neg (by omega)]
    simp [lexTokens]

theorem exists_hnum {c : Char} (hc : isHexDigit c = true) (t : List Char) :
    ∃ run rest, IsDigits isHexDigit run ∧ rest.head?.all (fun c => !isHexDigit c) ∧
      ['0', 'x'] ++ (c :: t) = ['0', 'x'] ++ run ++ rest := by
  have hm : matchMany ['0', 'x'] isHexDigit ('0' :: 'x' :: c :: t) ≠ 0 := by simp [matchMany, hc]
  obtain ⟨run, rest, heq, hne, hrun, hstop, -⟩ := matchMany_eq hm
  exact ⟨run, rest, ⟨hne, List.all_eq_true.mpr hrun⟩, hstop, by rw [List.append_assoc, ← heq]; rfl⟩

/-- A match that yields a token, or blanks, is a piece. -/
theorem piece_of_match {s : List Char} (hm : matchRules e = some (rule, len)) (hlen : len ≤ 31)
    (hrec : recordToken cpu s (e.take len) rule = some toks) : ∃ l rest, Piece e l rest := by
  obtain ⟨-, -, -, -, hne⟩ := matchRules_mem hm
  obtain ⟨text, rest, rfl, rfl, hmatch, hstop⟩ := matchRules_spec hm
  rw [List.take_left] at hrec
  have hpiece : ∀ l : Lexeme, text = l.text → l.EndsAt rest → ∃ l' rest', Piece (text ++ rest) l' rest' := by
    rintro l rfl hend
    exact ⟨some l, rest, .lexeme hlen hend⟩
  cases rule with
  | notype =>
    obtain ⟨k, rfl⟩ := hmatch
    rw [List.length_replicate] at hne hlen
    exact ⟨none, rest, .blanks hne hlen hstop⟩
  | num =>
    refine hpiece (.num text hmatch) rfl ⟨hstop, fun hx => ?_⟩
    obtain ⟨rfl, c, t, rfl, hc⟩ := hx
    -- the rule for hexadecimal numbers comes first
    obtain ⟨run, rest, hrun, hend, heq⟩ := exists_hnum hc t
    have hhex : matchRules (['0'] ++ 'x' :: c :: t) = some (.hnum, (['0', 'x'] ++ run).length) := by
      rw [← matchRules_hnum hrun hend, ← heq]
      rfl
    rw [hhex] at hm
    cases hm
  | hnum =>
    obtain ⟨digits, rfl, hd⟩ := hmatch
    exact hpiece (.hnum digits hd) rfl hstop
  | reg =>
    obtain ⟨name, rfl⟩ := hmatch
    have hname : name ∈ ['p', 'c'] :: regs := by
      by_contra hn
      simp [recordToken, regStr2val_eq_none.mpr hn] at hrec
    exact hpiece (.reg name hname) rfl hstop
  | op type =>
    obtain ⟨rfl, ht⟩ := hmatch
    exact hpiece (.op type ht) rfl trivial

theorem Stuck.reads (h : Stuck e) : makeTokenFrom cpu stale e.length nr e = .ok none := by
  obtain ⟨hne, hno⟩ := h
  obtain ⟨c, e, rfl⟩ := List.exists_cons_of_ne_nil hne
  rw [List.length_cons, makeTokenFrom]
  cases hm : matchRules (c :: e) with
  | none => rfl
  | some m =>
    obtain ⟨rule, len⟩ := m
    by_cases hlen : len > 31
    · simp [hlen]
    · cases hrec : recordToken cpu (stale nr) ((c :: e).take len) rule with
      | none => simp [hrec]
      | some toks =>
        obtain ⟨l, rest, hp⟩ := piece_of_match hm (by omega) hrec
        exact absurd hp (hno l rest)

theorem lexTokens_append (nr : Nat) (ls ls' : List Lexeme) :
    lexTokens cpu stale nr (ls ++ ls') =
      lexTokens cpu stale nr ls ++ lexTokens cpu stale (nr + ls.length) ls' := by
  induction ls generalizing nr with
  | nil => rfl
  | cons l ls ih => simp [lexTokens, ih, Nat.add_assoc, Nat.add_comm 1]

theorem Lexed.reads (h : Lexed e ls rest) (hle : nr + ls.length ≤ maxTokens) :
    makeTokenFrom cpu stale e.length nr e =
      (makeTokenFrom cpu stale rest.length (nr + ls.length) rest).map
        (·.map (lexTokens cpu stale nr ls ++ ·)) := by
  induction h generalizing nr with
  | refl e => exact (map_nil_append _).symm
  | @step e rest rest' l ls hp h ih =>
    rw [List.length_append, ← Nat.add_assoc] at hle ⊢
    have hfree : ¬ (l ≠ none ∧ nr ≥ maxTokens) := by
      cases l with
      | none => simp
      | some l =>
        rw [Option.toList_some, List.length_singleton] at hle
        omega
    rw [hp.reads, if_neg hfree, ih hle, lexTokens_append]
    cases makeTokenFrom cpu stale rest'.length (nr + l.toList.length + ls.length) rest' with
    | error f => rfl
    | ok r => cases r <;> simp [Except.map]

/-- The entry behind the last one of `tokens` is written. -/
theorem Lexed.reads_full (h : Lexed e ls rest) (hnr : nr ≤ maxTokens)
    (hgt : maxTokens < nr + ls.length) : makeTokenFrom cpu stale e.length nr e = .error .outOfBounds := by
  induction h generalizing nr with
  | refl e =>
    rw [List.length_nil] at hgt
    omega
  | @step e rest rest' l ls hp h ih =>
    rw [List.length_append, ← Nat.add_assoc] at hgt
    rw [hp.reads]
    split_ifs with hfull
    · rfl
    · have hroom : nr + l.toList.length ≤ maxTokens := by
        cases l with
        | none => exact hnr
        | some l =>
          have hlt : ¬ nr ≥ maxTokens := fun hge => hfull ⟨Option.some_ne_none l, hge⟩
          rw [Option.toList_some, List.length_singleton]
          omega
      rw [ih hroom hgt]
      rfl

/-- A text is read to its end or to where it cannot be read on. -/
theorem exists_lexed (e : List Char) : ∃ ls rest, Lexed e ls rest ∧ (rest = [] ∨ Stuck rest) := by
  induction hn : e.length using Nat.strongRecOn generalizing e with
  | ind n ih =>
    subst hn
    by_cases hstop : e = [] ∨ Stuck e
    · exact ⟨[], e, .refl e, hstop⟩
    · simp only [Stuck, not_or, not_and, not_forall, not_not] at hstop
      obtain ⟨hne, hpiece⟩ := hstop
      obtain ⟨l, rest, hp⟩ := hpiece hne
      obtain ⟨ls, rest', h, hend⟩ := ih _ hp.length_lt rest rfl
      exact ⟨_, rest', .step hp h, hend⟩

theorem Lexed.reads_end (h : Lexed e ls []) (hle : ls.length ≤ maxTokens) :
    makeToken cpu stale e = .ok (some (lexTokens cpu stale 0 ls)) := by
  rw [makeToken, h.reads (by omega), makeTokenFrom]
  simp [Except.map]

theorem Lexed.reads_stuck (h : Lexed e ls rest) (hle : ls.length ≤ maxTokens) (hstuck : Stuck rest) :
    makeToken cpu stale e = .ok none := by
  rw [makeToken, h.reads (by omega), hstuck.reads]
  rfl

/-- What becomes of a text: its tokens, a refusal or a write behind the end of `tokens`. -/
theorem makeToken_cases (cpu : CpuState) (stale : Nat → List Char) (e : List Char) :
    (∃ ls, Lexed e ls [] ∧ ls.length ≤ maxTokens ∧
        makeToken cpu stale e = .ok (some (lexTokens cpu stale 0 ls))) ∨
      (Refused e ∧ makeToken cpu stale e = .ok none) ∨ makeToken cpu stale e = .error .outOfBounds := by
  obtain ⟨ls, rest, h, hend⟩ := exists_lexed e
  by_cases hle : ls.length ≤ maxTokens
  · rcases hend with rfl | hstuck
    · exact Or.inl ⟨ls, h, hle, h.reads_end hle⟩
    · exact Or.inr (Or.inl ⟨⟨ls, rest, h, hle, hstuck⟩, h.reads_stuck hle hstuck⟩)
  · exact Or.inr (Or.inr (h.reads_full (Nat.zero_le _) (by omega)))

theorem Lexed.write (h : Lexed e ls rest) :
    rest = [] → ∃ w tail, e = Expr.write w tail ∧ w.map Prod.snd = ls := by
  induction h with
  | refl e =>
    rintro rfl
    exact ⟨[], 0, rfl, rfl⟩
  | step hp h ih =>
    intro hend
    obtain ⟨w, tail, rfl, rfl⟩ := ih hend
    cases hp with
    | blanks h0 hlen hrest => exact blanks_write _ w tail
    | @lexeme l rest hlen hend => exact ⟨(0, l) :: w, tail, by simp [Expr.write], by simp⟩

end Expr

end Npc
