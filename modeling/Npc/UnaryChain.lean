import Npc.ExprTree

/-! The token lists that `eval` accepts, and what becomes of a chain of unary operators. The second
operator of a chain stands behind an entry that is already retyped, so the first loop of `expr`
takes it for a binary operator. -/

namespace Npc

namespace Expr

variable {atoi : List Char → Word} {pmemRead : Word → Option Word} {ts l r : List Token}
  {t : Token} {s s' : Bool} {v : Word} {n : Nat}

theorem Accepted.head_level (h : Accepted ts) : ∀ t ∈ ts.head?, opHirc t.type ≤ (opScan ts).level := by
  induction h with
  | num h =>
    intro t ht
    obtain rfl := Option.some.inj ht
    simp [h, opHirc]
  | paren hl hr h ih =>
    intro t ht
    obtain rfl := Option.some.inj ht
    simp [hl, opHirc]
  | first hr hlt ih =>
    intro t ht
    obtain rfl := Option.some.inj ht
    rw [opScan_op hlt hr.bal.musk]
  | @op t l r hl hr hle hlt ihl ihr =>
    intro u hu
    have hscan := opScan_op hlt hr.bal.musk
    have hmusk : (opScan (t :: r)).musk = 0 := by rw [hscan]
    rw [List.head?_append_of_ne_nil _ hl.ne_nil] at hu
    rw [opScan_append hmusk]
    exact (ihl u hu).trans (le_max_left _ _)

theorem isOperator_level {type : TokType} (h : isOperator type = true) : 2 ≤ opHirc type := by
  revert h
  cases type <;> decide

theorem Accepted.head_stronger (h : Accepted r) (hlt : (opScan r).level < 2) :
    ∀ u ∈ r.head?, isOperator u.type = false := by
  intro u hu
  by_contra hop
  have hlevel := isOperator_level (Bool.not_eq_false _ ▸ hop)
  have hhead := h.head_level u hu
  omega

/-- No unary operator of an accepted list is followed by a binary one. -/
theorem Accepted.no_chain (h : Accepted ts) :
    ts.IsChain fun a b => opHirc a.type = 1 → isOperator b.type = false := by
  induction h with
  | num h => exact .singleton _
  | paren hl hr h ih =>
    have hlast := List.isChain_append.mpr ⟨ih, .singleton _, fun a ha b hb _ => by
      obtain rfl := Option.some.inj hb
      rw [hr]
      rfl⟩
    refine List.isChain_cons.mpr ⟨fun b hb hlevel => ?_, hlast⟩
    simp [hl, opHirc] at hlevel
  | first hr hlt ih =>
    exact List.isChain_cons.mpr ⟨fun b hb hlevel => hr.head_stronger (by omega) b hb, ih⟩
  | @op t l r hl hr hle hlt ihl ihr =>
    have hright : (t :: r).IsChain fun a b => opHirc a.type = 1 → isOperator b.type = false :=
      List.isChain_cons.mpr ⟨fun b hb hlevel => hr.head_stronger (by omega) b hb, ihr⟩
    refine List.isChain_append.mpr ⟨ihl, hright, fun a ha b hb hlevel => ?_⟩
    obtain ⟨u, hu, htype⟩ := hl.last
    obtain rfl : u = a := Option.some.inj (hu.symm.trans ha)
    rcases htype with htype | htype <;> simp [htype, opHirc] at hlevel

theorem parenStep_success {st : ParenScan} (h : (parenStep st t).success = true) :
    st.success = true := by
  rw [parenStep] at h
  generalize (if t.type = .lparen then st.cnt + 1 else if t.type = .rparen then st.cnt - 1
    else st.cnt) = cnt at h
  split_ifs at h <;> exact h

theorem foldl_parenStep_success {st : ParenScan} (h : (ts.foldl parenStep st).success = true) :
    st.success = true := by
  induction ts generalizing st with
  | nil => exact h
  | cons t ts ih => exact parenStep_success (ih h)

theorem checkParentheses_success (h : (checkParentheses ts s).2 = true) : s = true := by
  unfold checkParentheses at h
  split_ifs at h with hp
  · exact h
  · simp only at h
    split_ifs at h
    exact foldl_parenStep_success h

theorem checkParentheses_paren (hlen : 2 ≤ ts.length) (h : (checkParentheses ts s).1 = true) :
    ∃ lp rp, lp.type = .lparen ∧ rp.type = .rparen ∧ ts = lp :: (ts.tail.dropLast ++ [rp]) := by
  unfold checkParentheses at h
  split_ifs at h with hp
  simp only [not_or, not_not] at hp
  obtain ⟨lp, hlp, hl⟩ := Option.map_eq_some_iff.mp hp.1
  obtain ⟨rp, hrp, hr⟩ := Option.map_eq_some_iff.mp hp.2
  refine ⟨lp, rp, hl, hr, ?_⟩
  match ts with
  | [t] => simp at hlen
  | t :: u :: ts =>
    obtain rfl : t = lp := Option.some.inj hlp
    rw [List.getLast?_cons_cons] at hrp
    have hlast := List.dropLast_append_getLast? rp hrp
    rw [List.tail_cons, hlast]

theorem applyOp_success {type : TokType} {val1 val2 : Word}
    (h : applyOp pmemRead type val1 val2 s = .ok (v, true)) : s = true := by
  cases type with
  | slash =>
    simp only [applyOp] at h
    split_ifs at h <;> simp_all
  | deref =>
    simp only [applyOp] at h
    split at h <;> simp_all
  | _ => simp_all [applyOp]

/-- A success of `eval` comes from a number, from the inside of parentheses, or from an operator
and its operands. -/
theorem eval_cases (h : eval atoi pmemRead ts s = .ok (v, true)) :
    (∃ t, ts = [t] ∧ t.type = .num ∧ s = true) ∨
    (∃ lp rp us s', ts = lp :: (us ++ [rp]) ∧ lp.type = .lparen ∧ rp.type = .rparen ∧
      eval atoi pmemRead us s' = .ok (v, true) ∧ (s' = true → s = true)) ∨
    (∃ l t r v₁ v₂, ts = l ++ t :: r ∧ s = true ∧
      (if l ≠ [] then eval atoi pmemRead l true else .ok (0#32, true)) = .ok v₁ ∧
      eval atoi pmemRead r v₁.2 = .ok v₂ ∧
      applyOp pmemRead t.type v₁.1 v₂.1 v₂.2 = .ok (v, true) ∧
      opHirc t.type = (opScan ts).level ∧ (opScan r).level < opHirc t.type) := by
  by_cases hlen : 2 ≤ ts.length
  · obtain ⟨s', hs'⟩ : ∃ s', (checkParentheses ts s).2 = s' := ⟨_, rfl⟩
    cases hc : (checkParentheses ts s).1 with
    | true =>
      rw [eval_paren hlen (Prod.ext hc hs')] at h
      obtain ⟨lp, rp, hl, hr, hts⟩ := checkParentheses_paren hlen hc
      exact Or.inr (Or.inl ⟨lp, rp, _, s', hts, hl, hr, h,
        fun ht => checkParentheses_success (hs'.trans ht)⟩)
    | false =>
      by_cases hrej : s' = false ∨ findMainOp ts = none
      · rw [eval_reject hlen (Prod.ext hc hs') hrej] at h
        simp at h
      · simp only [not_or, Bool.not_eq_false] at hrej
        obtain ⟨rfl, hop⟩ := hrej
        obtain ⟨op, hop⟩ := Option.ne_none_iff_exists'.mp hop
        rw [eval_main hlen (Prod.ext hc hs') hop] at h
        obtain ⟨l, t, r, rfl, rfl, hlevel, hlt, -⟩ := findMainOp_spec hop
        rw [evalMain_split] at h
        obtain ⟨v₁, hv₁, h⟩ := bind_eq_ok h
        obtain ⟨v₂, hv₂, happly⟩ := bind_eq_ok h
        exact Or.inr (Or.inr ⟨l, t, r, v₁, v₂, rfl, checkParentheses_success hs', hv₁, hv₂,
          happly, hlevel, hlt⟩)
  · match ts with
    | [] => rw [eval_nil] at h; cases h
    | [t] =>
      rw [eval_single] at h
      have ht : atoi t.str = v ∧ t.type = .num ∧ s = true := by simpa using h
      exact Or.inl ⟨t, rfl, ht.2⟩
    | t :: u :: ts => simp at hlen

theorem eval_accepted (h : eval atoi pmemRead ts s = .ok (v, true)) : s = true ∧ Accepted ts := by
  induction hn : ts.length using Nat.strongRecOn generalizing ts s v with
  | ind n ih =>
    subst hn
    rcases eval_cases h with ⟨t, rfl, ht, hs⟩ | ⟨lp, rp, us, s', rfl, hl, hr, heval, hs⟩ |
      ⟨l, t, r, v₁, v₂, rfl, hs, hv₁, hv₂, happly, hlevel, hlt⟩
    · exact ⟨hs, .num ht⟩
    · have hlen : us.length < (lp :: (us ++ [rp])).length := by
        simp only [List.length_cons, List.length_append]
        omega
      obtain ⟨hs', hus⟩ := ih _ hlen heval rfl
      exact ⟨hs hs', .paren hl hr hus⟩
    · obtain ⟨w₁, s₁⟩ := v₁
      obtain ⟨w₂, s₂⟩ := v₂
      obtain rfl := applyOp_success happly
      have hlenl : l.length < (l ++ t :: r).length := by
        simp only [List.length_append, List.length_cons]
        omega
      have hlenr : r.length < (l ++ t :: r).length := by
        simp only [List.length_append, List.length_cons]
        omega
      obtain ⟨rfl, hr⟩ := ih _ hlenr hv₂ rfl
      refine ⟨hs, ?_⟩
      by_cases hne : l = []
      · subst hne
        exact .first hr hlt
      · rw [if_pos hne] at hv₁
        -- the scan went on past the main operator, so nothing before it binds weaker
        have hl := (ih _ hlenl hv₁ rfl).2
        have hscan := opScan_op hlt hr.bal.musk
        have hmusk : (opScan (t :: r)).musk = 0 := by rw [hscan]
        rw [opScan_append hmusk] at hlevel
        exact .op hl hr (hlevel ▸ le_max_left _ _) hlt

theorem prepass_chain {prev : Option TokType} {u₁ u₂ : Token} (hprev : opensOperand prev = true)
    (h₁ : u₁.type = .minus ∨ u₁.type = .star) (h₂ : u₂.type = .minus ∨ u₂.type = .star) :
    ∃ a b rest, prepass prev (u₁ :: u₂ :: r) = a :: b :: rest ∧ opHirc a.type = 1 ∧
      isOperator b.type = true := by
  have hunary : opHirc (retype prev u₁.type) = 1 ∧
      opensOperand (some (retype prev u₁.type)) = false := by
    rcases h₁ with h | h
    · rw [h, retype_minus hprev]
      exact ⟨rfl, rfl⟩
    · rw [h, retype_star hprev]
      exact ⟨rfl, rfl⟩
  refine ⟨_, _, _, rfl, hunary.1, ?_⟩
  simp only [retype_of_closed hunary.2]
  rcases h₂ with h | h <;> rw [h] <;> rfl

/-- No expression with a chain of unary operators is accepted, wherever the operand stands. -/
theorem unary_chain_rejected (atoi : List Char → Word) (pmemRead : Word → Option Word)
    (cpu : CpuState) (stale : Nat → List Char) (e : List Char) (pre us rest : List Token)
    (htokens : ∀ ts, makeToken cpu stale e = .ok (some ts) → ts = pre ++ us ++ rest)
    (hpre : opensOperand ((prepass none pre).getLast?.map Token.type) = true)
    (hlen : 2 ≤ us.length) (hus : ∀ u ∈ us, u.type = .minus ∨ u.type = .star)
    (success : Bool) (v : Word) : expr atoi pmemRead cpu stale e success ≠ .ok (v, true) := by
  intro h
  obtain ⟨ts, hmake, heval⟩ := expr_success h
  obtain rfl := htokens ts hmake
  have hchain := (eval_accepted (exprTokens_success heval)).2.no_chain
  cases us with
  | nil => simp at hlen
  | cons u₁ us =>
    cases us with
    | nil => simp at hlen
    | cons u₂ us =>
      rw [List.append_assoc, prepass_append, Option.or_none] at hchain
      -- the first two of the chain become a unary operator and a binary one behind it
      obtain ⟨a, b, post, hpost, ha, hb⟩ := prepass_chain (r := us ++ rest) hpre
        (hus u₁ (by simp)) (hus u₂ (by simp))
      rw [List.cons_append, List.cons_append, hpost] at hchain
      have hab := (List.isChain_cons_cons.mp (List.isChain_append.mp hchain).2.1).1 ha
      rw [hb] at hab
      cases hab

theorem doubleMinus_rejected :
    makeToken zeroCpu (fun _ => []) ['-', ' ', '-', ' ', '1'] =
        .ok (some [⟨.minus, []⟩, ⟨.minus, []⟩, ⟨.num, ['1']⟩]) ∧
      expr decimalValue (fun _ => none) zeroCpu (fun _ => []) ['-', ' ', '-', ' ', '1'] true =
        .ok (0#32, false) := by
  constructor <;> decide +kernel

theorem unary_chain_rejected_doubleMinus :
    expr decimalValue (fun _ => none) zeroCpu (fun _ => []) ['-', ' ', '-', ' ', '1'] true ≠
      .ok (1#32, true) := by
  have hmake : makeToken zeroCpu (fun _ => []) ['-', ' ', '-', ' ', '1'] =
      .ok (some ([] ++ [⟨.minus, []⟩, ⟨.minus, []⟩] ++ [⟨.num, ['1']⟩])) := by decide +kernel
  exact unary_chain_rejected decimalValue (fun _ => none) zeroCpu (fun _ => []) _ [] _ _
    (fun ts h => Option.some.inj (Except.ok.inj (h.symm.trans hmake))) rfl le_rfl (by decide) true 1#32

end Expr

end Npc
