import Npc.Expr

/-! What the two scans of `expr.c` see of a token list: `check_parentheses` counts from the left,
`find_main_op` from the right, and on balanced lists they agree about the nesting. -/

namespace Npc

namespace Expr

open Brackets

def isLparen (t : Token) : Bool := t.type = .lparen

def isRparen (t : Token) : Bool := t.type = .rparen

abbrev Bal (ts : List Token) : Prop := Balanced isLparen isRparen ts

variable {l r ts : List Token} {t lp rp : Token} {s : Bool} {d e op : Nat} {c : Int}
  {flag : Bool} {s0 : OpScan}

theorem bal_single (hl : t.type ≠ .lparen) (hr : t.type ≠ .rparen) : Bal [t] :=
  balanced_singleton (by simp [isLparen, hl]) (by simp [isRparen, hr])

theorem Bal.cons (hl : t.type ≠ .lparen) (hr : t.type ≠ .rparen) (h : Bal ts) : Bal (t :: ts) :=
  (bal_single hl hr).append h

theorem Bal.wrap (hl : lp.type = .lparen) (hr : rp.type = .rparen) (h : Bal ts) :
    Bal (lp :: (ts ++ [rp])) :=
  Balanced.wrap (by simp [isLparen, hl]) (by simp [isLparen, hr]) (by simp [isRparen, hr]) h

theorem parenStep_next (hc : -1 ≤ c) (h : next isLparen isRparen d t = some e) :
    parenStep ⟨d + c, flag, s⟩ t = ⟨e + c, flag || decide (e + c = -1), s⟩ := by
  have hcnt : (if t.type = .lparen then (d + c : Int) + 1
      else if t.type = .rparen then d + c - 1 else d + c) = e + c := by
    simp only [next, isLparen, isRparen, decide_eq_true_eq] at h
    split_ifs at h ⊢ <;> simp only [Option.some.injEq] at h <;> omega
  rw [parenStep, hcnt]
  by_cases hm : (e + c : Int) = -1
  · simp [hm]
  · have hge : ¬ (e + c : Int) < -1 := by omega
    simp [hm, hge]

/-- `c` is the count at depth 0. From -1 on the flag goes up where the depth comes back to 0. -/
theorem parenStep_foldl (hc : -1 ≤ c) (h : depth isLparen isRparen d l = some e) :
    ∀ flag, ∃ flag', l.foldl parenStep ⟨d + c, flag, s⟩ = ⟨e + c, flag', s⟩ ∧
      (0 ≤ c → flag' = flag) ∧ (flag = true → flag' = true) ∧
      (c = -1 → e = 0 → l ≠ [] → flag' = true) := by
  induction l generalizing d with
  | nil =>
    intro flag
    obtain rfl : d = e := Option.some.inj h
    exact ⟨flag, rfl, fun _ => rfl, id, fun _ _ hne => absurd rfl hne⟩
  | cons t l ih =>
    intro flag
    obtain ⟨d', hd', hl⟩ := Option.bind_eq_some_iff.mp h
    obtain ⟨flag', hfold, hpos, hkeep, hzero⟩ := ih hl (flag || decide (d' + c = -1))
    refine ⟨flag', ?_, ?_, ?_, ?_⟩
    · rw [List.foldl_cons, parenStep_next hc hd', hfold]
    · intro h0
      have hne : ¬ (d' + c : Int) = -1 := by omega
      simpa [hne] using hpos h0
    · intro hf
      exact hkeep (by simp [hf])
    · intro hm he hne
      cases l with
      | nil =>
        obtain rfl : d' = e := Option.some.inj hl
        exact hkeep (by simp [hm, he])
      | cons u l => exact hzero hm he (by simp)

theorem checkParentheses_head (h : t.type ≠ .lparen) : checkParentheses (t :: ts) s = (false, s) := by
  simp [checkParentheses, h]

theorem checkParentheses_wrap (hl : lp.type = .lparen) (hr : rp.type = .rparen) (h : Bal ts) :
    checkParentheses (lp :: (ts ++ [rp])) s = (true, s) := by
  obtain ⟨flag', hfold, hflag, -, -⟩ := parenStep_foldl (c := 0) (s := s) (by omega) h false
  have hlast : (lp :: (ts ++ [rp])).getLast? = some rp := by
    rw [← List.cons_append, List.getLast?_append]
    rfl
  have hinner : (lp :: (ts ++ [rp])).tail.dropLast = ts := by simp
  have h0 : ts.foldl parenStep ⟨0, false, s⟩ = ⟨0, flag', s⟩ := hfold
  rw [checkParentheses, hlast, hinner]
  simp [hl, hr, h0, hflag]

/-- A list that splits into two balanced parts is not in parentheses as a whole. -/
theorem checkParentheses_append (hl : Bal l) (hr : Bal r) (hne : l ≠ []) (hne' : r ≠ []) :
    checkParentheses (l ++ r) s = (false, s) := by
  obtain ⟨lp, l, rfl⟩ := List.exists_cons_of_ne_nil hne
  obtain ⟨r, rp, rfl⟩ := (List.eq_nil_or_concat' r).resolve_left hne'
  have hlast : (lp :: l ++ (r ++ [rp])).getLast? = some rp := by
    rw [← List.append_assoc, List.getLast?_append]
    rfl
  have hinner : (lp :: l ++ (r ++ [rp])).tail.dropLast = l ++ r := by
    rw [List.cons_append, List.tail_cons, ← List.append_assoc, List.dropLast_concat]
  by_cases hlp : lp.type = .lparen
  · by_cases hrp : rp.type = .rparen
    · have hlopen := hl.tail (by simp [isLparen, hlp])
      have hrclose := hr.dropLast (by simp [isLparen, hrp]) (by simp [isRparen, hrp])
      have hlne : l ≠ [] := by
        rintro rfl
        cases hlopen
      obtain ⟨flag₁, hfold₁, -, -, hzero⟩ := parenStep_foldl (c := -1) (s := s) le_rfl hlopen false
      obtain ⟨flag₂, hfold₂, -, hkeep, -⟩ := parenStep_foldl (c := -1) (s := s) le_rfl hrclose flag₁
      have h₁ : l.foldl parenStep ⟨0, false, s⟩ = ⟨-1, flag₁, s⟩ := hfold₁
      have h₂ : r.foldl parenStep ⟨-1, flag₁, s⟩ = ⟨0, flag₂, s⟩ := hfold₂
      have hflag : flag₂ = true := hkeep (hzero rfl rfl hlne)
      rw [checkParentheses, hlast, hinner]
      simp [hlp, hrp, h₁, h₂, hflag]
    · rw [checkParentheses, hlast]
      simp [hrp]
  · exact checkParentheses_head hlp

theorem opStep_lparen (h : t.type = .lparen) :
    opStep t s0 = ⟨s0.musk - 1, s0.level, s0.mainOp.map (· + 1)⟩ := by
  simp [opStep, h]

theorem opStep_rparen (h : t.type = .rparen) :
    opStep t s0 = ⟨s0.musk + 1, s0.level, s0.mainOp.map (· + 1)⟩ := by
  simp [opStep, h]

theorem opStep_other (hl : t.type ≠ .lparen) (hr : t.type ≠ .rparen) :
    opStep t s0 = if opHirc t.type > s0.level ∧ s0.musk = 0 then ⟨s0.musk, opHirc t.type, some 0⟩
      else ⟨s0.musk, s0.level, s0.mainOp.map (· + 1)⟩ := by
  unfold opStep
  split
  · contradiction
  · contradiction
  · rfl

theorem opStep_musk (h : next isLparen isRparen d t = some e) :
    (opStep t s0).musk = s0.musk + d - e := by
  simp only [next, isLparen, isRparen, decide_eq_true_eq] at h
  by_cases hl : t.type = .lparen
  · rw [if_pos hl] at h
    obtain rfl : d + 1 = e := Option.some.inj h
    rw [opStep_lparen hl]
    push_cast
    omega
  · rw [if_neg hl] at h
    by_cases hr : t.type = .rparen
    · rw [if_pos hr] at h
      rw [opStep_rparen hr]
      split_ifs at h with hd
      obtain rfl : d - 1 = e := Option.some.inj h
      push_cast
      omega
    · rw [if_neg hr] at h
      obtain rfl : d = e := Option.some.inj h
      rw [opStep_other hl hr]
      split_ifs <;> simp

theorem foldr_opStep_musk (h : depth isLparen isRparen d l = some e) :
    (l.foldr opStep s0).musk = s0.musk + d - e := by
  induction l generalizing d with
  | nil =>
    obtain rfl : d = e := Option.some.inj h
    simp
  | cons t l ih =>
    obtain ⟨d', hd', hl⟩ := Option.bind_eq_some_iff.mp h
    rw [List.foldr_cons, opStep_musk hd', ih hl]
    omega

theorem Bal.musk (h : Bal l) : (opScan l).musk = 0 := by
  simpa [opScan] using foldr_opStep_musk h

theorem map_add_length (o : Option Nat) (t : Token) (l : List Token) :
    (o.map (· + l.length)).map (· + 1) = o.map (· + (t :: l).length) := by
  rw [Option.map_map]
  rfl

theorem opStep_masked (hm : s0.musk ≠ 0) :
    (opStep t s0).level = s0.level ∧ (opStep t s0).mainOp = s0.mainOp.map (· + 1) := by
  by_cases hl : t.type = .lparen
  · simp [opStep_lparen hl]
  · by_cases hr : t.type = .rparen
    · simp [opStep_rparen hr]
    · simp [opStep_other hl hr, hm]

theorem foldr_opStep_nested (hm : 1 ≤ s0.musk) (h : depth isLparen isRparen d l = some 0) :
    l.foldr opStep s0 = ⟨s0.musk + d, s0.level, s0.mainOp.map (· + l.length)⟩ := by
  induction l generalizing d with
  | nil =>
    obtain rfl : d = 0 := Option.some.inj h
    cases s0
    simp
  | cons t l ih =>
    obtain ⟨d', hd', hl⟩ := Option.bind_eq_some_iff.mp h
    have hmusk : ((t :: l).foldr opStep s0).musk = _ := foldr_opStep_musk h
    have hne : (l.foldr opStep s0).musk ≠ 0 := by
      rw [ih hl]
      simp only
      omega
    obtain ⟨hlevel, hop⟩ := opStep_masked (t := t) hne
    rw [ih hl] at hlevel hop
    rw [map_add_length] at hop
    rw [List.foldr_cons] at hmusk ⊢
    rw [ih hl] at hmusk ⊢
    exact OpScan.ext (by simpa using hmusk) hlevel hop

theorem opScan_wrap (hl : lp.type = .lparen) (hr : rp.type = .rparen) (h : Bal ts) :
    opScan (lp :: (ts ++ [rp])) = ⟨0, 0, none⟩ := by
  have hfold : (ts ++ [rp]).foldr opStep ⟨0, 0, none⟩ = ⟨1, 0, none⟩ := by
    rw [List.foldr_append, List.foldr_cons, opStep_rparen hr]
    exact foldr_opStep_nested le_rfl h
  rw [opScan_cons, opScan, hfold, opStep_lparen hl]
  rfl

/-- What is scanned later counts only where it binds weaker. -/
theorem foldr_opStep_merge (hm : s0.musk = 0) :
    l.foldr opStep s0 = ⟨(opScan l).musk, max (opScan l).level s0.level,
      if s0.level < (opScan l).level then (opScan l).mainOp else s0.mainOp.map (· + l.length)⟩ := by
  induction l with
  | nil =>
    cases s0
    simp_all [opScan]
  | cons t l ih =>
    rw [List.foldr_cons, ih, opScan_cons]
    have hlen := map_add_length s0.mainOp t l
    by_cases hlp : t.type = .lparen
    · rw [opStep_lparen hlp, opStep_lparen hlp]
      by_cases hlt : s0.level < (opScan l).level <;> simp [hlt, hlen]
    · by_cases hrp : t.type = .rparen
      · rw [opStep_rparen hrp, opStep_rparen hrp]
        by_cases hlt : s0.level < (opScan l).level <;> simp [hlt, hlen]
      · rw [opStep_other hlp hrp, opStep_other hlp hrp]
        -- an operator outside parentheses has to bind weaker than all seen before, also in `s0`
        by_cases hmusk : (opScan l).musk = 0
        · by_cases hlt : s0.level < (opScan l).level
          · have hmax : max (opScan l).level s0.level = (opScan l).level := max_eq_left hlt.le
            by_cases ht : opHirc t.type > (opScan l).level
            · simp [hmusk, hmax, ht, hlt.trans ht, (hlt.trans ht).le]
            · simp [hmusk, hmax, ht, hlt]
          · have hmax : max (opScan l).level s0.level = s0.level := max_eq_right (not_lt.mp hlt)
            by_cases ht : opHirc t.type > s0.level
            · have htl : opHirc t.type > (opScan l).level := by omega
              simp [hmusk, hmax, ht, ht.le, htl]
            · by_cases htl : opHirc t.type > (opScan l).level
              · simp [hmusk, hmax, ht, htl, hlt, hlen, not_lt.mp ht]
              · simp [hmusk, hmax, ht, htl, hlt, hlen]
        · by_cases hlt : s0.level < (opScan l).level <;> simp [hlt, hlen, hmusk]

theorem opScan_append (hr : (opScan r).musk = 0) :
    opScan (l ++ r) = ⟨(opScan l).musk, max (opScan l).level (opScan r).level,
      if (opScan r).level < (opScan l).level then (opScan l).mainOp
      else (opScan r).mainOp.map (· + l.length)⟩ := by
  rw [opScan, List.foldr_append]
  exact foldr_opStep_merge hr

theorem opHirc_not_paren (h : 0 < opHirc t.type) : t.type ≠ .lparen ∧ t.type ≠ .rparen := by
  constructor <;> intro ht <;> simp [ht, opHirc] at h

theorem opScan_op (hr : (opScan r).level < opHirc t.type) (hm : (opScan r).musk = 0) :
    opScan (t :: r) = ⟨0, opHirc t.type, some 0⟩ := by
  obtain ⟨hlp, hrp⟩ := opHirc_not_paren (t := t) (by omega)
  rw [opScan_cons, opStep_other hlp hrp, if_pos ⟨hr, hm⟩, hm]

/-- The main operator is the last one of the weakest level. -/
theorem findMainOp_split (hl : (opScan l).level ≤ opHirc t.type)
    (hr : (opScan r).level < opHirc t.type) (hm : (opScan r).musk = 0) :
    findMainOp (l ++ t :: r) = some l.length := by
  have hop := opScan_op hr hm
  rw [findMainOp, opScan_append (by rw [hop]), hop]
  simp only [not_lt.mpr hl, if_false, Option.map_some, Nat.zero_add]

theorem findMainOp_spec (h : findMainOp ts = some op) :
    ∃ l t r, ts = l ++ t :: r ∧ l.length = op ∧ opHirc t.type = (opScan ts).level ∧
      (opScan r).level < opHirc t.type ∧ (opScan r).musk = 0 := by
  induction ts generalizing op with
  | nil => cases h
  | cons t ts ih =>
    have hrec : ∀ {i}, findMainOp ts = some i → (opScan (t :: ts)).level = (opScan ts).level →
        op = i + 1 → ∃ l u r, t :: ts = l ++ u :: r ∧ l.length = op ∧
          opHirc u.type = (opScan (t :: ts)).level ∧ (opScan r).level < opHirc u.type ∧
          (opScan r).musk = 0 := by
      rintro i hi hlevel rfl
      obtain ⟨l, u, r, rfl, rfl, hu, hr, hm⟩ := ih hi
      exact ⟨t :: l, u, r, rfl, rfl, hu.trans hlevel.symm, hr, hm⟩
    rw [findMainOp, opScan_cons] at h
    by_cases hlp : t.type = .lparen
    · rw [opStep_lparen hlp] at h
      obtain ⟨i, hi, rfl⟩ := Option.map_eq_some_iff.mp h
      exact hrec hi (by rw [opScan_cons, opStep_lparen hlp]) rfl
    · by_cases hrp : t.type = .rparen
      · rw [opStep_rparen hrp] at h
        obtain ⟨i, hi, rfl⟩ := Option.map_eq_some_iff.mp h
        exact hrec hi (by rw [opScan_cons, opStep_rparen hrp]) rfl
      · rw [opStep_other hlp hrp] at h
        by_cases hc : opHirc t.type > (opScan ts).level ∧ (opScan ts).musk = 0
        · rw [if_pos hc] at h
          obtain rfl : 0 = op := Option.some.inj h
          refine ⟨[], t, ts, rfl, rfl, ?_, hc.1, hc.2⟩
          rw [opScan_cons, opStep_other hlp hrp, if_pos hc]
        · rw [if_neg hc] at h
          obtain ⟨i, hi, rfl⟩ := Option.map_eq_some_iff.mp h
          exact hrec hi (by rw [opScan_cons, opStep_other hlp hrp, if_neg hc]) rfl

/-- The lists on which `eval` can succeed: every operator has a right operand of a stronger level
and a left one that is not weaker, unless it stands first. -/
inductive Accepted : List Token → Prop
  | num {t : Token} (h : t.type = .num) : Accepted [t]
  | paren {lp rp : Token} {ts : List Token} (hl : lp.type = .lparen) (hr : rp.type = .rparen)
    (h : Accepted ts) : Accepted (lp :: (ts ++ [rp]))
  | first {t : Token} {r : List Token} (hr : Accepted r)
    (hlt : (opScan r).level < opHirc t.type) : Accepted (t :: r)
  | op {t : Token} {l r : List Token} (hl : Accepted l) (hr : Accepted r)
    (hle : (opScan l).level ≤ opHirc t.type) (hlt : (opScan r).level < opHirc t.type) :
    Accepted (l ++ t :: r)

theorem Accepted.bal (h : Accepted ts) : Bal ts := by
  induction h with
  | num h => exact bal_single (by simp [h]) (by simp [h])
  | paren hl hr h ih => exact ih.wrap hl hr
  | first hr hlt ih =>
    have hplain := opHirc_not_paren (Nat.zero_lt_of_lt hlt)
    exact ih.cons hplain.1 hplain.2
  | op hl hr hle hlt ihl ihr =>
    have hplain := opHirc_not_paren (Nat.zero_lt_of_lt hlt)
    exact ihl.append (ihr.cons hplain.1 hplain.2)

theorem Accepted.last (h : Accepted ts) :
    ∃ t, ts.getLast? = some t ∧ (t.type = .num ∨ t.type = .rparen) := by
  induction h with
  | num h => exact ⟨_, rfl, Or.inl h⟩
  | @paren lp rp ts hl hr h ih =>
    refine ⟨rp, ?_, Or.inr hr⟩
    rw [← List.cons_append, List.getLast?_append]
    rfl
  | first hr hlt ih =>
    obtain ⟨t, ht, hlast⟩ := ih
    exact ⟨t, by rw [List.getLast?_cons, ht]; rfl, hlast⟩
  | op hl hr hle hlt ihl ihr =>
    obtain ⟨t, ht, hlast⟩ := ihr
    refine ⟨t, ?_, hlast⟩
    rw [List.getLast?_append, List.getLast?_cons, ht]
    rfl

theorem Accepted.ne_nil (h : Accepted ts) : ts ≠ [] := by
  obtain ⟨t, ht, -⟩ := h.last
  rintro rfl
  cases ht

end Expr

end Npc
