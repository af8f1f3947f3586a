import Npc.ExprClean

/-! The operations of an expression, with the operands they come to have. Whether `eval` accepts a
list depends on the types of its entries alone, which are those of the text. So an expression that
was evaluated once fails later on only where one of its operations does. -/

namespace Npc

namespace Expr

structure Operation where
  type : TokType
  val1 : Word
  val2 : Word
  deriving DecidableEq, Repr

namespace Operation

variable (pmemRead : Word → Option Word)

def value (o : Operation) : Word := (walkOp pmemRead o.type o.val1 o.val2 true).value

/-- A divisor other than 0 and a quotient that fits; an address that can be read. -/
def Fine (o : Operation) : Prop :=
  match o.type with
  | .slash => o.val2 ≠ 0#32 ∧ ¬ (o.val1 = BitVec.intMin 32 ∧ o.val2 = -1#32)
  | .deref => pmemRead o.val2 ≠ none
  | _ => True

end Operation

/-- The value of the tokens and the operations that lead to it, in their order. -/
inductive Computes (atoi : List Char → Word) (pmemRead : Word → Option Word) :
    List Token → Word → List Operation → Prop
  | num {t : Token} (h : t.type = .num) : Computes atoi pmemRead [t] (atoi t.str) []
  | paren {lp rp : Token} {ts : List Token} {v : Word} {ops : List Operation}
    (hl : lp.type = .lparen) (hr : rp.type = .rparen) (h : Computes atoi pmemRead ts v ops) :
    Computes atoi pmemRead (lp :: (ts ++ [rp])) v ops
  | first {t : Token} {r : List Token} {v : Word} {ops : List Operation}
    (hr : Computes atoi pmemRead r v ops) (hlt : (opScan r).level < opHirc t.type) :
    Computes atoi pmemRead (t :: r) (Operation.value pmemRead ⟨t.type, 0#32, v⟩)
      (ops ++ [⟨t.type, 0#32, v⟩])
  | op {t : Token} {l r : List Token} {v₁ v₂ : Word} {ops₁ ops₂ : List Operation}
    (hl : Computes atoi pmemRead l v₁ ops₁) (hr : Computes atoi pmemRead r v₂ ops₂)
    (hle : (opScan l).level ≤ opHirc t.type) (hlt : (opScan r).level < opHirc t.type) :
    Computes atoi pmemRead (l ++ t :: r) (Operation.value pmemRead ⟨t.type, v₁, v₂⟩)
      (ops₁ ++ ops₂ ++ [⟨t.type, v₁, v₂⟩])

variable {atoi : List Char → Word} {pmemRead : Word → Option Word} {ts ts' l r : List Token}
  {t : Token} {type : TokType} {v w val1 val2 : Word} {ops : List Operation} {s : Bool}
  {prev : Option TokType}

theorem Computes.accepted (h : Computes atoi pmemRead ts v ops) : Accepted ts := by
  induction h with
  | num h => exact .num h
  | paren hl hr h ih => exact .paren hl hr ih
  | first hr hlt ih => exact .first ih hlt
  | op hl hr hle hlt ihl ihr => exact .op ihl ihr hle hlt

theorem Accepted.computes (h : Accepted ts) (atoi : List Char → Word) (pmemRead : Word → Option Word) :
    ∃ v ops, Computes atoi pmemRead ts v ops := by
  induction h with
  | num h => exact ⟨_, _, .num h⟩
  | paren hl hr h ih =>
    obtain ⟨v, ops, ih⟩ := ih
    exact ⟨v, ops, .paren hl hr ih⟩
  | first hr hlt ih =>
    obtain ⟨v, ops, ih⟩ := ih
    exact ⟨_, _, .first ih hlt⟩
  | op hl hr hle hlt ihl ihr =>
    obtain ⟨v₁, ops₁, ihl⟩ := ihl
    obtain ⟨v₂, ops₂, ihr⟩ := ihr
    exact ⟨_, _, .op ihl ihr hle hlt⟩

section Eval

theorem applyOp_ok_iff (ht : 0 < opHirc type) :
    applyOp pmemRead type val1 val2 s = .ok (v, true) ↔
      s = true ∧ v = Operation.value pmemRead ⟨type, val1, val2⟩ ∧
        Operation.Fine pmemRead ⟨type, val1, val2⟩ := by
  cases type with
  | slash =>
    by_cases hz : val2 = 0#32
    · simp [applyOp, Operation.Fine, hz]
    · by_cases ho : val1 = BitVec.intMin 32 ∧ val2 = -1#32
      · simp only [applyOp, if_neg hz, if_pos ho, Operation.Fine]
        simp [ho]
      · simp only [applyOp, if_neg hz, if_neg ho, Operation.Fine, Operation.value, walkOp]
        rw [Except.ok.injEq, Prod.mk.injEq, eq_comm]
        exact ⟨fun h => ⟨h.2, h.1, hz, ho⟩, fun h => ⟨h.2.1, h.1⟩⟩
  | deref =>
    cases hm : pmemRead val2 with
    | none => simp [applyOp, Operation.Fine, hm]
    | some u =>
      simp only [applyOp, Operation.Fine, Operation.value, walkOp, hm, Option.getD_some]
      rw [Except.ok.injEq, Prod.mk.injEq, eq_comm]
      exact ⟨fun h => ⟨h.2, h.1, Option.some_ne_none u⟩, fun h => ⟨h.2.1, h.1⟩⟩
  | num | lparen | rparen => cases ht
  | _ =>
    simp only [applyOp, Operation.Fine, Operation.value, walkOp]
    rw [Except.ok.injEq, Prod.mk.injEq, eq_comm]
    exact ⟨fun h => ⟨h.2, h.1, trivial⟩, fun h => ⟨h.2.1, h.1⟩⟩

theorem Computes.eval_iff (h : Computes atoi pmemRead ts v ops) :
    eval atoi pmemRead ts true = .ok (w, true) ↔ w = v ∧ ∀ o ∈ ops, o.Fine pmemRead := by
  induction h generalizing w with
  | num h => simp [eval_single, h, eq_comm]
  | @paren lp rp ts v ops hl hr h ih =>
    have hcheck : checkParentheses (lp :: (ts ++ [rp])) true = (true, true) :=
      checkParentheses_wrap hl hr h.accepted.bal
    rw [eval_paren (by simp) hcheck, ← ih]
    simp
  | first hr hlt ih =>
    rw [eval_first hr.accepted hlt, if_pos rfl, bind_eq_ok_iff, List.forall_mem_append, List.forall_mem_singleton]
    constructor
    · rintro ⟨⟨a, b⟩, ha, happ⟩
      obtain ⟨rfl, hw, hfine⟩ := (applyOp_ok_iff (Nat.zero_lt_of_lt hlt)).mp happ
      obtain ⟨rfl, hops⟩ := ih.mp ha
      exact ⟨hw, hops, hfine⟩
    · rintro ⟨hw, hops, hfine⟩
      exact ⟨_, ih.mpr ⟨rfl, hops⟩, (applyOp_ok_iff (Nat.zero_lt_of_lt hlt)).mpr ⟨rfl, hw, hfine⟩⟩
  | @op t l r v₁ v₂ ops₁ ops₂ hl hr hle hlt ihl ihr =>
    rw [eval_binary hl.accepted hr.accepted hle hlt, if_pos rfl, bind_eq_ok_iff, List.forall_mem_append,
      List.forall_mem_append, List.forall_mem_singleton]
    constructor
    · rintro ⟨⟨a, b⟩, ha, hrest⟩
      obtain ⟨⟨a', b'⟩, ha', happ⟩ := bind_eq_ok hrest
      obtain ⟨rfl, hw, hfine⟩ := (applyOp_ok_iff (Nat.zero_lt_of_lt hlt)).mp happ
      -- the flag is passed on, so the left operand has succeeded as well
      obtain rfl : b = true := (eval_accepted ha').1
      obtain ⟨rfl, hops₁⟩ := ihl.mp ha
      obtain ⟨rfl, hops₂⟩ := ihr.mp ha'
      exact ⟨hw, ⟨hops₁, hops₂⟩, hfine⟩
    · rintro ⟨hw, ⟨hops₁, hops₂⟩, hfine⟩
      refine ⟨_, ihl.mpr ⟨rfl, hops₁⟩, bind_eq_ok_iff.mpr ⟨_, ihr.mpr ⟨rfl, hops₂⟩, ?_⟩⟩
      exact (applyOp_ok_iff (Nat.zero_lt_of_lt hlt)).mpr ⟨rfl, hw, hfine⟩

end Eval

section Types

variable (cpu cpu' : CpuState) (stale stale' : Nat → List Char)

theorem opScan_congr (h : ts'.map Token.type = ts.map Token.type) : opScan ts' = opScan ts := by
  induction ts generalizing ts' with
  | nil => rw [List.map_eq_nil_iff.mp h]
  | cons t ts ih =>
    obtain ⟨t', us, rfl, ht, hus⟩ := List.map_eq_cons_iff.mp h
    rw [opScan_cons, opScan_cons, ih hus, opStep, opStep, ht]

theorem Accepted.congr (h : Accepted ts) (hts : ts'.map Token.type = ts.map Token.type) :
    Accepted ts' := by
  induction h generalizing ts' with
  | num h =>
    obtain ⟨t', us, rfl, ht, hus⟩ := List.map_eq_cons_iff.mp hts
    rw [List.map_eq_nil_iff.mp hus]
    exact .num (ht.trans h)
  | paren hl hr h ih =>
    rw [List.map_cons, List.map_append] at hts
    obtain ⟨lp, us, rfl, hlp, hus⟩ := List.map_eq_cons_iff.mp hts
    obtain ⟨us, rs, rfl, hin, hrs⟩ := List.map_eq_append_iff.mp hus
    obtain ⟨rp, rs, rfl, hrp, hnil⟩ := List.map_eq_cons_iff.mp hrs
    rw [List.map_eq_nil_iff.mp hnil]
    exact .paren (hlp.trans hl) (hrp.trans hr) (ih hin)
  | first hr hlt ih =>
    obtain ⟨t', us, rfl, ht, hus⟩ := List.map_eq_cons_iff.mp hts
    exact .first (ih hus) (by rwa [opScan_congr hus, ht])
  | op hl hr hle hlt ihl ihr =>
    rw [List.map_append, List.map_cons] at hts
    obtain ⟨ls, us, rfl, hls, hus⟩ := List.map_eq_append_iff.mp hts
    obtain ⟨t', rs, rfl, ht, hrs⟩ := List.map_eq_cons_iff.mp hus
    exact .op (ihl hls) (ihr hrs) (by rwa [opScan_congr hls, ht]) (by rwa [opScan_congr hrs, ht])

theorem prepass_congr (h : ts'.map Token.type = ts.map Token.type) :
    (prepass prev ts').map Token.type = (prepass prev ts).map Token.type := by
  induction ts generalizing ts' prev with
  | nil => rw [List.map_eq_nil_iff.mp h]
  | cons t ts ih =>
    obtain ⟨t', us, rfl, ht, hus⟩ := List.map_eq_cons_iff.mp h
    rw [prepass, prepass, List.map_cons, List.map_cons, ht, ih hus]

theorem recordToken_types (rule : RuleType) (old old' substr : List Char) :
    (recordToken cpu old substr rule).map (List.map Token.type) =
      (recordToken cpu' old' substr rule).map (List.map Token.type) := by
  cases rule with
  | reg =>
    cases hv : regStr2val cpu substr.tail with
    | none =>
      have hv' : regStr2val cpu' substr.tail = none := regStr2val_eq_none.mpr (regStr2val_eq_none.mp hv)
      simp [recordToken, hv, hv']
    | some x =>
      have hv' : regStr2val cpu' substr.tail ≠ none := fun hn =>
        absurd (hv.symm.trans (regStr2val_eq_none.mpr (regStr2val_eq_none.mp hn))) (Option.some_ne_none x)
      obtain ⟨y, hy⟩ := Option.ne_none_iff_exists'.mp hv'
      simp [recordToken, hv, hy]
  | _ => rfl

theorem types_append (x : Except Fault (Option (List Token))) (toks : List Token) :
    (x.map (·.map (toks ++ ·))).map (·.map (List.map Token.type)) =
      (x.map (·.map (List.map Token.type))).map (·.map (toks.map Token.type ++ ·)) := by
  cases x with
  | error f => rfl
  | ok r => cases r <;> simp [Except.map]

/-- The types of the tokens, and whether there are any, do not depend on the machine. -/
theorem makeTokenFrom_types (n nr : Nat) (e : List Char) :
    (makeTokenFrom cpu stale n nr e).map (·.map (List.map Token.type)) =
      (makeTokenFrom cpu' stale' n nr e).map (·.map (List.map Token.type)) := by
  induction n generalizing nr e with
  | zero => cases e <;> rfl
  | succ n ih =>
    cases e with
    | nil => rfl
    | cons c e =>
      simp only [makeTokenFrom]
      cases matchRules (c :: e) with
      | none => rfl
      | some m =>
        obtain ⟨rule, len⟩ := m
        by_cases hlen : len > 31
        · simp [hlen]
        · have hrec := recordToken_types cpu cpu' rule (stale nr) (stale' nr) ((c :: e).take len)
          simp only [hlen, if_false]
          cases h : recordToken cpu (stale nr) ((c :: e).take len) rule with
          | none =>
            rw [h, Option.map_none, eq_comm, Option.map_eq_none_iff] at hrec
            rw [hrec]
          | some toks =>
            rw [h, Option.map_some, eq_comm, Option.map_eq_some_iff] at hrec
            obtain ⟨toks', h', htypes⟩ := hrec
            have hl : toks'.length = toks.length := by simpa using congrArg List.length htypes
            have hnil : toks' = [] ↔ toks = [] := by
              rw [← List.length_eq_zero_iff, ← List.length_eq_zero_iff, hl]
            simp only [h', hl, ne_eq, hnil]
            by_cases hmax : ¬ toks = [] ∧ nr ≥ maxTokens
            · simp only [if_pos hmax]
            · rw [if_neg hmax, if_neg hmax, types_append, types_append, htypes, ih]

variable {cpu stale} in
theorem makeToken_types {e : List Char} (h : makeToken cpu stale e = .ok (some ts)) :
    ∃ ts', makeToken cpu' stale' e = .ok (some ts') ∧ ts'.map Token.type = ts.map Token.type := by
  have htypes := makeTokenFrom_types cpu cpu' stale stale' e.length 0 e
  rw [makeToken] at h ⊢
  rw [h] at htypes
  cases h' : makeTokenFrom cpu' stale' e.length 0 e with
  | error f => simp [h', Except.map] at htypes
  | ok r =>
    cases r with
    | none => simp [h', Except.map] at htypes
    | some ts' =>
      rw [h'] at htypes
      exact ⟨ts', rfl, (Option.some.inj (Except.ok.inj htypes)).symm⟩

end Types

end Expr

end Npc
