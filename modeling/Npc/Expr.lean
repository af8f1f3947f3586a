import Npc.MakeToken
import Npc.Brackets

/-! `expr` of `monitor/sdb/expr.c`. `eval(p, q, success)` is known by the tokens from `p` to `q`,
so an operator found at `i` splits them into the first `i - p` and those behind it. The flag
`*success` is passed on through every call. -/

namespace Npc

namespace Expr

structure ParenScan where
  cnt : Int
  flag : Bool
  success : Bool

def parenStep (s : ParenScan) (t : Token) : ParenScan :=
  let cnt := if t.type = .lparen then s.cnt + 1 else if t.type = .rparen then s.cnt - 1 else s.cnt
  if cnt = -1 then ⟨cnt, true, s.success⟩
  else if cnt < -1 then ⟨cnt, s.flag, false⟩
  else ⟨cnt, s.flag, s.success⟩

/-- `check_parentheses`: its result, and `*success` afterwards. -/
def checkParentheses (ts : List Token) (success : Bool) : Bool × Bool :=
  if ts.head?.map Token.type ≠ some .lparen ∨ ts.getLast?.map Token.type ≠ some .rparen then
    (false, success)
  else
    let s := ts.tail.dropLast.foldl parenStep ⟨0, false, success⟩
    (!s.flag, if s.cnt ≠ 0 then false else s.success)

def isOperator (type : TokType) : Bool :=
  match type with
  | .minus | .plus | .star | .slash | .eq | .neq | .and => true
  | _ => false

def opHirc (type : TokType) : Nat :=
  match type with
  | .inv | .deref => 1
  | .star | .slash => 2
  | .plus | .minus => 3
  | .eq | .neq => 4
  | .and => 5
  | _ => 0

@[ext]
structure OpScan where
  musk : Int
  level : Nat
  mainOp : Option Nat

/-- The loop body of `find_main_op`, which runs from the last token to the first. The position is
counted from the token at hand. -/
def opStep (t : Token) (s : OpScan) : OpScan :=
  let mainOp := s.mainOp.map (· + 1)
  match t.type with
  | .rparen => ⟨s.musk + 1, s.level, mainOp⟩
  | .lparen => ⟨s.musk - 1, s.level, mainOp⟩
  | type =>
    if opHirc type > s.level ∧ s.musk = 0 then ⟨s.musk, opHirc type, some 0⟩
    else ⟨s.musk, s.level, mainOp⟩

def opScan (ts : List Token) : OpScan := ts.foldr opStep ⟨0, 0, none⟩

/-- `find_main_op`; no position stands for -1 and sets `*success` to false. -/
def findMainOp (ts : List Token) : Option Nat := (opScan ts).mainOp

/-- The `switch` over the operator, and `*success` afterwards. -/
def applyOp (pmemRead : Word → Option Word) (type : TokType) (val1 val2 : Word) (success : Bool) :
    Except Fault (Word × Bool) :=
  match type with
  | .plus => .ok (val1 + val2, success)
  | .minus => .ok (val1 - val2, success)
  | .star => .ok (val1 * val2, success)
  | .slash =>
    if val2 = 0#32 then .ok (1#32, false)
    else if val1 = BitVec.intMin 32 ∧ val2 = -1#32 then .error .divide
    else .ok (val1.sdiv val2, success)
  | .eq => .ok (if val1 = val2 then 1#32 else 0#32, success)
  | .neq => .ok (if val1 ≠ val2 then 1#32 else 0#32, success)
  | .and => .ok (if val1 ≠ 0#32 ∧ val2 ≠ 0#32 then 1#32 else 0#32, success)
  | .inv => .ok (-val2, success)
  | .deref =>
    match pmemRead val2 with
    | some w => .ok (w, success)
    | none => .error .panic
  | _ => .error .assert

section Eval

variable (atoi : List Char → Word) (pmemRead : Word → Option Word)

/-- The operands on both sides of the main operator, and the operation. An operator at the start
has 0 for its left operand. -/
def evalMain (eval : List Token → Bool → Except Fault (Word × Bool)) (ts : List Token) (op : Nat) :
    Except Fault (Word × Bool) := do
  let val1 ← if op ≠ 0 then eval (ts.take op) true else .ok (0#32, true)
  let val2 ← eval (ts.drop (op + 1)) val1.2
  match ts[op]? with
  | some t => applyOp pmemRead t.type val1.1 val2.1 val2.2
  | none => .error .assert

/-- `eval` with a bound on the depth of its calls, which the number of tokens is. -/
def evalFrom : Nat → List Token → Bool → Except Fault (Word × Bool)
  | 0, _, _ => .error .panic
  | _ + 1, [], _ => .error .panic
  | _ + 1, [t], success => .ok (atoi t.str, if t.type ≠ .num then false else success)
  | n + 1, ts, success =>
    let check := checkParentheses ts success
    if check.1 then evalFrom n ts.tail.dropLast check.2
    else match findMainOp ts, check.2 with
      | none, _ | _, false => .ok (1#32, false)
      | some op, true => evalMain pmemRead (evalFrom n) ts op

def eval (ts : List Token) (success : Bool) : Except Fault (Word × Bool) :=
  evalFrom atoi pmemRead (ts.length + 1) ts success

/-- An operand begins behind an entry of this type, or at the start. -/
def opensOperand (prev : Option TokType) : Bool := prev.all fun t => isOperator t || t = .lparen

/-- The type that the first loop of `expr` leaves in an entry, from the type before it. -/
def retype (prev : Option TokType) (type : TokType) : TokType :=
  if type = .star ∧ opensOperand prev then .deref
  else if type = .minus ∧ opensOperand prev then .inv
  else type

/-- The first loop of `expr`; `prev` is the entry before, as the loop has left it. -/
def prepass : Option TokType → List Token → List Token
  | _, [] => []
  | prev, t :: ts =>
    { t with type := retype prev t.type } :: prepass (some (retype prev t.type)) ts

def exprTokens (ts : List Token) (success : Bool) : Except Fault (Word × Bool) :=
  (eval atoi pmemRead (prepass none ts) success).map fun r =>
    if r.2 then r else (0#32, r.2)

def decimalValue (s : List Char) : Word := BitVec.ofNat 32 (Nat.ofDigitChars 10 s 0)

/-- `expr`: its result and `*success` afterwards. -/
def expr (cpu : CpuState) (stale : Nat → List Char) (e : List Char) (success : Bool) :
    Except Fault (Word × Bool) :=
  match makeToken cpu stale e with
  | .error f => .error f
  | .ok none => .ok (0#32, false)
  | .ok (some ts) => exprTokens atoi pmemRead ts success

end Eval

theorem ok_bind {α β : Type} (a : α) (f : α → Except Fault β) : (Except.ok a >>= f) = f a := rfl

theorem bind_eq_ok_iff {α β : Type} {x : Except Fault α} {f : α → Except Fault β} {b : β} :
    x >>= f = .ok b ↔ ∃ a, x = .ok a ∧ f a = .ok b := by
  cases x with
  | error e =>
    constructor
    · intro h
      cases h
    · rintro ⟨a, h, -⟩
      cases h
  | ok a =>
    refine ⟨fun h => ⟨a, rfl, h⟩, ?_⟩
    rintro ⟨a', ha, h⟩
    obtain rfl := Except.ok.inj ha
    exact h

theorem bind_eq_ok {α β : Type} {x : Except Fault α} {f : α → Except Fault β} {b : β}
    (h : x >>= f = .ok b) : ∃ a, x = .ok a ∧ f a = .ok b := bind_eq_ok_iff.mp h

theorem opScan_cons (t : Token) (ts : List Token) : opScan (t :: ts) = opStep t (opScan ts) := rfl

theorem findMainOp_lt {ts : List Token} {op : Nat} (h : findMainOp ts = some op) :
    op < ts.length := by
  induction ts generalizing op with
  | nil => cases h
  | cons t ts ih =>
    have hstep : (opStep t (opScan ts)).mainOp = some 0 ∨
        (opStep t (opScan ts)).mainOp = (opScan ts).mainOp.map (· + 1) := by
      unfold opStep
      split
      · exact Or.inr rfl
      · exact Or.inr rfl
      · by_cases hc : opHirc t.type > (opScan ts).level ∧ (opScan ts).musk = 0
        · exact Or.inl (by rw [if_pos hc])
        · exact Or.inr (by rw [if_neg hc])
    rw [findMainOp, opScan_cons] at h
    rw [h] at hstep
    rcases hstep with h0 | hrec
    · obtain rfl : op = 0 := by simpa using h0
      simp
    · obtain ⟨i, hi, rfl⟩ := Option.map_eq_some_iff.mp hrec.symm
      have hlt := ih hi
      simp only [List.length_cons]
      omega

section EvalStep

variable {atoi : List Char → Word} {pmemRead : Word → Option Word} {ts : List Token} {t : Token}
  {s s' : Bool} {n op : Nat}

theorem evalMain_congr {f g : List Token → Bool → Except Fault (Word × Bool)}
    (h : ∀ us s, us.length < ts.length → f us s = g us s) (hop : op < ts.length) :
    evalMain pmemRead f ts op = evalMain pmemRead g ts op := by
  have htake : (ts.take op).length < ts.length := by
    rw [List.length_take]
    omega
  have hdrop : (ts.drop (op + 1)).length < ts.length := by
    rw [List.length_drop]
    omega
  simp only [evalMain, h _ _ htake, h _ _ hdrop]

theorem evalMain_split (f : List Token → Bool → Except Fault (Word × Bool)) (l r : List Token) :
    evalMain pmemRead f (l ++ t :: r) l.length =
      (if l ≠ [] then f l true else .ok (0#32, true)) >>= fun v₁ => f r v₁.2 >>= fun v₂ =>
        applyOp pmemRead t.type v₁.1 v₂.1 v₂.2 := by
  by_cases hl : l = []
  · subst hl
    rfl
  · simp [evalMain, hl]

theorem evalFrom_stable (h : ts.length < n) :
    evalFrom atoi pmemRead n ts s = eval atoi pmemRead ts s := by
  induction n using Nat.strongRecOn generalizing ts s with
  | ind n ih =>
    obtain ⟨m, rfl⟩ : ∃ m, n = m + 1 := ⟨n - 1, by omega⟩
    match ts with
    | [] => rfl
    | [t] => rfl
    | t :: u :: ts =>
      simp only [List.length_cons] at h
      have hrec : ∀ us s, us.length < (t :: u :: ts).length →
          evalFrom atoi pmemRead m us s =
            evalFrom atoi pmemRead (t :: u :: ts).length us s := by
        intro us s hus
        simp only [List.length_cons] at hus ⊢
        rw [ih m (by omega) (by omega)]
        by_cases heq : ts.length + 1 + 1 = m
        · rw [heq, ih m (by omega) (by omega)]
        · exact (ih _ (by omega) hus).symm
      have hinner : (t :: u :: ts).tail.dropLast.length < (t :: u :: ts).length := by
        simp only [List.tail_cons, List.length_dropLast, List.length_cons]
        omega
      simp only [eval, evalFrom, hrec _ _ hinner]
      cases hop : findMainOp (t :: u :: ts) with
      | none => rfl
      | some op =>
        have hmain : evalMain pmemRead (evalFrom atoi pmemRead m) (t :: u :: ts) op = _ :=
          evalMain_congr hrec (findMainOp_lt hop)
        cases (checkParentheses (t :: u :: ts) s).2 with
        | false => rfl
        | true => simp only [hmain]

theorem eval_nil : eval atoi pmemRead [] s = .error .panic := rfl

theorem eval_single :
    eval atoi pmemRead [t] s = .ok (atoi t.str, if t.type ≠ .num then false else s) := rfl

theorem eval_paren (hlen : 2 ≤ ts.length) (hc : checkParentheses ts s = (true, s')) :
    eval atoi pmemRead ts s = eval atoi pmemRead ts.tail.dropLast s' := by
  match ts with
  | [t] => simp at hlen
  | t :: u :: ts =>
    have hinner : (t :: u :: ts).tail.dropLast.length < (t :: u :: ts).length := by
      simp only [List.tail_cons, List.length_dropLast, List.length_cons]
      omega
    simp only [eval, evalFrom, hc, if_true]
    exact evalFrom_stable hinner

theorem eval_reject (hlen : 2 ≤ ts.length) (hc : checkParentheses ts s = (false, s'))
    (h : s' = false ∨ findMainOp ts = none) : eval atoi pmemRead ts s = .ok (1#32, false) := by
  match ts with
  | [t] => simp at hlen
  | t :: u :: ts =>
    simp only [eval, evalFrom, hc]
    rcases h with rfl | hop
    · cases findMainOp (t :: u :: ts) <;> rfl
    · rw [hop]
      rfl

theorem eval_main (hlen : 2 ≤ ts.length) (hc : checkParentheses ts s = (false, true))
    (hop : findMainOp ts = some op) :
    eval atoi pmemRead ts s = evalMain pmemRead (eval atoi pmemRead) ts op := by
  match ts with
  | [t] => simp at hlen
  | t :: u :: ts =>
    rw [← evalMain_congr (f := evalFrom atoi pmemRead (t :: u :: ts).length)
      (fun us s hus => evalFrom_stable hus) (findMainOp_lt hop)]
    simp only [eval, evalFrom, hc, hop]
    rfl

theorem exprTokens_success {v : Word} (h : exprTokens atoi pmemRead ts s = .ok (v, true)) :
    eval atoi pmemRead (prepass none ts) s = .ok (v, true) := by
  rw [exprTokens] at h
  cases heval : eval atoi pmemRead (prepass none ts) s with
  | error f => simp [heval, Except.map] at h
  | ok r =>
    obtain ⟨w, b⟩ := r
    cases b <;> simp_all [Except.map]

theorem expr_success {cpu : CpuState} {stale : Nat → List Char} {e : List Char} {v : Word}
    (h : expr atoi pmemRead cpu stale e s = .ok (v, true)) :
    ∃ ts, makeToken cpu stale e = .ok (some ts) ∧ exprTokens atoi pmemRead ts s = .ok (v, true) := by
  rw [expr] at h
  cases hmake : makeToken cpu stale e with
  | error f => simp [hmake] at h
  | ok res =>
    cases res with
    | none => simp [hmake] at h
    | some ts =>
      rw [hmake] at h
      exact ⟨ts, rfl, h⟩

end EvalStep

theorem prepass_append (prev : Option TokType) (l r : List Token) :
    prepass prev (l ++ r) =
      prepass prev l ++ prepass (((prepass prev l).getLast?.map Token.type).or prev) r := by
  induction l generalizing prev with
  | nil => rfl
  | cons t l ih =>
    rw [List.cons_append, prepass, ih, prepass, List.cons_append, List.getLast?_cons]
    cases (prepass (some (retype prev t.type)) l).getLast? <;> rfl

theorem retype_of_closed {prev : Option TokType} (h : opensOperand prev = false) (type : TokType) :
    retype prev type = type := by
  simp [retype, h]

theorem retype_minus {prev : Option TokType} (h : opensOperand prev = true) :
    retype prev .minus = .inv := by
  simp [retype, h]

theorem retype_star {prev : Option TokType} (h : opensOperand prev = true) :
    retype prev .star = .deref := by
  simp [retype, h]

theorem retype_num (prev : Option TokType) : retype prev .num = .num := by simp [retype]

theorem retype_lparen (prev : Option TokType) : retype prev .lparen = .lparen := by simp [retype]

theorem retype_rparen (prev : Option TokType) : retype prev .rparen = .rparen := by simp [retype]

theorem prepass_cons (prev : Option TokType) (type : TokType) (s : List Char) (ts : List Token) :
    prepass prev (⟨type, s⟩ :: ts) =
      ⟨retype prev type, s⟩ :: prepass (some (retype prev type)) ts := rfl

end Expr

end Npc
