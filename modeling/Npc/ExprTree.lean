import Npc.ExprScan
import Npc.Lexemes

/-! Expression trees, the token lists they are written as, and their values. Levels are those of
`op_hirc`: 0 for a number or an expression in parentheses, 1 for a unary operator, up to 5. -/

namespace Npc

namespace Expr

inductive BinOp
  | mul | div | add | sub | eq | neq | and
  deriving DecidableEq, Repr

namespace BinOp

def type : BinOp → TokType
  | mul => .star
  | div => .slash
  | add => .plus
  | sub => .minus
  | eq => .eq
  | neq => .neq
  | and => .and

def level (op : BinOp) : Nat := opHirc op.type

/-- Arithmetic modulo `2 ^ 32`, undefined for the divisor 0. -/
def apply (op : BinOp) (a b : Word) : Option Word :=
  match op with
  | mul => some (a * b)
  | div => if b = 0#32 then none else some (a.sdiv b)
  | add => some (a + b)
  | sub => some (a - b)
  | eq => some (if a = b then 1#32 else 0#32)
  | neq => some (if a ≠ b then 1#32 else 0#32)
  | and => some (if a ≠ 0#32 ∧ b ≠ 0#32 then 1#32 else 0#32)

def Overflow (op : BinOp) (a b : Word) : Prop := op = div ∧ a = BitVec.intMin 32 ∧ b = -1#32

instance (op : BinOp) (a b : Word) : Decidable (op.Overflow a b) :=
  inferInstanceAs (Decidable (op = div ∧ a = BitVec.intMin 32 ∧ b = -1#32))

/-- One operation of an evaluation: 1 and failure for the divisor 0, and no result at all for a
quotient that does not fit. -/
def run (op : BinOp) (a b : Word) (success : Bool) : Option (Word × Bool) :=
  if op.Overflow a b then none
  else some ((op.apply a b).getD 1#32, (op.apply a b).isSome && success)

end BinOp

inductive Tree
  | num (w : Word)
  | neg (e : Tree)
  | deref (e : Tree)
  | bin (op : BinOp) (l r : Tree)
  deriving DecidableEq, Repr

namespace Tree

variable (mem : Word → Word)

def value : Tree → Option Word
  | num w => some w
  | neg e => (value e).map (-·)
  | deref e => (value e).map mem
  | bin op l r => (value l).bind fun a => (value r).bind (op.apply a)

def ZeroDivisor : Tree → Prop
  | num _ => False
  | neg e => e.ZeroDivisor
  | deref e => e.ZeroDivisor
  | bin op l r => l.ZeroDivisor ∨ r.ZeroDivisor ∨ (op = .div ∧ r.value mem = some 0#32)

/-- The evaluation with its flag: once it has failed, operations give 1 and do not look at their
operands. No result where it comes to divide `INT_MIN` by -1. -/
def run : Tree → Bool → Option (Word × Bool)
  | num w, success => some (w, success)
  | neg e, true => (run e true).map fun v => (-v.1, v.2)
  | deref e, true => (run e true).map fun v => (mem v.1, v.2)
  | bin op l r, true => (run l true).bind fun v₁ => (run r v₁.2).bind fun v₂ =>
    op.run v₁.1 v₂.1 v₂.2
  | _, false => some (1#32, false)

end Tree

/-- The tokens `ts` are the tree written with operators up to a level outside parentheses. Unary
operators have the types `unMinus` and `unStar`. -/
inductive Written (unMinus unStar : TokType) : Nat → Tree → List Token → Prop
  | num {s : List Char} (h : IsDigits Char.isDigit s) (hlt : Nat.ofDigitChars 10 s 0 < 2 ^ 32) :
    Written unMinus unStar 0 (.num (decimalValue s)) [⟨.num, s⟩]
  | paren {e : Tree} {ts : List Token} {s s' : List Char} (h : Written unMinus unStar 5 e ts) :
    Written unMinus unStar 0 e (⟨.lparen, s⟩ :: (ts ++ [⟨.rparen, s'⟩]))
  | neg {e : Tree} {ts : List Token} {s : List Char} (h : Written unMinus unStar 0 e ts) :
    Written unMinus unStar 1 (.neg e) (⟨unMinus, s⟩ :: ts)
  | deref {e : Tree} {ts : List Token} {s : List Char} (h : Written unMinus unStar 0 e ts) :
    Written unMinus unStar 1 (.deref e) (⟨unStar, s⟩ :: ts)
  | bin {op : BinOp} {l r : Tree} {ls rs : List Token} {s : List Char}
    (hl : Written unMinus unStar op.level l ls) (hr : Written unMinus unStar (op.level - 1) r rs) :
    Written unMinus unStar op.level (.bin op l r) (ls ++ ⟨op.type, s⟩ :: rs)
  | weaken {k : Nat} {e : Tree} {ts : List Token} (h : Written unMinus unStar k e ts) :
    Written unMinus unStar (k + 1) e ts

variable {mem : Word → Word} {atoi : List Char → Word} {e : Tree} {ts : List Token} {k : Nat}
  {s s' : Bool} {v : Word} {op : BinOp}

theorem BinOp.level_pos (op : BinOp) : 2 ≤ op.level := by
  cases op <;> decide

theorem BinOp.level_lt (op : BinOp) {n : Nat} (h : n ≤ op.level - 1) : n < opHirc op.type := by
  have hpos := op.level_pos
  simp only [BinOp.level] at h hpos
  omega

theorem BinOp.isOperator_type (op : BinOp) : isOperator op.type = true := by
  cases op <;> rfl

theorem applyOp_bin (a b : Word) :
    applyOp (fun x => some (mem x)) op.type a b s =
      match op.run a b s with
      | some r => .ok r
      | none => .error .divide := by
  cases op with
  | div =>
    by_cases hz : b = 0#32
    · subst hz
      simp [applyOp, BinOp.type, BinOp.run, BinOp.Overflow, BinOp.apply]
    · by_cases ho : BinOp.Overflow .div a b
      · simp only [applyOp, BinOp.type, if_neg hz, if_pos ho.2, BinOp.run, if_pos ho]
      · have hn : ¬ (a = BitVec.intMin 32 ∧ b = -1#32) := fun h => ho ⟨rfl, h⟩
        simp only [applyOp, BinOp.type, if_neg hz, if_neg hn, BinOp.run, if_neg ho, BinOp.apply,
          Option.getD_some, Option.isSome_some, Bool.true_and]
  | _ => simp [applyOp, BinOp.type, BinOp.run, BinOp.Overflow, BinOp.apply]

theorem Tree.run_false (mem : Word → Word) (e : Tree) : ∃ v, e.run mem false = some (v, false) := by
  cases e <;> exact ⟨_, rfl⟩

theorem Tree.value_eq_none_iff (e : Tree) : e.value mem = none ↔ e.ZeroDivisor mem := by
  induction e with
  | num w => simp [value, ZeroDivisor]
  | neg e ih => simp [value, ZeroDivisor, ih]
  | deref e ih => simp [value, ZeroDivisor, ih]
  | bin op l r ihl ihr =>
    simp only [value, ZeroDivisor, ← ihl, ← ihr]
    cases l.value mem with
    | none => simp
    | some a =>
      cases r.value mem with
      | none => simp
      | some b => cases op <;> simp [BinOp.apply]

theorem Tree.run_value (h : e.run mem true = some (v, s)) :
    e.value mem = if s then some v else none := by
  induction e generalizing v s with
  | num w => simp_all [run, value]
  | neg e ih =>
    obtain ⟨u, hu, heq⟩ := Option.map_eq_some_iff.mp h
    obtain ⟨rfl, rfl⟩ := Prod.mk.inj heq
    rw [value, ih hu]
    cases u.2 <;> rfl
  | deref e ih =>
    obtain ⟨u, hu, heq⟩ := Option.map_eq_some_iff.mp h
    obtain ⟨rfl, rfl⟩ := Prod.mk.inj heq
    rw [value, ih hu]
    cases u.2 <;> rfl
  | bin op l r ihl ihr =>
    obtain ⟨v₁, hl, h⟩ := Option.bind_eq_some_iff.mp h
    obtain ⟨v₂, hr, h⟩ := Option.bind_eq_some_iff.mp h
    obtain ⟨a, sa⟩ := v₁
    obtain ⟨b, sb⟩ := v₂
    have hvalue : v = (op.apply a b).getD 1#32 ∧ s = ((op.apply a b).isSome && sb) := by
      simp only [BinOp.run] at h
      split_ifs at h
      simpa [eq_comm] using h
    obtain ⟨rfl, rfl⟩ := hvalue
    cases sa with
    | false =>
      obtain ⟨w, hw⟩ := r.run_false mem
      have hb : sb = false := by simpa using (congrArg (·.map Prod.snd) (hw.symm.trans hr)).symm
      rw [value, ihl hl, hb]
      simp
    | true =>
      rw [value, ihl hl, ihr hr]
      cases sb with
      | false => simp
      | true => cases hap : op.apply a b <;> simp [hap]

def Tree.Overflow (mem : Word → Word) : Tree → Prop
  | num _ => False
  | neg e => e.Overflow mem
  | deref e => e.Overflow mem
  | bin op l r => l.Overflow mem ∨ r.Overflow mem ∨
    ∃ a b, l.value mem = some a ∧ r.value mem = some b ∧ op.Overflow a b

/-- Without a zero divisor the evaluation stops exactly at a quotient that does not fit. -/
theorem Tree.run_eq_none_iff (h : e.value mem ≠ none) : e.run mem true = none ↔ e.Overflow mem := by
  induction e with
  | num w => simp [run, Overflow]
  | neg e ih =>
    have hv : e.value mem ≠ none := by simpa [value] using h
    simp [run, Overflow, ih hv]
  | deref e ih =>
    have hv : e.value mem ≠ none := by simpa [value] using h
    simp [run, Overflow, ih hv]
  | bin op l r ihl ihr =>
    have hl : l.value mem ≠ none := fun hl => h (by simp [value, hl])
    have hr : r.value mem ≠ none := fun hr => h (by simp [value, hr])
    have htrue : ∀ {e : Tree} {u}, e.value mem ≠ none → e.run mem true = some u →
        u.2 = true ∧ e.value mem = some u.1 := by
      rintro e ⟨v, s⟩ he hu
      cases s with
      | false => exact absurd (run_value hu) he
      | true => exact ⟨rfl, run_value hu⟩
    rw [run, Overflow, ← ihl hl, ← ihr hr]
    cases hlr : l.run mem true with
    | none => simp
    | some u₁ =>
      obtain ⟨hs₁, hv₁⟩ := htrue hl hlr
      rw [Option.bind_some, hs₁]
      cases hrr : r.run mem true with
      | none => simp
      | some u₂ =>
        obtain ⟨hs₂, hv₂⟩ := htrue hr hrr
        simp [hv₁, hv₂, BinOp.run]

section Eval

theorem Written.accepted (h : Written .inv .deref k e ts) :
    Accepted ts ∧ (opScan ts).level ≤ k := by
  induction h with
  | num h hlt => exact ⟨.num rfl, Nat.zero_le _⟩
  | @paren e ts l r h ih =>
    have hscan : (opScan (⟨.lparen, l⟩ :: (ts ++ [⟨.rparen, r⟩]))).level = 0 := by
      rw [opScan_wrap rfl rfl ih.1.bal]
    exact ⟨.paren rfl rfl ih.1, Nat.le_of_eq hscan⟩
  | @neg e ts s h ih =>
    have hscan := opScan_op (t := ⟨.inv, s⟩) (Nat.lt_succ_of_le ih.2) ih.1.bal.musk
    exact ⟨.first ih.1 (Nat.lt_succ_of_le ih.2), by rw [hscan]; rfl⟩
  | @deref e ts s h ih =>
    have hscan := opScan_op (t := ⟨.deref, s⟩) (Nat.lt_succ_of_le ih.2) ih.1.bal.musk
    exact ⟨.first ih.1 (Nat.lt_succ_of_le ih.2), by rw [hscan]; rfl⟩
  | @bin op l r ls rs s hl hr ihl ihr =>
    have hlt := op.level_lt ihr.2
    have hscan := opScan_op (t := ⟨op.type, s⟩) hlt ihr.1.bal.musk
    have hmusk : (opScan (⟨op.type, s⟩ :: rs)).musk = 0 := by rw [hscan]
    refine ⟨.op ihl.1 ihr.1 ihl.2 hlt, ?_⟩
    rw [opScan_append hmusk, hscan]
    exact max_le ihl.2 le_rfl
  | weaken h ih => exact ⟨ih.1, ih.2.trans (Nat.le_succ _)⟩

/-- An operator that stands first has 0 for its left operand. -/
theorem eval_first {t : Token} {pmemRead : Word → Option Word} (h : Accepted ts)
    (hlt : (opScan ts).level < opHirc t.type) :
    eval atoi pmemRead (t :: ts) s =
      if s then eval atoi pmemRead ts true >>= fun v => applyOp pmemRead t.type 0#32 v.1 v.2
      else .ok (1#32, false) := by
  have hlen : 2 ≤ (t :: ts).length := by
    have hpos := List.length_pos_of_ne_nil h.ne_nil
    simp only [List.length_cons]
    omega
  have hplain := opHirc_not_paren (Nat.zero_lt_of_lt hlt)
  have hop : findMainOp ([] ++ t :: ts) = some 0 :=
    findMainOp_split (Nat.zero_le _) hlt h.bal.musk
  cases s with
  | false => exact eval_reject hlen (checkParentheses_head hplain.1) (Or.inl rfl)
  | true =>
    rw [eval_main hlen (checkParentheses_head hplain.1) hop]
    exact evalMain_split _ [] ts

theorem eval_binary {t : Token} {ls rs : List Token} {pmemRead : Word → Option Word}
    (hl : Accepted ls) (hr : Accepted rs) (hle : (opScan ls).level ≤ opHirc t.type)
    (hlt : (opScan rs).level < opHirc t.type) :
    eval atoi pmemRead (ls ++ t :: rs) s =
      if s then eval atoi pmemRead ls true >>= fun v₁ => eval atoi pmemRead rs v₁.2 >>= fun v₂ =>
        applyOp pmemRead t.type v₁.1 v₂.1 v₂.2
      else .ok (1#32, false) := by
  have hpos := List.length_pos_of_ne_nil hl.ne_nil
  have hlen : 2 ≤ (ls ++ t :: rs).length := by
    simp only [List.length_append, List.length_cons]
    omega
  have hplain := opHirc_not_paren (t := t) (by omega)
  have hcheck : checkParentheses (ls ++ t :: rs) s = (false, s) :=
    checkParentheses_append hl.bal (hr.bal.cons hplain.1 hplain.2) hl.ne_nil (List.cons_ne_nil _ _)
  cases s with
  | false => exact eval_reject hlen hcheck (Or.inl rfl)
  | true =>
    rw [eval_main hlen hcheck (findMainOp_split hle hlt hr.bal.musk), evalMain_split,
      if_pos hl.ne_nil]
    rfl

theorem eval_written (hatoi : ∀ s, IsDigits Char.isDigit s → Nat.ofDigitChars 10 s 0 < 2 ^ 32 →
      atoi s = decimalValue s) (h : Written .inv .deref k e ts) :
    eval atoi (fun a => some (mem a)) ts s =
      match e.run mem s with
      | some r => .ok r
      | none => .error .divide := by
  induction h generalizing s with
  | num h hlt =>
    rw [eval_single, hatoi _ h hlt]
    rfl
  | @paren e ts l r h ih =>
    have hcheck : checkParentheses (⟨.lparen, l⟩ :: (ts ++ [⟨.rparen, r⟩])) s = (true, s) :=
      checkParentheses_wrap rfl rfl h.accepted.1.bal
    rw [eval_paren (by simp) hcheck, ← ih]
    simp
  | @neg e ts st h ih =>
    rw [eval_first (t := ⟨.inv, st⟩) h.accepted.1 (Nat.lt_succ_of_le h.accepted.2), ih]
    cases s with
    | false => rfl
    | true =>
      simp only [if_true, Tree.run]
      cases e.run mem true <;> rfl
  | @deref e ts st h ih =>
    rw [eval_first (t := ⟨.deref, st⟩) h.accepted.1 (Nat.lt_succ_of_le h.accepted.2), ih]
    cases s with
    | false => rfl
    | true =>
      simp only [if_true, Tree.run]
      cases e.run mem true <;> rfl
  | @bin op l r ls rs st hl hr ihl ihr =>
    rw [eval_binary (t := ⟨op.type, st⟩) hl.accepted.1 hr.accepted.1 hl.accepted.2
      (op.level_lt hr.accepted.2)]
    cases s with
    | false => rfl
    | true =>
      simp only [if_true, Tree.run, ihl]
      cases hvl : l.run mem true with
      | none => rfl
      | some v₁ =>
        cases hvr : r.run mem v₁.2 with
        | none =>
          simp only [ok_bind, ihr, Option.bind_some, hvr]
          rfl
        | some v₂ => simp only [ok_bind, ihr, hvr, applyOp_bin, Option.bind_some]
  | weaken h ih => exact ih

end Eval

theorem Written.prepass {prev : Option TokType} (h : Written .minus .star k e ts)
    (hprev : k = 0 ∨ opensOperand prev = true) :
    Written .inv .deref k e (prepass prev ts) := by
  induction h generalizing prev with
  | num h hlt =>
    rw [prepass_cons, retype_num]
    exact .num h hlt
  | paren h ih =>
    rw [prepass_cons, retype_lparen, prepass_append, prepass_cons, retype_rparen]
    exact .paren (ih (Or.inr rfl))
  | neg h ih =>
    have hopen := hprev.resolve_left nofun
    rw [prepass_cons, retype_minus hopen]
    exact .neg (ih (Or.inl rfl))
  | deref h ih =>
    have hopen := hprev.resolve_left nofun
    rw [prepass_cons, retype_star hopen]
    exact .deref (ih (Or.inl rfl))
  | @bin op l r ls rs s hl hr ihl ihr =>
    have hleft := ihl hprev
    obtain ⟨t, ht, htype⟩ := hleft.accepted.1.last
    have hclosed : opensOperand (some t.type) = false := by
      rcases htype with h | h <;> rw [h] <;> rfl
    have hopen : opensOperand (some op.type) = true := by
      simp [opensOperand, op.isOperator_type]
    rw [prepass_append, ht, Option.map_some, Option.some_or, prepass_cons,
      retype_of_closed hclosed]
    exact .bin hleft (ihr (Or.inr hopen))
  | weaken h ih => exact .weaken (ih (Or.inr (hprev.resolve_left nofun)))

/-- On the tokens of a tree `expr` returns the tree's value, and fails if it divides by zero, just when
the evaluation, with 1 for what has failed, comes to no quotient that does not fit. Without a zero
divisor these are the quotients in the tree. -/
theorem expr_correct (mem : Word → Word) (atoi : List Char → Word)
    (hatoi : ∀ s, IsDigits Char.isDigit s → Nat.ofDigitChars 10 s 0 < 2 ^ 32 →
      atoi s = decimalValue s)
    (e : Tree) (ts : List Token) (h : Written .minus .star 5 e ts) :
    (exprTokens atoi (fun a => some (mem a)) ts true =
        .ok ((e.value mem).getD 0#32, (e.value mem).isSome) ↔ e.run mem true ≠ none) ∧
      (e.value mem = none ↔ e.ZeroDivisor mem) ∧
      (¬ e.ZeroDivisor mem → (e.run mem true = none ↔ e.Overflow mem)) := by
  refine ⟨?_, e.value_eq_none_iff, ?_⟩
  · rw [exprTokens, eval_written hatoi (h.prepass (Or.inr rfl))]
    cases hv : e.run mem true with
    | none =>
      refine iff_of_false (fun hok => ?_) fun hn => hn rfl
      cases hok
    | some r =>
      obtain ⟨v, s⟩ := r
      refine iff_of_true ?_ (Option.some_ne_none _)
      rw [Tree.run_value hv]
      cases s <;> rfl
  · intro hz
    exact Tree.run_eq_none_iff fun hn => hz (e.value_eq_none_iff.mp hn)

theorem written_digit (c : Char) (h : c.isDigit = true) (hlt : Nat.ofDigitChars 10 [c] 0 < 2 ^ 32) :
    Written .minus .star 1 (.num (decimalValue [c])) [⟨.num, [c]⟩] :=
  .weaken (.num ⟨List.cons_ne_nil _ _, by simpa using h⟩ hlt)

/-- `*(1-2-3)` -/
theorem expr_correct_deref :
    exprTokens decimalValue (fun a => some (a + 5#32))
      [⟨.star, []⟩, ⟨.lparen, []⟩, ⟨.num, ['1']⟩, ⟨.minus, []⟩, ⟨.num, ['2']⟩, ⟨.minus, []⟩,
        ⟨.num, ['3']⟩, ⟨.rparen, []⟩] true = .ok (1#32, true) := by
  have hsub := @Written.bin .minus .star .sub _ _ _ _ [] (.weaken (.weaken (written_digit '1' rfl (by decide))))
    (.weaken (written_digit '2' rfl (by decide)))
  have hsub' := @Written.bin .minus .star .sub _ _ _ _ [] hsub (.weaken (written_digit '3' rfl (by decide)))
  have hparen := @Written.paren .minus .star _ _ [] [] (.weaken (.weaken hsub'))
  have hderef := Written.deref (s := []) hparen
  have hall := Written.weaken (.weaken (.weaken (.weaken hderef)))
  have h := expr_correct (fun a => a + 5#32) decimalValue (fun s _ _ => rfl) _ _ hall
  exact (h.1.mpr (by decide)).trans (by decide)

def intMinDigits : List Char := ['2', '1', '4', '7', '4', '8', '3', '6', '4', '8']

/-- `2147483648 / -(1 / 0)`: the quotient in the parentheses counts as 1, and no division of the tree has
the values `INT_MIN` and -1. -/
theorem expr_traps :
    let e : Tree := .bin .div (.num (decimalValue intMinDigits))
      (.neg (.bin .div (.num (decimalValue ['1'])) (.num (decimalValue ['0']))))
    let ts : List Token := [⟨.num, intMinDigits⟩, ⟨.slash, []⟩, ⟨.minus, []⟩, ⟨.lparen, []⟩,
      ⟨.num, ['1']⟩, ⟨.slash, []⟩, ⟨.num, ['0']⟩, ⟨.rparen, []⟩]
    Written .minus .star 5 e ts ∧ ¬ e.Overflow id ∧ e.ZeroDivisor id ∧
      exprTokens decimalValue some ts true = .error .divide := by
  intro e ts
  have hquot := @Written.bin .minus .star .div _ _ _ _ [] (.weaken (written_digit '1' rfl (by decide)))
    (written_digit '0' rfl (by decide))
  have hneg := Written.neg (s := []) (@Written.paren .minus .star _ _ [] [] (.weaken (.weaken (.weaken hquot))))
  have hmin : Written .minus .star 0 (.num (decimalValue intMinDigits)) [⟨.num, intMinDigits⟩] :=
    .num (by decide) (by decide)
  have hall := @Written.bin .minus .star .div _ _ _ _ [] (.weaken (.weaken hmin)) hneg
  have hright :
      (Tree.neg (.bin .div (.num (decimalValue ['1'])) (.num (decimalValue ['0'])))).value id = none := by
    decide
  refine ⟨.weaken (.weaken (.weaken hall)), ?_, ?_, by decide +kernel⟩
  · rintro (hnum | (hone | hzero | ⟨a, b, -, hb, -, -, hneg⟩) | ⟨a, b, -, hb, -⟩)
    · exact hnum
    · exact hone
    · exact hzero
    · obtain rfl := Option.some.inj hb
      exact absurd hneg (by decide)
    · rw [hright] at hb
      cases hb
  · exact (Tree.value_eq_none_iff e).mp (by decide)

end Expr

end Npc
