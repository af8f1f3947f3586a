import Npc.ExprSentence

/-! How a list of tokens is taken apart, and what its evaluation meets. The shape does not depend on any
value. `walk` goes through it, also behind the points where `eval` does not return. -/

namespace Npc

namespace Expr

/-- What the evaluation can come to: an operand without a token, a message and a failure, the
address of a dereference, the operands of a division. -/
inductive Event
  | empty
  | reject
  | read (addr : Word)
  | divide (val1 val2 : Word)
  deriving DecidableEq, Repr

/-- The simulator survives. -/
def Event.Harmless (pmemRead : Word → Option Word) : Event → Prop
  | empty => False
  | reject => True
  | read addr => pmemRead addr ≠ none
  | divide val1 val2 => ¬ (val1 = BitVec.intMin 32 ∧ val2 = -1#32)

structure Walk where
  value : Word
  success : Bool
  events : List Event

def Walk.andThen (w w' : Walk) : Walk := ⟨w'.value, w'.success, w.events ++ w'.events⟩

def Walk.Harmless (pmemRead : Word → Option Word) (w : Walk) : Prop := ∀ ev ∈ w.events, ev.Harmless pmemRead

/-- Arithmetic modulo `2 ^ 32`; the divisor 0 is refused. -/
def walkOp (pmemRead : Word → Option Word) (type : TokType) (val1 val2 : Word) (success : Bool) : Walk :=
  match type with
  | .plus => ⟨val1 + val2, success, []⟩
  | .minus => ⟨val1 - val2, success, []⟩
  | .star => ⟨val1 * val2, success, []⟩
  | .slash =>
    if val2 = 0#32 then ⟨1#32, false, [.reject]⟩
    else ⟨val1.sdiv val2, success, [.divide val1 val2]⟩
  | .eq => ⟨if val1 = val2 then 1#32 else 0#32, success, []⟩
  | .neq => ⟨if val1 ≠ val2 then 1#32 else 0#32, success, []⟩
  | .and => ⟨if val1 ≠ 0#32 ∧ val2 ≠ 0#32 then 1#32 else 0#32, success, []⟩
  | .inv => ⟨-val2, success, []⟩
  | .deref => ⟨(pmemRead val2).getD 0#32, success, [.read val2]⟩
  | .num | .lparen | .rparen => ⟨0#32, success, [.empty]⟩

/-- A list of tokens by its outer parentheses and main operators. `single` is one token, whatever
its type, and `unparsed` more of them without an operator or with parentheses that do not match. -/
inductive Shape
  | missing
  | single (t : Token)
  | unparsed
  | paren (closed : Bool) (inner : Shape)
  | first (type : TokType) (right : Shape)
  | op (type : TokType) (left right : Shape)
  deriving Repr

def shapeMain (shape : List Token → Shape) (ts : List Token) (op : Nat) : Shape :=
  match ts[op]? with
  | some t =>
    if op ≠ 0 then .op t.type (shape (ts.take op)) (shape (ts.drop (op + 1)))
    else .first t.type (shape (ts.drop (op + 1)))
  | none => .missing

def shapeFrom : Nat → List Token → Shape
  | 0, _ => .missing
  | _ + 1, [] => .missing
  | _ + 1, [t] => .single t
  | n + 1, ts =>
    let check := checkParentheses ts true
    if check.1 then .paren check.2 (shapeFrom n ts.tail.dropLast)
    else match check.2, findMainOp ts with
      | true, some op => shapeMain (shapeFrom n) ts op
      | _, _ => .unparsed

def shape (ts : List Token) : Shape := shapeFrom ((prepass none ts).length + 1) (prepass none ts)

section Walk

variable (atoi : List Char → Word) (pmemRead : Word → Option Word)

/-- After a failure no operation is carried out any more, and what is not evaluated counts as 1. -/
def Shape.walk : Shape → Bool → Walk
  | missing, success => ⟨0#32, success, [.empty]⟩
  | single t, success =>
    if t.type = .num then ⟨atoi t.str, success, []⟩ else ⟨atoi t.str, false, [.reject]⟩
  | unparsed, _ => ⟨1#32, false, [.reject]⟩
  | paren closed inner, success =>
    Walk.andThen ⟨0#32, success && closed, if closed then [] else [.reject]⟩ (inner.walk (success && closed))
  | first type right, true =>
    let w := right.walk true
    w.andThen (walkOp pmemRead type 0#32 w.value w.success)
  | op type left right, true =>
    let w₁ := left.walk true
    let w₂ := right.walk w₁.success
    w₁.andThen (w₂.andThen (walkOp pmemRead type w₁.value w₂.value w₂.success))
  | first _ _, false | op _ _ _, false => ⟨1#32, false, []⟩

/-- What the evaluation of the tokens of an expression meets. -/
def walk (ts : List Token) : Walk := (shape ts).walk atoi pmemRead true

end Walk

variable {atoi : List Char → Word} {pmemRead : Word → Option Word} {ts l r : List Token}
  {t : Token} {s : Bool} {n : Nat} {w w' : Walk} {res : Except Fault (Word × Bool)}

/-- How a walk accounts for an evaluation: it has the same result where nothing it meets is
harmful, and none otherwise. -/
structure Walk.Of (pmemRead : Word → Option Word) (w : Walk) (res : Except Fault (Word × Bool)) : Prop where
  ok : w.Harmless pmemRead → res = .ok (w.value, w.success)
  error : ¬ w.Harmless pmemRead → ∃ f, res = .error f

theorem Walk.andThen_harmless :
    (w.andThen w').Harmless pmemRead ↔ w.Harmless pmemRead ∧ w'.Harmless pmemRead :=
  List.forall_mem_append

theorem Walk.Of.bind {f : Word × Bool → Except Fault (Word × Bool)} (h : w.Of pmemRead res)
    (h' : w'.Of pmemRead (f (w.value, w.success))) : (w.andThen w').Of pmemRead (res >>= f) := by
  constructor
  · intro hw
    obtain ⟨h1, h2⟩ := Walk.andThen_harmless.mp hw
    rw [h.ok h1]
    exact h'.ok h2
  · intro hn
    by_cases h1 : w.Harmless pmemRead
    · obtain ⟨e, he⟩ := h'.error fun h2 => hn (Walk.andThen_harmless.mpr ⟨h1, h2⟩)
      exact ⟨e, by rw [h.ok h1]; exact he⟩
    · obtain ⟨e, he⟩ := h.error h1
      exact ⟨e, by rw [he]; rfl⟩

theorem of_ok {events : List Event} (h : ∀ ev ∈ events, ev.Harmless pmemRead) (v : Word) (s : Bool) :
    (Walk.mk v s events).Of pmemRead (.ok (v, s)) :=
  ⟨fun _ => rfl, fun hn => absurd h hn⟩

theorem of_empty (v : Word) (s : Bool) (f : Fault) : (Walk.mk v s [.empty]).Of pmemRead (.error f) :=
  ⟨fun hw => (hw .empty List.mem_cons_self).elim, fun _ => ⟨f, rfl⟩⟩

theorem walkOp_of (type : TokType) (val1 val2 : Word) :
    (walkOp pmemRead type val1 val2 s).Of pmemRead (applyOp pmemRead type val1 val2 s) := by
  cases type with
  | slash =>
    by_cases hz : val2 = 0#32
    · simp only [walkOp, applyOp, if_pos hz]
      exact of_ok (by simp [Event.Harmless]) _ _
    · by_cases ho : val1 = BitVec.intMin 32 ∧ val2 = -1#32
      · simp only [walkOp, applyOp, if_neg hz, if_pos ho]
        exact ⟨fun hw => absurd ho (hw _ List.mem_cons_self), fun _ => ⟨_, rfl⟩⟩
      · simp only [walkOp, applyOp, if_neg hz, if_neg ho]
        exact of_ok (by simpa [Event.Harmless] using ho) _ _
  | deref =>
    cases hm : pmemRead val2 with
    | none =>
      simp only [walkOp, applyOp, hm]
      exact ⟨fun hw => absurd hm (hw _ List.mem_cons_self), fun _ => ⟨_, rfl⟩⟩
    | some w =>
      simp only [walkOp, applyOp, hm]
      exact of_ok (by simp [Event.Harmless, hm]) _ _
  | num | lparen | rparen => exact of_empty _ _ _
  | _ => exact of_ok (by simp) _ _

theorem foldl_parenStep_and (ts : List Token) (st : ParenScan) (s : Bool) :
    ts.foldl parenStep ⟨st.cnt, st.flag, s && st.success⟩ =
      ⟨(ts.foldl parenStep st).cnt, (ts.foldl parenStep st).flag, s && (ts.foldl parenStep st).success⟩ := by
  induction ts generalizing st with
  | nil => rfl
  | cons t ts ih =>
    have hstep : parenStep ⟨st.cnt, st.flag, s && st.success⟩ t =
        ⟨(parenStep st t).cnt, (parenStep st t).flag, s && (parenStep st t).success⟩ := by
      simp only [parenStep]
      generalize (if t.type = .lparen then st.cnt + 1 else if t.type = .rparen then st.cnt - 1
        else st.cnt) = cnt
      split_ifs <;> simp
    rw [List.foldl_cons, hstep, ih, List.foldl_cons]

/-- The flag is only passed on by the check of the parentheses. -/
theorem checkParentheses_eq (ts : List Token) (s : Bool) :
    checkParentheses ts s = ((checkParentheses ts true).1, s && (checkParentheses ts true).2) := by
  have hfold : ∀ us : List Token, us.foldl parenStep ⟨0, false, s⟩ = _ := fun us => by
    simpa using foldl_parenStep_and us ⟨0, false, true⟩ s
  simp only [checkParentheses, hfold]
  split_ifs <;> simp

theorem shapeMain_split (f : List Token → Shape) (l r : List Token) :
    shapeMain f (l ++ t :: r) l.length =
      if l ≠ [] then .op t.type (f l) (f r) else .first t.type (f r) := by
  by_cases hl : l = []
  · subst hl
    rfl
  · have hlen : l.length ≠ 0 := fun h => hl (List.length_eq_zero_iff.mp h)
    simp [shapeMain, hl]

theorem evalMain_of {f : List Token → Bool → Except Fault (Word × Bool)} {g : List Token → Shape}
    (hf : ∀ ts s, ((g ts).walk atoi pmemRead s).Of pmemRead (f ts s)) :
    ((shapeMain g (l ++ t :: r) l.length).walk atoi pmemRead true).Of pmemRead
      (evalMain pmemRead f (l ++ t :: r) l.length) := by
  rw [evalMain_split, shapeMain_split]
  by_cases hl : l = []
  · simp only [hl, ne_eq, not_true_eq_false, if_false]
    exact (hf r true).bind (walkOp_of _ _ _)
  · simp only [hl, ne_eq, not_false_eq_true, if_true]
    exact (hf l true).bind ((hf r _).bind (walkOp_of _ _ _))

theorem shapeMain_walk_false (g : List Token → Shape) (l r : List Token) :
    (shapeMain g (l ++ t :: r) l.length).walk atoi pmemRead false = ⟨1#32, false, []⟩ := by
  rw [shapeMain_split]
  split_ifs <;> rfl

theorem evalFrom_of (n : Nat) (ts : List Token) (s : Bool) :
    ((shapeFrom n ts).walk atoi pmemRead s).Of pmemRead (evalFrom atoi pmemRead n ts s) := by
  induction n generalizing ts s with
  | zero => exact of_empty _ _ _
  | succ n ih =>
    match ts with
    | [] => exact of_empty _ _ _
    | [t] =>
      by_cases ht : t.type = .num
      · simp only [shapeFrom, Shape.walk, evalFrom, ht, ne_eq, not_true_eq_false, if_false]
        exact of_ok (by simp) _ _
      · simp only [shapeFrom, Shape.walk, evalFrom, ht, ne_eq, not_false_eq_true, if_true]
        exact of_ok (by simp [Event.Harmless]) _ _
    | t :: u :: ts =>
      obtain ⟨b, c, hc⟩ : ∃ b c, checkParentheses (t :: u :: ts) true = (b, c) := ⟨_, _, rfl⟩
      have hcs := checkParentheses_eq (t :: u :: ts) s
      have hunparsed : (Shape.unparsed.walk atoi pmemRead s).Of pmemRead (.ok (1#32, false)) :=
        of_ok (by simp [Event.Harmless]) _ _
      simp only [evalFrom, shapeFrom, hcs, hc]
      cases b with
      | true =>
        have hclosed : ∀ ev ∈ (if c then [] else [.reject]), Event.Harmless pmemRead ev := by
          cases c <;> simp [Event.Harmless]
        exact (of_ok hclosed 0#32 (s && c)).bind (f := fun v => evalFrom atoi pmemRead n _ v.2) (ih _ _)
      | false =>
        cases c with
        | false =>
          rw [Bool.and_false]
          cases findMainOp (t :: u :: ts) <;> exact hunparsed
        | true =>
          rw [Bool.and_true]
          cases hop : findMainOp (t :: u :: ts) with
          | none => cases s <;> exact hunparsed
          | some op =>
            obtain ⟨l, o, r, hts, rfl, -⟩ := findMainOp_spec hop
            simp only [hts, Bool.false_eq_true, if_false]
            cases s with
            | true => exact evalMain_of ih
            | false =>
              rw [shapeMain_walk_false]
              exact of_ok (by simp) _ _

theorem walk_of (ts : List Token) :
    (walk atoi pmemRead ts).Of pmemRead (eval atoi pmemRead (prepass none ts) true) :=
  evalFrom_of _ _ _

end Expr

end Npc
