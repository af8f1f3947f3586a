import Npc.Difftest

/-! `make_token` of `monitor/sdb/expr.c`. Every regular expression of `rules` is matched at the
current position; the rules are known here by the length of their longest match. -/

namespace Npc

namespace Expr

inductive TokType
  | num | eq | neq | and | deref | inv | plus | minus | star | slash | lparen | rparen
  deriving DecidableEq, Repr

/-- An entry of `tokens`. Only `make_token`'s number rules write `str`. -/
structure Token where
  type : TokType
  str : List Char
  deriving DecidableEq, Repr

/-- The ways in which `expr` does not return: a `panic` or failed `assert`, the divide trap, and
a write behind the end of `tokens`. -/
inductive Fault
  | panic | assert | divide | outOfBounds
  deriving DecidableEq, Repr

inductive RuleType
  | notype | num | hnum | reg | op (type : TokType)
  deriving DecidableEq, Repr

def isSpace (c : Char) : Bool := c = ' ' || (9 ≤ c.toNat && c.toNat ≤ 13)

def isHexDigit (c : Char) : Bool :=
  c.isDigit || ('A' ≤ c && c ≤ 'F') || ('a' ≤ c && c ≤ 'f')

/-- Longest match of one or more characters of a class behind a fixed prefix. -/
def matchMany (pre : List Char) (p : Char → Bool) (e : List Char) : Nat :=
  if pre.isPrefixOf e then
    let n := ((e.drop pre.length).takeWhile p).length
    if n = 0 then 0 else pre.length + n
  else 0

def matchText (text e : List Char) : Nat := if text.isPrefixOf e then text.length else 0

/-- The length of each rule's match at the start of a string, 0 when it does not match there. -/
def rules : List (RuleType × (List Char → Nat)) :=
  [(.notype, matchMany [] (· = ' ')),
   (.op .plus, matchText ['+']),
   (.op .minus, matchText ['-']),
   (.op .star, matchText ['*']),
   (.op .slash, matchText ['/']),
   (.hnum, matchMany ['0', 'x'] isHexDigit),
   (.num, matchMany [] Char.isDigit),
   (.op .lparen, matchText ['(']),
   (.op .rparen, matchText [')']),
   (.op .eq, matchText ['=', '=']),
   (.op .neq, matchText ['!', '=']),
   (.op .and, matchText ['&', '&']),
   (.reg, matchMany ['$'] fun c => !isSpace c)]

/-- The first rule that matches, and the length of its match. -/
def matchRules (e : List Char) : Option (RuleType × Nat) :=
  (rules.map fun rule => (rule.1, rule.2 e)).find? fun m => m.2 ≠ 0

/-- `regs` of `cpu/reg.cpp` -/
def regs : List (List Char) :=
  [['$', '0'], ['r', 'a'], ['s', 'p'], ['g', 'p'], ['t', 'p'], ['t', '0'],
   ['t', '1'], ['t', '2'], ['s', '0'], ['s', '1'], ['a', '0'], ['a', '1'],
   ['a', '2'], ['a', '3'], ['a', '4'], ['a', '5'], ['a', '6'], ['a', '7'],
   ['s', '2'], ['s', '3'], ['s', '4'], ['s', '5'], ['s', '6'], ['s', '7'],
   ['s', '8'], ['s', '9'], ['s', '1', '0'], ['s', '1', '1'], ['t', '3'], ['t', '4'],
   ['t', '5'], ['t', '6']]

/-- `reg_str2val`, with the registers and pc the simulated core holds. -/
def regStr2val (cpu : CpuState) (s : List Char) : Option Word :=
  if s = ['p', 'c'] then some cpu.pc
  else (regs.findIdx? (· = s)).map fun i => cpu.gpr (BitVec.ofNat 5 i)

def hexDigitVal (c : Char) : Nat :=
  if c.isDigit then c.toNat - 48 else if c.toNat ≤ 70 then c.toNat - 55 else c.toNat - 87

/-- `strtoul(s, NULL, 16)` of the text of a `TK_HNUM`, which saturates at `ULONG_MAX`, cut to the
32 bits of `num_ext`. -/
def strtoul (s : List Char) : Word :=
  BitVec.ofNat 32 (min ((s.drop 2).foldl (fun n c => 16 * n + hexDigitVal c) 0) (2 ^ 64 - 1))

/-- `sprintf` with `%u` -/
def decimal (w : Word) : List Char := Nat.toDigits 10 w.toNat

/-- The entry that a match writes: none for blanks, `none` for a register that does not exist.
`stale` is the text that an earlier call left in the entry. -/
def recordToken (cpu : CpuState) (stale substr : List Char) : RuleType → Option (List Token)
  | .notype => some []
  | .op type => some [⟨type, stale⟩]
  | .num => some [⟨.num, substr⟩]
  | .hnum => some [⟨.num, decimal (strtoul substr)⟩]
  | .reg => (regStr2val cpu substr.tail).map fun regval => [⟨.num, decimal regval⟩]

def maxTokens : Nat := 65536

section Loop

variable (cpu : CpuState) (stale : Nat → List Char)

/-- The loop of `make_token` at a position, with `nr` tokens recorded; `none` for a return of
false. Each round consumes a character at least. -/
def makeTokenFrom : Nat → Nat → List Char → Except Fault (Option (List Token))
  | _, _, [] => .ok (some [])
  | 0, _, _ :: _ => .ok none
  | n + 1, nr, c :: e =>
    match matchRules (c :: e) with
    | none => .ok none
    | some (type, len) =>
      if len > 31 then .ok none
      else match recordToken cpu (stale nr) ((c :: e).take len) type with
        | none => .ok none
        | some toks =>
          if toks ≠ [] ∧ nr ≥ maxTokens then .error .outOfBounds
          else (makeTokenFrom n (nr + toks.length) ((c :: e).drop len)).map (·.map (toks ++ ·))

/-- `make_token`; `stale` are the texts that earlier calls left in `tokens`. -/
def makeToken (e : List Char) : Except Fault (Option (List Token)) :=
  makeTokenFrom cpu stale e.length 0 e

end Loop

variable {cpu : CpuState} {stale : Nat → List Char} {n nr k : Nat} {e rest : List Char}
  {type : RuleType} {toks : List Token}

theorem matchMany_append (pre : List Char) {run : List Char} {p : Char → Bool} (hne : run ≠ [])
    (hrun : ∀ c ∈ run, p c = true) (hrest : rest.head?.all (fun c => !p c)) :
    matchMany pre p (pre ++ (run ++ rest)) = (pre ++ run).length := by
  have hspan : (run ++ rest).takeWhile p = run := by
    rw [List.takeWhile_append_of_pos hrun]
    cases rest with
    | nil => simp
    | cons c rest => simp_all
  have hpre : pre.isPrefixOf (pre ++ (run ++ rest)) = true := by simp
  have hlen : run.length ≠ 0 := fun h => hne (List.length_eq_zero_iff.mp h)
  simp [matchMany, hpre, hspan, hlen]

theorem matchMany_eq {pre : List Char} {p : Char → Bool} (h : matchMany pre p e ≠ 0) :
    ∃ run rest, e = pre ++ (run ++ rest) ∧ run ≠ [] ∧ (∀ c ∈ run, p c = true) ∧
      rest.head?.all (fun c => !p c) ∧ matchMany pre p e = (pre ++ run).length := by
  have hpre : pre.isPrefixOf e = true := by
    by_contra hp
    simp [matchMany, hp] at h
  obtain ⟨t, rfl⟩ := List.isPrefixOf_iff_prefix.mp hpre
  have hne : t.takeWhile p ≠ [] := by
    intro hnil
    simp [matchMany, hnil] at h
  have hrun : ∀ c ∈ t.takeWhile p, p c = true := List.all_eq_true.mp List.all_takeWhile
  have hrest : (t.dropWhile p).head?.all (fun c => !p c) := by
    cases hd : t.dropWhile p with
    | nil => rfl
    | cons c l =>
      have hc := List.head?_dropWhile_not p t
      rw [hd] at hc
      simp [show p c = false from hc]
  refine ⟨t.takeWhile p, t.dropWhile p, by simp, hne, hrun, hrest, ?_⟩
  have happ := matchMany_append pre hne hrun hrest
  rwa [List.takeWhile_append_dropWhile] at happ

theorem matchText_eq {text : List Char} (h : matchText text e ≠ 0) :
    ∃ rest, e = text ++ rest ∧ matchText text e = text.length := by
  by_cases hp : text.isPrefixOf e = true
  · obtain ⟨rest, rfl⟩ := List.isPrefixOf_iff_prefix.mp hp
    exact ⟨rest, rfl, by simp [matchText]⟩
  · simp [matchText, hp] at h

theorem matchRules_mem {len : Nat} (h : matchRules e = some (type, len)) :
    ∃ rule ∈ rules, rule.1 = type ∧ rule.2 e = len ∧ len ≠ 0 := by
  have hne := List.find?_some h
  obtain ⟨rule, hmem, heq⟩ := List.mem_map.mp (List.mem_of_find?_eq_some h)
  simp only [Prod.mk.injEq] at heq
  exact ⟨rule, hmem, heq.1, heq.2, by simpa using hne⟩

theorem makeTokenFrom_stable (h : e.length ≤ n) :
    makeTokenFrom cpu stale n nr e = makeTokenFrom cpu stale e.length nr e := by
  induction n using Nat.strongRecOn generalizing nr e with
  | ind n ih =>
    cases e with
    | nil => cases n <;> rfl
    | cons c e =>
      obtain ⟨m, rfl⟩ : ∃ m, n = m + 1 := ⟨n - 1, by simp at h; omega⟩
      simp only [List.length_cons, makeTokenFrom]
      cases hm : matchRules (c :: e) with
      | none => rfl
      | some m' =>
        obtain ⟨type, len⟩ := m'
        obtain ⟨-, -, -, -, hlen⟩ := matchRules_mem hm
        have hdrop : ((c :: e).drop len).length ≤ e.length := by
          simp only [List.length_drop, List.length_cons]
          omega
        have hle : e.length ≤ m := by simpa using h
        have hrec : ∀ nr, makeTokenFrom cpu stale m nr ((c :: e).drop len) =
            makeTokenFrom cpu stale e.length nr ((c :: e).drop len) := by
          intro nr
          rw [ih m (by omega) (hdrop.trans hle)]
          by_cases heq : e.length = m
          · rw [heq, ih m (by omega) (heq ▸ hdrop)]
          · exact (ih e.length (by omega) hdrop).symm
        simp only [hrec]

theorem makeTokenFrom_match {text : List Char}
    (h : matchRules (text ++ rest) = some (type, text.length)) :
    makeTokenFrom cpu stale (text ++ rest).length nr (text ++ rest) =
      if text.length > 31 then .ok none
      else match recordToken cpu (stale nr) text type with
        | none => .ok none
        | some toks =>
          if toks ≠ [] ∧ nr ≥ maxTokens then .error .outOfBounds
          else (makeTokenFrom cpu stale rest.length (nr + toks.length) rest).map
            (·.map (toks ++ ·)) := by
  obtain ⟨-, -, -, -, hlen⟩ := matchRules_mem h
  obtain ⟨c, text, rfl⟩ : ∃ c t, text = c :: t := List.exists_cons_of_length_pos (by omega)
  have htake : (c :: text ++ rest).take (c :: text).length = c :: text := by simp
  have hdrop : (c :: text ++ rest).drop (c :: text).length = rest := by simp
  have hle : rest.length ≤ (text ++ rest).length := by simp
  rw [List.cons_append] at h htake hdrop ⊢
  simp only [List.length_cons, makeTokenFrom, h] at htake hdrop ⊢
  rw [htake, hdrop]
  simp only [makeTokenFrom_stable hle]

end Expr

end Npc
