import Npc.Expr

/-! Lexemes and the ways of writing them with blanks in between, and what `make_token` reads from
such a text. -/

namespace Npc

namespace Expr

def opText : TokType → List Char
  | .plus => ['+']
  | .minus => ['-']
  | .star => ['*']
  | .slash => ['/']
  | .lparen => ['(']
  | .rparen => [')']
  | .eq => ['=', '=']
  | .neq => ['!', '=']
  | .and => ['&', '&']
  | .num | .deref | .inv => []

def IsDigits (p : Char → Bool) (s : List Char) : Prop := s ≠ [] ∧ s.all p = true

instance (p : Char → Bool) (s : List Char) : Decidable (IsDigits p s) :=
  inferInstanceAs (Decidable (s ≠ [] ∧ s.all p = true))

theorem IsDigits.mem {p : Char → Bool} {s : List Char} (h : IsDigits p s) : ∀ c ∈ s, p c = true :=
  List.all_eq_true.mp h.2

inductive Lexeme
  | num (digits : List Char) (h : IsDigits Char.isDigit digits)
  | hnum (digits : List Char) (h : IsDigits isHexDigit digits)
  | reg (name : List Char) (h : name ∈ ['p', 'c'] :: regs)
  | op (type : TokType) (h : opText type ≠ [])

namespace Lexeme

def text : Lexeme → List Char
  | num digits _ => digits
  | hnum digits _ => ['0', 'x'] ++ digits
  | reg name _ => '$' :: name
  | op type _ => opText type

def ruleType : Lexeme → RuleType
  | num .. => .num
  | hnum .. => .hnum
  | reg .. => .reg
  | op type _ => .op type

def type : Lexeme → TokType
  | op type _ => type
  | _ => .num

def isReg : Lexeme → Bool
  | reg .. => true
  | _ => false

/-- The token of the lexeme; an operator leaves the entry's text. -/
def token (cpu : CpuState) (stale : List Char) : Lexeme → Token
  | num digits _ => ⟨.num, digits⟩
  | hnum digits _ => ⟨.num, decimal (strtoul (['0', 'x'] ++ digits))⟩
  | reg name _ => ⟨.num, decimal ((regStr2val cpu name).getD 0#32)⟩
  | op type _ => ⟨type, stale⟩

end Lexeme

def lexTokens (cpu : CpuState) (stale : Nat → List Char) : Nat → List Lexeme → List Token
  | _, [] => []
  | nr, l :: ls => l.token cpu (stale nr) :: lexTokens cpu stale (nr + 1) ls

/-- The lexemes, each behind its number of blanks, and `tail` blanks at the end. -/
def write : List (Nat × Lexeme) → Nat → List Char
  | [], tail => List.replicate tail ' '
  | (gap, l) :: w, tail => List.replicate gap ' ' ++ (l.text ++ write w tail)

/-- The next lexeme stands directly at this place. -/
def glued : List (Nat × Lexeme) → Bool
  | [] => false
  | (gap, _) :: _ => gap = 0

/-- No run of blanks is longer than 31 and no register is followed by a lexeme without a blank,
as far as the entry behind the last of `room` free ones. -/
def fits : Nat → List (Nat × Lexeme) → Nat → Bool
  | _, [], tail => tail ≤ 31
  | 0, (gap, l) :: w, _ => gap ≤ 31 && !(l.isReg && glued w)
  | room + 1, (gap, l) :: w, tail => gap ≤ 31 && !(l.isReg && glued w) && fits room w tail

/-- A lexeme is longer than 31 characters, among the same entries. -/
def tooLong (room : Nat) (ls : List Lexeme) : Bool :=
  (ls.take (room + 1)).any fun l => 31 < l.text.length

/-- No two numbers or registers are neighbours. -/
def Apart (ls : List Lexeme) : Prop :=
  ls.IsChain fun l l' => ¬ (l.type = .num ∧ l'.type = .num)

variable {cpu : CpuState} {stale : Nat → List Char} {n nr k tail : Nat} {e rest : List Char}
  {l : Lexeme} {w : List (Nat × Lexeme)} {type : TokType}

/-- The characters that can follow a number or register name in an expression. -/
def isBoundary (c : Char) : Bool := c ∈ [' ', '+', '-', '*', '/', '(', ')', '=', '!', '&']

theorem matchRules_op (h : opText type ≠ []) :
    matchRules (opText type ++ rest) = some (.op type, (opText type).length) := by
  cases type <;> first | exact absurd rfl h | rfl

theorem matchRules_blanks (hk : k ≠ 0) (hrest : rest.head?.all (fun c => !(c = ' ' : Bool))) :
    matchRules (List.replicate k ' ' ++ rest) = some (.notype, k) := by
  have hne : List.replicate k ' ' ≠ [] := by simpa using hk
  have hrun : ∀ c ∈ List.replicate k ' ', decide (c = ' ') = true := by simp
  have hlen : matchMany [] (· = ' ') (List.replicate k ' ' ++ rest) = k := by
    simpa using matchMany_append [] hne hrun hrest
  rw [matchRules, rules, List.map_cons, List.find?_cons_of_pos]
  · exact congrArg (fun n => some (RuleType.notype, n)) hlen
  · simpa [hlen] using hk

theorem matchText_cons_ne {c x : Char} {text : List Char} (h : c ≠ x) :
    matchText (x :: text) (c :: e) = 0 := by
  simp [matchText, h.symm]

theorem matchMany_cons_ne {c x : Char} {pre : List Char} {p : Char → Bool} (h : c ≠ x) :
    matchMany (x :: pre) p (c :: e) = 0 := by
  simp [matchMany, h.symm]

theorem matchMany_nil_cons {c : Char} {p : Char → Bool} (h : p c = false) :
    matchMany [] p (c :: e) = 0 := by
  simp [matchMany, h]

theorem isBoundary_not {p : Char → Bool} {c : Char} (h : isBoundary c = true)
    (hp : [' ', '+', '-', '*', '/', '(', ')', '=', '!', '&'].all (fun c => !p c) = true) :
    p c = false := by
  have hc := List.all_eq_true.mp hp c (by simpa [isBoundary] using h)
  simpa using hc

theorem head_not {p : Char → Bool} (h : rest.head?.all isBoundary)
    (hp : [' ', '+', '-', '*', '/', '(', ')', '=', '!', '&'].all (fun c => !p c) = true) :
    rest.head?.all (fun c => !p c) := by
  cases rest with
  | nil => rfl
  | cons c rest => simp [isBoundary_not h hp]

theorem matchRules_num {s : List Char} (h : IsDigits Char.isDigit s)
    (hrest : rest.head?.all (fun c => !c.isDigit))
    (hhex : ¬ (s = ['0'] ∧ ∃ c t, rest = 'x' :: c :: t ∧ isHexDigit c = true)) :
    matchRules (s ++ rest) = some (.num, s.length) := by
  have hlen : matchMany [] Char.isDigit (s ++ rest) = s.length := by
    simpa using matchMany_append [] h.1 h.mem hrest
  have hhex : matchMany ['0', 'x'] isHexDigit (s ++ rest) = 0 := by
    by_contra hm
    obtain ⟨run, rest', htext, hnil, hrun, -, -⟩ := matchMany_eq hm
    obtain ⟨d, run, rfl⟩ := List.exists_cons_of_ne_nil hnil
    obtain ⟨c, s, rfl⟩ := List.exists_cons_of_ne_nil h.1
    obtain ⟨rfl, htail⟩ := List.cons.inj htext
    cases s with
    | nil => exact hhex ⟨rfl, d, run ++ rest', htail, hrun d List.mem_cons_self⟩
    | cons x s =>
      obtain ⟨rfl, -⟩ := List.cons.inj htail
      have hx := h.mem 'x' (by simp)
      cases hx
  obtain ⟨c, s, rfl⟩ := List.exists_cons_of_ne_nil h.1
  have hc := h.mem c List.mem_cons_self
  have hne : ∀ x, x.isDigit = false → c ≠ x := by
    rintro x hx rfl
    simp [hc] at hx
  simp only [List.cons_append] at hlen hhex ⊢
  simp [matchRules, rules, List.find?, matchText_cons_ne, matchMany_nil_cons, hne, hhex, hlen]

theorem matchRules_hnum {s : List Char} (h : IsDigits isHexDigit s)
    (hrest : rest.head?.all (fun c => !isHexDigit c)) :
    matchRules (['0', 'x'] ++ s ++ rest) = some (.hnum, (['0', 'x'] ++ s).length) := by
  have hlen := matchMany_append ['0', 'x'] h.1 h.mem hrest
  simp only [List.cons_append, List.nil_append] at hlen ⊢
  simp [matchRules, rules, List.find?, matchText_cons_ne, matchMany_nil_cons, hlen]

theorem matchRules_reg {s : List Char} (hs : s ≠ []) (h : ∀ c ∈ s, isSpace c = false)
    (hrest : rest.head?.all isSpace) :
    matchRules ('$' :: s ++ rest) = some (.reg, ('$' :: s).length) := by
  have hrun : ∀ c ∈ s, (!isSpace c) = true := fun c hc => by simp [h c hc]
  have hstop : rest.head?.all (fun c => !!isSpace c) := by simpa using hrest
  have hlen := matchMany_append ['$'] hs hrun hstop
  simp only [List.cons_append, List.nil_append] at hlen ⊢
  simp [matchRules, rules, List.find?, matchText_cons_ne, matchMany_nil_cons, matchMany_cons_ne,
    hlen]

theorem regStr2val_eq_none {s : List Char} :
    regStr2val cpu s = none ↔ s ∉ ['p', 'c'] :: regs := by
  by_cases hpc : s = ['p', 'c']
  · simp [regStr2val, hpc]
  · rw [regStr2val, if_neg hpc, Option.map_eq_none_iff, List.findIdx?_eq_none_iff]
    simp only [List.mem_cons, hpc, false_or, decide_eq_false_iff_not]
    exact ⟨fun h hs => h s hs rfl, fun h x hx heq => h (heq ▸ hx)⟩

theorem recordToken_lexeme (stale : List Char) (l : Lexeme) :
    recordToken cpu stale l.text l.ruleType = some [l.token cpu stale] := by
  cases l with
  | num digits h => rfl
  | hnum digits h => rfl
  | op type h => rfl
  | reg name h =>
    cases hv : regStr2val cpu name with
    | none => exact absurd h (regStr2val_eq_none.mp hv)
    | some v => simp [recordToken, Lexeme.text, Lexeme.token, Lexeme.ruleType, hv]

theorem regs_plain {name : List Char} (h : name ∈ ['p', 'c'] :: regs) :
    name ≠ [] ∧ ∀ c ∈ name, isSpace c = false ∧ isBoundary c = false := by
  have hall : (['p', 'c'] :: regs).all (fun name => name ≠ [] &&
      name.all fun c => !isSpace c && !isBoundary c) = true := by decide +kernel
  simpa using List.all_eq_true.mp hall name h

/-- The lexeme does not go on in the rest. -/
def Lexeme.EndsAt (l : Lexeme) (rest : List Char) : Prop :=
  match l with
  | .num digits _ => rest.head?.all (fun c => !c.isDigit) ∧
      ¬ (digits = ['0'] ∧ ∃ c t, rest = 'x' :: c :: t ∧ isHexDigit c = true)
  | .hnum .. => rest.head?.all fun c => !isHexDigit c
  | .reg .. => rest.head?.all isSpace
  | .op .. => True

theorem matchRules_lexeme (h : l.EndsAt rest) :
    matchRules (l.text ++ rest) = some (l.ruleType, l.text.length) := by
  cases l with
  | num digits hd => exact matchRules_num hd h.1 h.2
  | hnum digits hd => exact matchRules_hnum hd h
  | op type ht => exact matchRules_op ht
  | reg name hn =>
    have hplain := regs_plain hn
    exact matchRules_reg hplain.1 (fun c hc => (hplain.2 c hc).1) h

/-- What follows a lexeme in an expression. -/
def Lexeme.Ends (l : Lexeme) (rest : List Char) : Prop :=
  match l with
  | .num .. | .hnum .. => rest.head?.all isBoundary
  | .reg .. => rest.head?.all isSpace
  | .op .. => True

theorem Lexeme.Ends.endsAt (h : l.Ends rest) : l.EndsAt rest := by
  cases l with
  | num digits hd =>
    refine ⟨head_not h (by decide), fun hx => ?_⟩
    obtain ⟨-, c, t, rfl, -⟩ := hx
    exact absurd h (by simp [Lexeme.Ends, isBoundary])
  | hnum digits hd => exact head_not h (by decide)
  | op type ht => exact h
  | reg name hn => exact h

theorem makeTokenFrom_lexeme (h : l.EndsAt rest) :
    makeTokenFrom cpu stale (l.text ++ rest).length nr (l.text ++ rest) =
      if l.text.length > 31 then .ok none
      else if nr ≥ maxTokens then .error .outOfBounds
      else (makeTokenFrom cpu stale rest.length (nr + 1) rest).map
        (·.map (l.token cpu (stale nr) :: ·)) := by
  rw [makeTokenFrom_match (matchRules_lexeme h)]
  simp [recordToken_lexeme]

theorem makeTokenFrom_blanks (hrest : rest.head?.all (fun c => !(c = ' ' : Bool))) :
    makeTokenFrom cpu stale (List.replicate k ' ' ++ rest).length nr (List.replicate k ' ' ++ rest) =
      if k > 31 then .ok none else makeTokenFrom cpu stale rest.length nr rest := by
  by_cases hk : k = 0
  · simp [hk]
  · have hm : matchRules (List.replicate k ' ' ++ rest) =
        some (.notype, (List.replicate k ' ').length) := by
      rw [matchRules_blanks hk hrest, List.length_replicate]
    rw [makeTokenFrom_match hm, List.length_replicate]
    by_cases hlong : k > 31
    · rw [if_pos hlong, if_pos hlong]
    · rw [if_neg hlong, if_neg hlong]
      cases hr : makeTokenFrom cpu stale rest.length nr rest with
      | error f => simp [recordToken, hr, Except.map]
      | ok r => cases r <;> simp [recordToken, hr, Except.map]

theorem makeTokenFrom_glued {name : List Char} {c : Char} (hname : name ∈ ['p', 'c'] :: regs)
    (hc : isBoundary c = true) (hspace : isSpace c = false) :
    makeTokenFrom cpu stale ('$' :: name ++ c :: rest).length nr ('$' :: name ++ c :: rest) =
      .ok none := by
  have hplain := regs_plain hname
  have hrun : ∀ d ∈ (name ++ c :: rest).takeWhile fun c => !isSpace c, isSpace d = false := by
    intro d hd
    simpa using List.all_eq_true.mp List.all_takeWhile d hd
  have hspan : (name ++ c :: rest).takeWhile (fun c => !isSpace c) =
      name ++ c :: rest.takeWhile fun c => !isSpace c := by
    rw [List.takeWhile_append_of_pos (fun d hd => by simp [(hplain.2 d hd).1]),
      List.takeWhile_cons_of_pos (by simp [hspace])]
  have hend : ((name ++ c :: rest).dropWhile fun c => !isSpace c).head?.all isSpace := by
    have hd := List.head?_dropWhile_not (fun c => !isSpace c) (name ++ c :: rest)
    cases hdrop : ((name ++ c :: rest).dropWhile fun c => !isSpace c) with
    | nil => rfl
    | cons d t => simpa [hdrop] using hd
  have hm := matchRules_reg (by simp [hspan]) hrun hend
  have htext : '$' :: name ++ c :: rest =
      '$' :: ((name ++ c :: rest).takeWhile fun c => !isSpace c) ++
        (name ++ c :: rest).dropWhile fun c => !isSpace c := by
    rw [List.cons_append, List.cons_append, List.takeWhile_append_dropWhile]
  have hnone : regStr2val cpu (name ++ c :: rest.takeWhile fun c => !isSpace c) = none := by
    refine regStr2val_eq_none.mpr fun hmem => ?_
    have hb := ((regs_plain hmem).2 c (by simp)).2
    simp [hc] at hb
  rw [htext, makeTokenFrom_match hm, hspan]
  simp [recordToken, hnone]

theorem isDigit_not_space {c : Char} (h : c.isDigit = true) : isSpace c = false := by
  have hlow : 48 ≤ c.toNat := (Char.isDigit_iff_toNat.mp h).1
  have hblank : c ≠ ' ' := by
    rintro rfl
    exact absurd hlow (by decide)
  simp only [isSpace, hblank, decide_false, Bool.false_or, Bool.and_eq_false_iff,
    decide_eq_false_iff_not]
  omega

theorem text_head (l : Lexeme) : ∃ c t, l.text = c :: t ∧ isSpace c = false ∧
    (l.type ≠ .num → isBoundary c = true) := by
  cases l with
  | num digits h =>
    obtain ⟨c, t, rfl⟩ := List.exists_cons_of_ne_nil h.1
    exact ⟨c, t, rfl, isDigit_not_space (h.mem c List.mem_cons_self), fun h => absurd rfl h⟩
  | hnum digits h => exact ⟨'0', 'x' :: digits, rfl, rfl, fun h => absurd rfl h⟩
  | reg name h => exact ⟨'$', name, rfl, rfl, fun h => absurd rfl h⟩
  | op type h => cases type <;> first | exact absurd rfl h | exact ⟨_, _, rfl, rfl, fun _ => rfl⟩

theorem glued_write (tail : Nat) (h : glued w = true) :
    ∃ c t, write w tail = c :: t ∧ isSpace c = false ∧
      ((∀ l ∈ (w.map Prod.snd).head?, l.type ≠ .num) → isBoundary c = true) := by
  cases w with
  | nil => simp [glued] at h
  | cons p w =>
    obtain ⟨gap, l⟩ := p
    obtain ⟨c, t, ht, hs, hb⟩ := text_head l
    have hgap : gap = 0 := by simpa [glued] using h
    exact ⟨c, t ++ write w tail, by simp [write, hgap, ht], hs, fun hl => hb (hl l (by simp))⟩

theorem not_glued_write (tail : Nat) (h : glued w = false) {p : Char → Bool} (hp : p ' ' = true) :
    (write w tail).head?.all p := by
  cases w with
  | nil => cases tail <;> simp [write, List.replicate_succ, hp]
  | cons head w =>
    obtain ⟨gap, l⟩ := head
    have hgap : gap ≠ 0 := by simpa [glued] using h
    obtain ⟨g, rfl⟩ := Nat.exists_eq_succ_of_ne_zero hgap
    simp [write, List.replicate_succ, hp]

theorem Apart.next {ls : List Lexeme} (hap : Apart (l :: ls)) (hl : l.type = .num) :
    ∀ l' ∈ ls.head?, l'.type ≠ .num := by
  intro l' hl' hnum
  cases ls with
  | nil => cases hl'
  | cons l'' ls =>
    obtain rfl : l'' = l' := by simpa using hl'
    exact (List.isChain_cons_cons.mp hap).1 ⟨hl, hnum⟩

theorem ends_write (hap : Apart (l :: w.map Prod.snd)) (hreg : (l.isReg && glued w) = false) :
    l.Ends (write w tail) := by
  have hbound : l.type = .num → (write w tail).head?.all isBoundary := by
    intro hl
    cases hg : glued w with
    | true =>
      obtain ⟨c, t, hw, -, hb⟩ := glued_write tail hg
      simp [hw, hb (hap.next hl)]
    | false => exact not_glued_write tail hg rfl
  cases l with
  | num digits h => exact hbound rfl
  | hnum digits h => exact hbound rfl
  | op type h => trivial
  | reg name h =>
    have hg : glued w = false := by simpa [Lexeme.isReg] using hreg
    exact not_glued_write tail hg rfl

/-- A lexeme with the blanks before it: they are bounded, it is not too long, and nothing is glued
to a register. -/
def plain (gap : Nat) (l : Lexeme) (w : List (Nat × Lexeme)) : Bool :=
  gap ≤ 31 && !(l.isReg && glued w) && l.text.length ≤ 31

theorem makeTokenFrom_glued_write (hap : Apart (l :: w.map Prod.snd))
    (hreg : (l.isReg && glued w) = true) :
    makeTokenFrom cpu stale (l.text ++ write w tail).length nr (l.text ++ write w tail) =
      .ok none := by
  obtain ⟨hl, hg⟩ := Bool.and_eq_true_iff.mp hreg
  cases l with
  | reg name hname =>
    obtain ⟨d, u, hw, hd, hb⟩ := glued_write tail hg
    rw [hw]
    exact makeTokenFrom_glued hname (hb (hap.next rfl)) hd
  | num digits h => cases hl
  | hnum digits h => cases hl
  | op type h => cases hl

theorem makeTokenFrom_cons {gap : Nat} (hap : Apart (l :: w.map Prod.snd)) :
    makeTokenFrom cpu stale (write ((gap, l) :: w) tail).length nr (write ((gap, l) :: w) tail) =
      if plain gap l w then
        if nr ≥ maxTokens then .error .outOfBounds
        else (makeTokenFrom cpu stale (write w tail).length (nr + 1) (write w tail)).map
          (·.map (l.token cpu (stale nr) :: ·))
      else .ok none := by
  obtain ⟨c, t, ht, hs, -⟩ := text_head l
  have hcb : c ≠ ' ' := by
    rintro rfl
    exact absurd hs (by decide)
  rw [write, makeTokenFrom_blanks (by simp [ht, hcb])]
  by_cases hgap : gap > 31
  · have hle : ¬ gap ≤ 31 := by omega
    simp [plain, hgap, hle]
  · have hle : gap ≤ 31 := by omega
    rw [if_neg hgap]
    cases hreg : l.isReg && glued w with
    | true =>
      rw [makeTokenFrom_glued_write hap hreg]
      simp [plain, hreg]
    | false =>
      rw [makeTokenFrom_lexeme (ends_write hap hreg).endsAt]
      by_cases htext : l.text.length > 31
      · have hlong : ¬ l.text.length ≤ 31 := by omega
        simp [plain, htext, hlong]
      · have hshort : l.text.length ≤ 31 := by omega
        simp [plain, hle, hreg, htext, hshort]

theorem fits_tooLong_zero {gap : Nat} :
    (fits 0 ((gap, l) :: w) tail && !tooLong 0 (((gap, l) :: w).map Prod.snd)) = plain gap l w := by
  rw [Bool.eq_iff_iff]
  simp [fits, tooLong, plain]

theorem fits_tooLong_succ {room gap : Nat} :
    (fits (room + 1) ((gap, l) :: w) tail && !tooLong (room + 1) (((gap, l) :: w).map Prod.snd)) =
      (plain gap l w && (fits room w tail && !tooLong room (w.map Prod.snd))) := by
  rw [Bool.eq_iff_iff]
  simp [fits, tooLong, plain]
  tauto

/-- What `make_token` reads from a text: the lexemes' tokens, if nothing is too long, every
register stands before a blank, and the tokens fit. -/
theorem makeTokenFrom_write {room : Nat} (hap : Apart (w.map Prod.snd))
    (hroom : nr + room = maxTokens) :
    makeTokenFrom cpu stale (write w tail).length nr (write w tail) =
      if fits room w tail && !tooLong room (w.map Prod.snd) then
        if w.length ≤ room then .ok (some (lexTokens cpu stale nr (w.map Prod.snd)))
        else .error .outOfBounds
      else .ok none := by
  induction w generalizing nr room with
  | nil =>
    have hb : makeTokenFrom cpu stale (List.replicate tail ' ' ++ []).length nr
        (List.replicate tail ' ' ++ []) = _ := makeTokenFrom_blanks rfl
    rw [List.append_nil] at hb
    rw [write, hb]
    by_cases hlong : tail > 31
    · have hle : ¬ tail ≤ 31 := by omega
      simp [fits, hlong, hle]
    · have hle : tail ≤ 31 := by omega
      simp [fits, tooLong, hle, lexTokens, makeTokenFrom]
  | cons p w ih =>
    obtain ⟨gap, l⟩ := p
    rw [makeTokenFrom_cons hap]
    cases room with
    | zero =>
      have hfull : nr ≥ maxTokens := by omega
      rw [fits_tooLong_zero, if_pos hfull]
      simp
    | succ room =>
      have hnr : nr + 1 + room = maxTokens := by omega
      have hroom : ¬ nr ≥ maxTokens := by omega
      rw [if_neg hroom, ih (List.IsChain.tail hap) hnr, fits_tooLong_succ]
      cases hplain : plain gap l w with
      | false => simp
      | true =>
        cases hok : fits room w tail && !tooLong room (w.map Prod.snd) with
        | false => simp [Except.map]
        | true =>
          by_cases hw : w.length ≤ room
          · simp [hw, Except.map, lexTokens]
          · simp [hw, Except.map]

theorem makeToken_write (hap : Apart (w.map Prod.snd)) :
    makeToken cpu stale (write w tail) =
      if fits maxTokens w tail && !tooLong maxTokens (w.map Prod.snd) then
        if w.length ≤ maxTokens then .ok (some (lexTokens cpu stale 0 (w.map Prod.snd)))
        else .error .outOfBounds
      else .ok none :=
  makeTokenFrom_write hap (Nat.zero_add _)

theorem fits_tooLong_tokens {ls : List Lexeme} (hap : Apart ls) (hw : w.map Prod.snd = ls)
    (h : tooLong maxTokens ls = false) :
    fits maxTokens w tail = true ↔ makeToken cpu stale (write w tail) ≠ .ok none := by
  subst hw
  rw [makeToken_write hap, h]
  cases fits maxTokens w tail with
  | false => simp
  | true => by_cases hlen : w.length ≤ maxTokens <;> simp [hlen]

def RuleType.Matches : RuleType → List Char → Prop
  | .notype, s => ∃ k, s = List.replicate k ' '
  | .num, s => IsDigits Char.isDigit s
  | .hnum, s => ∃ digits, s = ['0', 'x'] ++ digits ∧ IsDigits isHexDigit digits
  | .reg, s => ∃ name, s = '$' :: name
  | .op type, s => s = opText type ∧ opText type ≠ []

/-- Where the match of a rule stops. -/
def RuleType.Stops : RuleType → List Char → Prop
  | .notype, rest => rest.head?.all fun c => !(c = ' ' : Bool)
  | .num, rest => rest.head?.all fun c => !c.isDigit
  | .hnum, rest => rest.head?.all fun c => !isHexDigit c
  | .reg, rest => rest.head?.all isSpace
  | .op _, _ => True

theorem matchRules_spec {rule : RuleType} {len : Nat} (h : matchRules e = some (rule, len)) :
    ∃ text rest, e = text ++ rest ∧ len = text.length ∧ rule.Matches text ∧ rule.Stops rest := by
  obtain ⟨r, hmem, rfl, rfl, hne⟩ := matchRules_mem h
  have hop : ∀ type, opText type ≠ [] → matchText (opText type) e ≠ 0 →
      ∃ text rest, e = text ++ rest ∧ matchText (opText type) e = text.length ∧
        (RuleType.op type).Matches text ∧ (RuleType.op type).Stops rest := by
    intro type ht hm
    obtain ⟨rest, hrest, hlen⟩ := matchText_eq hm
    exact ⟨opText type, rest, hrest, hlen, ⟨rfl, ht⟩, trivial⟩
  have hmany : ∀ pre p, matchMany pre p e ≠ 0 → ∃ run rest, e = pre ++ run ++ rest ∧
      matchMany pre p e = (pre ++ run).length ∧ IsDigits p run ∧ rest.head?.all fun c => !p c := by
    intro pre p hm
    obtain ⟨run, rest, hrest, hnil, hrun, hstop, hlen⟩ := matchMany_eq hm
    exact ⟨run, rest, by rw [hrest, List.append_assoc], hlen, ⟨hnil, List.all_eq_true.mpr hrun⟩, hstop⟩
  simp only [rules, List.mem_cons, List.not_mem_nil, or_false] at hmem
  rcases hmem with rfl | rfl | rfl | rfl | rfl | rfl | rfl | rfl | rfl | rfl | rfl | rfl | rfl
  · obtain ⟨run, rest, hrest, hlen, hrun, hstop⟩ := hmany [] (· = ' ') hne
    refine ⟨run, rest, hrest, hlen, ⟨run.length, ?_⟩, hstop⟩
    exact List.eq_replicate_iff.mpr ⟨rfl, fun c hc => by simpa using hrun.mem c hc⟩
  · exact hop .plus (by decide) hne
  · exact hop .minus (by decide) hne
  · exact hop .star (by decide) hne
  · exact hop .slash (by decide) hne
  · obtain ⟨run, rest, hrest, hlen, hrun, hstop⟩ := hmany ['0', 'x'] isHexDigit hne
    exact ⟨_, rest, hrest, hlen, ⟨run, rfl, hrun⟩, hstop⟩
  · obtain ⟨run, rest, hrest, hlen, hrun, hstop⟩ := hmany [] Char.isDigit hne
    exact ⟨run, rest, hrest, hlen, hrun, hstop⟩
  · exact hop .lparen (by decide) hne
  · exact hop .rparen (by decide) hne
  · exact hop .eq (by decide) hne
  · exact hop .neq (by decide) hne
  · exact hop .and (by decide) hne
  · obtain ⟨run, rest, hrest, hlen, hrun, hstop⟩ := hmany ['$'] (fun c => !isSpace c) hne
    exact ⟨_, rest, hrest, hlen, ⟨run, rfl⟩, by simpa [RuleType.Stops] using hstop⟩

theorem blanks_write (k : Nat) (w : List (Nat × Lexeme)) (tail : Nat) :
    ∃ w' tail', List.replicate k ' ' ++ write w tail = write w' tail' ∧
      w'.map Prod.snd = w.map Prod.snd := by
  cases w with
  | nil => exact ⟨[], k + tail, by rw [write, write, List.replicate_add], rfl⟩
  | cons p w =>
    obtain ⟨gap, l⟩ := p
    exact ⟨(k + gap, l) :: w, tail, by rw [write, write, List.replicate_add, List.append_assoc], rfl⟩

section Spaces

variable (atoi : List Char → Word) (pmemRead : Word → Option Word) (cpu : CpuState)
  (stale : Nat → List Char)

/-- Two ways of writing the same lexemes are read alike just when no lexeme is too long and either
both or none of them keep the blanks in bounds and behind every register. -/
theorem spaces_irrelevant_iff (ls : List Lexeme) (hap : Apart ls) (w₁ w₂ : List (Nat × Lexeme))
    (tail₁ tail₂ : Nat) (h₁ : w₁.map Prod.snd = ls) (h₂ : w₂.map Prod.snd = ls) :
    (makeToken cpu stale (write w₁ tail₁) = makeToken cpu stale (write w₂ tail₂) ∧
      ∀ success, expr atoi pmemRead cpu stale (write w₁ tail₁) success =
        expr atoi pmemRead cpu stale (write w₂ tail₂) success) ↔
      tooLong maxTokens ls = true ∨ fits maxTokens w₁ tail₁ = fits maxTokens w₂ tail₂ := by
  have hexpr : makeToken cpu stale (write w₁ tail₁) = makeToken cpu stale (write w₂ tail₂) →
      ∀ success, expr atoi pmemRead cpu stale (write w₁ tail₁) success =
        expr atoi pmemRead cpu stale (write w₂ tail₂) success := by
    intro h success
    rw [expr, expr, h]
  rw [and_iff_left_of_imp hexpr]
  have hlen : w₁.length = w₂.length := by
    rw [← List.length_map Prod.snd, h₁, ← h₂, List.length_map]
  have hread₁ : makeToken cpu stale (write w₁ tail₁) = _ := makeToken_write (h₁ ▸ hap)
  have hread₂ : makeToken cpu stale (write w₂ tail₂) = _ := makeToken_write (h₂ ▸ hap)
  rw [h₁] at hread₁
  rw [h₂] at hread₂
  cases hlong : tooLong maxTokens ls with
  | true => simp [hread₁, hread₂, hlong]
  | false =>
    simp only [Bool.false_eq_true, false_or]
    constructor
    · intro h
      rw [Bool.eq_iff_iff, fits_tooLong_tokens hap h₁ hlong, fits_tooLong_tokens hap h₂ hlong, h]
    · intro h
      rw [hread₁, hread₂, h, hlen]

end Spaces

def zeroCpu : CpuState := ⟨fun _ => 0#32, 0#32⟩

/-- `$a0 + 1` with a number of blanks before the plus. -/
def regPlusOne (gap : Nat) : List (Nat × Lexeme) :=
  [(0, .reg ['a', '0'] (by decide +kernel)), (gap, .op .plus nofun),
    (0, .num ['1'] (by decide +kernel))]

theorem regPlusOne_blank_matters :
    write (regPlusOne 0) 0 = ['$', 'a', '0', '+', '1'] ∧ write (regPlusOne 1) 0 = ['$', 'a', '0', ' ', '+', '1'] ∧
      (regPlusOne 0).map Prod.snd = (regPlusOne 1).map Prod.snd ∧
      Apart ((regPlusOne 0).map Prod.snd) ∧
      makeToken zeroCpu (fun _ => []) (write (regPlusOne 0) 0) = .ok none ∧
      makeToken zeroCpu (fun _ => []) (write (regPlusOne 1) 0) =
        .ok (some [⟨.num, ['0']⟩, ⟨.plus, []⟩, ⟨.num, ['1']⟩]) ∧
      expr decimalValue (fun _ => none) zeroCpu (fun _ => []) (write (regPlusOne 0) 0) true =
        .ok (0#32, false) ∧
      expr decimalValue (fun _ => none) zeroCpu (fun _ => []) (write (regPlusOne 1) 0) true =
        .ok (1#32, true) := by
  refine ⟨by decide +kernel, by decide +kernel, rfl, ?_, ?_, ?_, ?_, ?_⟩
  · exact .cons_cons (by decide) (.cons_cons (by decide) (.singleton _))
  all_goals decide +kernel

theorem spaces_irrelevant_iff_regPlusOne :
    (makeToken zeroCpu (fun _ => []) (write (regPlusOne 1) 0) =
        makeToken zeroCpu (fun _ => []) (write (regPlusOne 2) 0) ∧
      ∀ success, expr decimalValue (fun _ => none) zeroCpu (fun _ => []) (write (regPlusOne 1) 0)
          success =
        expr decimalValue (fun _ => none) zeroCpu (fun _ => []) (write (regPlusOne 2) 0) success) ↔
      tooLong maxTokens ((regPlusOne 1).map Prod.snd) = true ∨
        fits maxTokens (regPlusOne 1) 0 = fits maxTokens (regPlusOne 2) 0 :=
  spaces_irrelevant_iff decimalValue (fun _ => none) zeroCpu (fun _ => []) _
    (.cons_cons (by decide) (.cons_cons (by decide) (.singleton _))) _ _ 0 0 rfl rfl

end Expr

end Npc
