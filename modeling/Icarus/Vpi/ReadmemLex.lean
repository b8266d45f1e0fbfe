import Mathlib.Data.List.TakeWhile

/-!
# The lexor of memory files

The rules of the lexor for `$readmemb` and `$readmemh`. The longest match wins, and the first rule
among those of one length. A comment up to the end of the line is skipped, and a line of digits is
one word.
-/

namespace Icarus.Vpi

/-- The start conditions but `CCOMMENT`. -/
inductive StartState
  | bin
  | hex
  deriving DecidableEq

/-- What the lexor returns; the text of a word is not yet a value. -/
inductive MemToken
  | address (digits : List Char)
  | word (text : List Char)
  | error (c : Char)
  deriving DecidableEq

/-- What a rule does with its match. -/
inductive RuleAction
  | skip
  | address
  | word
  | beginComment
  | endComment
  | error
  deriving DecidableEq

/-- `[0-9a-fA-F]`. -/
def isHexDigit (c : Char) : Bool :=
  ('0' ≤ c && c ≤ '9') || ('a' ≤ c && c ≤ 'f') || ('A' ≤ c && c ≤ 'F')

/-- The characters of a word. -/
def isWordChar (start : StartState) (c : Char) : Bool :=
  match start with
  | .bin => c ∈ ['0', '1', 'x', 'X', 'z', 'Z', '_']
  | .hex => isHexDigit c || c ∈ ['x', 'X', 'z', 'Z', '_']

/-- `"//".*`. -/
def matchLine : List Char → Nat
  | '/' :: '/' :: cs => 2 + (cs.takeWhile (· ≠ '\n')).length
  | _ => 0

/-- `[ \t\f\n\r]`. -/
def matchWhite : List Char → Nat
  | c :: _ => if c ∈ [' ', '\t', '\x0c', '\n', '\r'] then 1 else 0
  | [] => 0

/-- `@[0-9a-fA-F]+`. -/
def matchAddress : List Char → Nat
  | '@' :: cs =>
    let n := (cs.takeWhile isHexDigit).length
    if n = 0 then 0 else 1 + n
  | _ => 0

/-- The rule of a word. -/
def matchWord (start : StartState) (cs : List Char) : Nat :=
  (cs.takeWhile (isWordChar start)).length

/-- The start of a comment. -/
def matchOpen : List Char → Nat
  | '/' :: '*' :: _ => 2
  | _ => 0

/-- Any character but the end of a line. -/
def matchAny : List Char → Nat
  | c :: _ => if c ≠ '\n' then 1 else 0
  | [] => 0

/-- `"*"+"/"`. -/
def matchClose (cs : List Char) : Nat :=
  let n := (cs.takeWhile (· = '*')).length
  if n ≠ 0 ∧ (cs.drop n).head? = some '/' then n + 1 else 0

/-- The rules of the start condition, with the lengths of their matches. -/
def ruleMatches (start : StartState) (inComment : Bool) (cs : List Char) :
    List (Nat × RuleAction) :=
  if inComment then
    [((cs.takeWhile (· ≠ '*')).length, .skip), (if cs.head? = some '*' then 1 else 0, .skip),
      (matchClose cs, .endComment)]
  else
    [(matchLine cs, .skip), (matchWhite cs, .skip), (matchAddress cs, .address),
      (matchWord start cs, .word), (matchOpen cs, .beginComment), (matchAny cs, .error)]

/-- The longest match, and the first of them. -/
def longest : List (Nat × RuleAction) → Nat × RuleAction
  | [] => (0, .skip)
  | rule :: rules => if (longest rules).1 ≤ rule.1 then rule else longest rules

/-- What `readmemlex` returns until the end of the file. A character without a match is echoed. -/
def readmemlex (start : StartState) (inComment : Bool) : List Char → List MemToken
  | [] => []
  | c :: cs =>
    let rule := longest (ruleMatches start inComment (c :: cs))
    let yytext := (c :: cs).take rule.1
    let rest := cs.drop (rule.1 - 1)
    match rule.2 with
    | .skip => readmemlex start inComment rest
    | .address => .address (yytext.drop 1) :: readmemlex start inComment rest
    | .word => .word yytext :: readmemlex start inComment rest
    | .beginComment => readmemlex start true rest
    | .endComment => readmemlex start false rest
    | .error => .error c :: readmemlex start inComment rest
  termination_by cs => cs.length
  decreasing_by all_goals simp only [List.length_cons, List.length_drop]; omega

/-! ## Longest matches -/

/-- A rule without a match is passed over. -/
theorem longest_cons_zero {n : Nat} {action action' : RuleAction} {rules : List (Nat × RuleAction)}
    (h : longest rules = (n + 1, action)) : longest ((0, action') :: rules) = (n + 1, action) := by
  rw [longest, h, if_neg (Nat.not_succ_le_zero n)]

theorem longest_le {n : Nat} {rules : List (Nat × RuleAction)} (h : ∀ rule ∈ rules, rule.1 ≤ n) :
    (longest rules).1 ≤ n := by
  induction rules with
  | nil => exact Nat.zero_le n
  | cons rule rules ih =>
    rw [longest]
    split_ifs
    · exact h rule List.mem_cons_self
    · exact ih fun r hr => h r (List.mem_cons_of_mem _ hr)

/-- The first of the longest matches. -/
theorem longest_cons_of_le {rule : Nat × RuleAction} {rules : List (Nat × RuleAction)}
    (h : ∀ r ∈ rules, r.1 ≤ rule.1) : longest (rule :: rules) = rule := by
  rw [longest, if_pos (longest_le h)]

/-! ## Lines -/

section Lines

variable {start : StartState} {cs : List Char}

/-- White space is skipped. -/
theorem readmemlex_newline : readmemlex start false ('\n' :: cs) = readmemlex start false cs := by
  have hword : matchWord start ('\n' :: cs) = 0 := by
    unfold matchWord
    rw [List.takeWhile_cons_of_neg (by cases start <;> decide)]
    rfl
  have hrule : longest (ruleMatches start false ('\n' :: cs)) = (1, .skip) := by
    simp [ruleMatches, longest, matchLine, matchWhite, matchAddress, hword, matchOpen, matchAny]
  rw [readmemlex, hrule]
  rfl

theorem takeWhile_append_cons {p : Char → Bool} {l : List Char} (hl : ∀ c ∈ l, p c = true)
    {c : Char} (hc : p c = false) : (l ++ c :: cs).takeWhile p = l := by
  rw [List.takeWhile_append_of_pos hl, List.takeWhile_cons_of_neg (by simp [hc]), List.append_nil]

/-- A comment line is skipped. -/
theorem readmemlex_comment {line : List Char} (hline : ∀ c ∈ line, c ≠ '\n') :
    readmemlex start false ('/' :: '/' :: (line ++ '\n' :: cs)) = readmemlex start false cs := by
  have hlen : ((line ++ '\n' :: cs).takeWhile (· ≠ '\n')).length = line.length := by
    rw [takeWhile_append_cons (fun c hc => by simpa using hline c hc) (by simp)]
  have hword : matchWord start ('/' :: '/' :: (line ++ '\n' :: cs)) = 0 := by
    unfold matchWord
    rw [List.takeWhile_cons_of_neg (by cases start <;> decide)]
    rfl
  have hrule : longest (ruleMatches start false ('/' :: '/' :: (line ++ '\n' :: cs))) =
      (2 + line.length, .skip) := by
    rw [ruleMatches, if_neg Bool.false_ne_true, hword, matchLine, hlen]
    refine longest_cons_of_le fun rule hrule => ?_
    simp only [matchWhite, matchAddress, matchOpen, matchAny, List.mem_cons, List.not_mem_nil,
      or_false] at hrule
    rcases hrule with rfl | rfl | rfl | rfl | rfl <;> simp
    omega
  rw [readmemlex, hrule]
  have hdrop : ('/' :: (line ++ '\n' :: cs)).drop (2 + line.length - 1) = '\n' :: cs := by
    rw [show 2 + line.length - 1 = line.length + 1 by omega, List.drop_succ_cons,
      List.drop_left]
  dsimp only
  rw [hdrop, readmemlex_newline]

/-- A line of digits is a word. -/
theorem readmemlex_word {text : List Char} (hne : text ≠ [])
    (htext : ∀ c ∈ text, isWordChar start c = true) :
    readmemlex start false (text ++ '\n' :: cs) = .word text :: readmemlex start false cs := by
  obtain ⟨c, text, rfl⟩ := List.exists_cons_of_ne_nil hne
  have hc := htext c List.mem_cons_self
  have hword : matchWord start ((c :: text) ++ '\n' :: cs) = text.length + 1 := by
    unfold matchWord
    rw [takeWhile_append_cons htext (by cases start <;> decide), List.length_cons]
  have hother : c ≠ '/' ∧ c ≠ '@' ∧ c ∉ [' ', '\t', '\x0c', '\n', '\r'] := by
    refine ⟨?_, ?_, ?_⟩
    · rintro rfl
      cases start <;> exact absurd hc (by decide)
    · rintro rfl
      cases start <;> exact absurd hc (by decide)
    · intro hmem
      simp only [List.mem_cons, List.not_mem_nil, or_false] at hmem
      rcases hmem with rfl | rfl | rfl | rfl | rfl <;> cases start <;> exact absurd hc (by decide)
  have hline : matchLine ((c :: text) ++ '\n' :: cs) = 0 := by
    unfold matchLine
    split
    · simp_all
    · rfl
  have hopen : matchOpen ((c :: text) ++ '\n' :: cs) = 0 := by
    unfold matchOpen
    split
    · simp_all
    · rfl
  have haddress : matchAddress ((c :: text) ++ '\n' :: cs) = 0 := by
    unfold matchAddress
    split
    · simp_all
    · rfl
  have hany : matchAny ((c :: text) ++ '\n' :: cs) ≤ 1 := by
    change (if c ≠ '\n' then 1 else 0) ≤ 1
    split_ifs <;> decide
  have hwhite : matchWhite ((c :: text) ++ '\n' :: cs) = 0 := if_neg hother.2.2
  have hrule : longest (ruleMatches start false ((c :: text) ++ '\n' :: cs)) =
      (text.length + 1, .word) := by
    have htail : longest [(text.length + 1, RuleAction.word), (0, .beginComment),
        (matchAny ((c :: text) ++ '\n' :: cs), .error)] = (text.length + 1, .word) := by
      refine longest_cons_of_le fun rule hrule => ?_
      rcases List.mem_cons.mp hrule with rfl | hrule
      · exact Nat.zero_le _
      · rw [List.mem_singleton.mp hrule]
        exact hany.trans (Nat.le_add_left 1 text.length)
    rw [ruleMatches, if_neg Bool.false_ne_true, hline, hwhite, haddress, hword, hopen]
    exact longest_cons_zero (longest_cons_zero (longest_cons_zero htail))
  rw [List.cons_append] at hrule ⊢
  rw [readmemlex, hrule]
  dsimp only
  rw [Nat.add_sub_cancel, List.take_succ_cons, List.take_left, List.drop_left, readmemlex_newline]

end Lines

end Icarus.Vpi
