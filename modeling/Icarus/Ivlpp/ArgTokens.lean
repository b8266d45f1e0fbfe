import Icarus.Ivlpp.ArgBuffer

/-!
# The tokens of actual arguments

The rules of the state `MA_ADD`: the longest match counts, and the first rule of
those. A string ends at the next quote, and any character between two
apostrophes is a token with them.
-/

namespace Icarus.Ivlpp

def quote : Ch := ch 34

def apostrophe : Ch := ch 39

def leftParen : Ch := ch 40

def rightParen : Ch := ch 41

def comma : Ch := ch 44

def leftBrace : Ch := ch 123

def rightBrace : Ch := ch 125

/-- The characters of `W`. -/
def isBlank (c : Ch) : Bool := c.1.1 = 32 || c.1.1 = 9 || c.1.1 = 8 || c.1.1 = 12

/-- The ends of a line. -/
def isEol (c : Ch) : Bool := c.1.1 = 10 || c.1.1 = 13

/-- The characters that the pattern of a string goes over. -/
def isStringChar (c : Ch) : Bool := c ≠ quote && !isEol c

/-- The text behind the end of a line, which may have two characters. -/
def afterEol (c : Ch) : CString → CString
  | [] => []
  | d :: rest => if isEol d ∧ d ≠ c then rest else d :: rest

/-- What a rule matches. -/
inductive MaToken
  /-- A string, a character between apostrophes, or one that no other rule matches. -/
  | text (t : CString)
  /-- Blanks, or the end of a line with the blanks behind it. -/
  | white
  /-- `[({]`. -/
  | opening (c : Ch)
  /-- `[)}]`. -/
  | closing (c : Ch)
  /-- A comma. -/
  | comma
  /-- A comment. -/
  | comment
  deriving DecidableEq

/-- A string, behind its first quote. One that does not end on its line is an error. -/
def stringToken (cs : CString) : Option (MaToken × CString) :=
  match cs.dropWhile isStringChar with
  | [] => none
  | d :: rest =>
    if d = quote then some (.text (quote :: cs.takeWhile isStringChar ++ [quote]), rest) else none

/-- An apostrophe, with the character and the apostrophe behind it if there are these. -/
def apostropheToken : CString → MaToken × CString
  | d :: e :: rest =>
    if isEol d = false ∧ e = apostrophe then (.text [apostrophe, d, e], rest)
    else (.text [apostrophe], d :: e :: rest)
  | cs => (.text [apostrophe], cs)

/-- The next token and the text behind it. -/
def maToken : CString → Option (MaToken × CString)
  | [] => none
  | c :: cs =>
    if c = quote then stringToken cs
    else if c = apostrophe then some (apostropheToken cs)
    else if isBlank c then some (.white, cs.dropWhile isBlank)
    else if isEol c then some (.white, (afterEol c cs).dropWhile isBlank)
    else if c = leftParen ∨ c = leftBrace then some (.opening c, cs)
    else if c = rightParen ∨ c = rightBrace then some (.closing c, cs)
    else if c = comma then some (.comma, cs)
    else if c = slash ∧ cs.head? = some slash then
      some (.comment, cs.dropWhile fun d => !isEol d)
    else if c = slash ∧ cs.head? = some star then
      (afterComment cs.tail).map fun rest => (.comment, rest)
    else some (.text [c], cs)

theorem length_afterEol_le (c : Ch) (cs : CString) : (afterEol c cs).length ≤ cs.length := by
  cases cs with
  | nil => exact Nat.le_refl _
  | cons d rest =>
    rw [afterEol]
    split_ifs
    · exact Nat.le_succ _
    · exact Nat.le_refl _

theorem length_afterComment_le {cs rest : CString} (h : afterComment cs = some rest) :
    rest.length ≤ cs.length := by
  induction cs with
  | nil => exact absurd h (by simp [afterComment])
  | cons c cs ih =>
    rw [afterComment] at h
    split_ifs at h
    · rw [← Option.some.inj h, List.length_tail, List.length_cons]
      omega
    · exact (ih h).trans (Nat.le_succ _)

theorem length_stringToken_le {cs rest : CString} {token : MaToken}
    (h : stringToken cs = some (token, rest)) : rest.length ≤ cs.length := by
  have hle := (List.dropWhile_suffix (l := cs) isStringChar).length_le
  rw [stringToken] at h
  cases hdrop : cs.dropWhile isStringChar with
  | nil =>
    rw [hdrop] at h
    exact absurd h (by simp)
  | cons d rest' =>
    rw [hdrop] at h hle
    dsimp only at h
    split_ifs at h
    obtain ⟨-, rfl⟩ := Prod.mk.inj (Option.some.inj h)
    exact (Nat.le_succ _).trans hle

theorem length_apostropheToken_le (cs : CString) : (apostropheToken cs).2.length ≤ cs.length := by
  rcases cs with - | ⟨d, - | ⟨e, rest⟩⟩
  · exact Nat.le_refl _
  · exact Nat.le_refl _
  · rw [apostropheToken]
    split_ifs
    · exact (Nat.le_succ _).trans (Nat.le_succ _)
    · exact Nat.le_refl _

/-- A token is not empty. -/
theorem length_maToken_lt {text rest : CString} {token : MaToken}
    (h : maToken text = some (token, rest)) : rest.length < text.length := by
  cases text with
  | nil => exact absurd h (by simp [maToken])
  | cons c cs =>
    have hdrop : ∀ (p : Ch → Bool) (l : CString), (l.dropWhile p).length ≤ l.length :=
      fun p l => (List.dropWhile_suffix p).length_le
    rw [List.length_cons, Nat.lt_succ_iff]
    rw [maToken] at h
    split_ifs at h
    · exact length_stringToken_le h
    · obtain rfl := (Prod.ext_iff.mp (Option.some.inj h)).2
      exact length_apostropheToken_le cs
    · obtain ⟨-, rfl⟩ := Prod.mk.inj (Option.some.inj h)
      exact hdrop _ _
    · obtain ⟨-, rfl⟩ := Prod.mk.inj (Option.some.inj h)
      exact (hdrop _ _).trans (length_afterEol_le c cs)
    · obtain ⟨-, rfl⟩ := Prod.mk.inj (Option.some.inj h)
      exact Nat.le_refl _
    · obtain ⟨-, rfl⟩ := Prod.mk.inj (Option.some.inj h)
      exact Nat.le_refl _
    · obtain ⟨-, rfl⟩ := Prod.mk.inj (Option.some.inj h)
      exact Nat.le_refl _
    · obtain ⟨-, rfl⟩ := Prod.mk.inj (Option.some.inj h)
      exact hdrop _ _
    · obtain ⟨rest', hrest, heq⟩ := Option.map_eq_some_iff.mp h
      obtain ⟨-, rfl⟩ := Prod.mk.inj heq
      refine (length_afterComment_le hrest).trans ?_
      rw [List.length_tail]
      exact Nat.sub_le _ _
    · obtain ⟨-, rfl⟩ := Prod.mk.inj (Option.some.inj h)
      exact Nat.le_refl _

/-- The actions of the rules, up to the bracket that ends the arguments: the buffer and the text
behind it. The number is `ma_parenthesis_level`. -/
def maAdd (text : CString) (level : Nat) (b : ArgBuf) : Option (ArgBuf × CString) :=
  match _h : maToken text with
  | none => none
  | some (.text t, rest) => (b.addToArg t).bind fun b => maAdd rest level b
  | some (.white, rest) => (b.addToArg [space]).bind fun b => maAdd rest level b
  | some (.opening c, rest) => (b.addToArg [c]).bind fun b => maAdd rest (level + 1) b
  | some (.comma, rest) =>
    if 0 < level then (b.addToArg [comma]).bind fun b => maAdd rest level b
    else b.finishArg.bind fun b => maAdd rest level b
  | some (.closing c, rest) =>
    if 0 < level then (b.addToArg [c]).bind fun b => maAdd rest (level - 1) b
    else b.finishArg.map fun b => (b, rest)
  | some (.comment, rest) => maAdd rest level b
termination_by text.length
decreasing_by all_goals exact length_maToken_lt _h

/-- The argument list of a macro use, behind its left parenthesis. -/
def maArgs (b : ArgBuf) (level : Nat) (text : CString) : Option (ArgBuf × CString) :=
  b.startArgs.bind fun b => maAdd text level b

end Icarus.Ivlpp
