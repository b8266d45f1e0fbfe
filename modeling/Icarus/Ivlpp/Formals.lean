import Icarus.Ivlpp.Precompiled

/-!
# Formal arguments of macros

`do_define` collects the text of a macro line by line and puts a marker with the number of the
argument in the place of each formal argument. `expand_using_args` puts the actual arguments in
the place of the markers.
-/

namespace Icarus.Ivlpp

/-- A character with a code from 1 to 255. -/
def ch (n : Nat) : Ch := ⟨⟨(n - 1) % 255 + 1, by omega⟩, fun h => absurd (congrArg Fin.val h) (by
  show (n - 1) % 255 + 1 ≠ 0
  omega)⟩

/-- `ARG_MARK`. -/
def argMark : Ch := ch 7

def slash : Ch := ch 47

def star : Ch := ch 42

def backslash : Ch := ch 92

/-- `isspace`. -/
def isSpace (c : Ch) : Bool := c.1.1 = 32 || 9 ≤ c.1.1 && c.1.1 ≤ 13

/-- `is_id_char`. -/
def isIdChar (c : Ch) : Bool :=
  48 ≤ c.1.1 && c.1.1 ≤ 57 || 65 ≤ c.1.1 && c.1.1 ≤ 90 || 97 ≤ c.1.1 && c.1.1 ≤ 122 ||
    c.1.1 = 95 || c.1.1 = 36

/-! ## A line of the text -/

/-- A line before its formal arguments are replaced, with the flags that it leaves. -/
structure Line where
  text : CString
  /-- `define_continue_flag`. -/
  continued : Bool
  /-- `define_comment_flag`. -/
  comment : Bool

/-- A character in front of a line. -/
def Line.push (c : Ch) (l : Line) : Line := { l with text := c :: l.text }

def endsBackslash (s : CString) : Bool := s.getLast? = some backslash

/-- What follows the first end of a comment. -/
def afterComment : CString → Option CString
  | [] => none
  | c :: cs => if c = star ∧ cs.head? = some slash then some cs.tail else afterComment cs

/-- A comment that does not end on the line. -/
def openComment (search : CString) : Line :=
  if endsBackslash search then ⟨[backslash], true, true⟩ else ⟨[], false, false⟩

/-- The loop that removes the comments. -/
def removeComments : Nat → CString → Line
  | 0, text => ⟨text, false, false⟩
  | _ + 1, [] => ⟨[], false, false⟩
  | fuel + 1, c :: cs =>
    if c = slash then
      if cs.head? = some slash then
        if endsBackslash cs then ⟨[backslash], true, false⟩ else ⟨[], false, false⟩
      else if cs.head? = some star then
        match afterComment cs.tail with
        | some tail => removeComments fuel tail
        | none => openComment cs.tail
      else (removeComments fuel cs).push c
    else (removeComments fuel cs).push c

/-- The trailing white space goes, and a continuation becomes a newline. -/
def finishLine (l : Line) : Line :=
  let text := l.text.rdropWhile isSpace
  if endsBackslash text then
    ⟨text.dropLast.rdropWhile isSpace ++ [newline], true, l.comment⟩
  else { l with text := text }

/-- `do_define` up to the accumulation of the line. -/
def lineOf (comment : Bool) (yytext : CString) : Line :=
  if comment then
    match afterComment yytext with
    | some tail => finishLine (removeComments tail.length tail)
    | none => { openComment yytext with text := [] }
  else finishLine (removeComments yytext.length yytext)

/-! ## Formal arguments -/

/-- The text goes on with an identifier character. -/
def idHead : CString → Bool
  | [] => false
  | c :: _ => isIdChar c

/-- The character before, if there is one, is an identifier character. -/
def idBefore : Option Ch → Bool
  | none => false
  | some c => isIdChar c

/-- The argument is a whole identifier of the text. -/
def argHere (arg : CString) (prev : Option Ch) (text : CString) : Bool :=
  arg.isPrefixOf text && !idBefore prev && !idHead (text.drop arg.length)

/-- `find_arg`: the text up to the argument, and from the argument on. -/
def findArg (arg : CString) : Option Ch → CString → Option (CString × CString)
  | _, [] => none
  | prev, c :: cs =>
    if argHere arg prev (c :: cs) then some ([], c :: cs)
    else (findArg arg (some c) cs).map fun (before, rest) => (c :: before, rest)

/-- The line with the counts `define_cnt` and `added_cnt`. -/
structure Counted where
  text : CString
  cnt : Int
  added : Int

/-- The counts after a replacement. -/
def Counted.grow (argl : Nat) (s : Counted) : Counted :=
  let added := s.added + (2 - argl)
  if 0 < added then { s with cnt := s.cnt + added, added := 0 } else { s with added := added }

/-- The loop that replaces an argument, each turn of which takes at least a character. -/
def replaceArg (arg : CString) (num : Nat) : Nat → Option Ch → Counted → Counted
  | 0, _, s => s
  | fuel + 1, prev, s =>
    match findArg arg prev s.text with
    | none => s
    | some (before, rest) =>
      let s' := replaceArg arg num fuel (some (ch num))
        ({ s with text := rest.drop arg.length }.grow arg.length)
      { s' with text := before ++ argMark :: ch num :: s'.text }

/-- The loop over the arguments, which are numbered from 1. -/
def replaceArgs (formals : List CString) (s : Counted) : Counted :=
  (formals.zipIdx 1).foldl (fun s arg => replaceArg arg.1 arg.2 s.text.length none s) s

/-- `define_text`, `define_cnt` and `define_comment_flag`. -/
structure DefineText where
  text : CString
  cnt : Int
  comment : Bool

/-- `do_define`. A text with a marker of its own gives no macro. -/
def doDefine (formals : List CString) (s : DefineText) (yytext : CString) : Option DefineText :=
  let line := lineOf s.comment yytext
  if formals ≠ [] ∧ argMark ∈ line.text then none
  else
    let r := replaceArgs formals ⟨line.text, s.cnt + line.text.length, 0⟩
    some ⟨s.text.take s.cnt.toNat ++ r.text, r.cnt + r.added, line.comment⟩

/-- The text of a macro after its lines. -/
def defineText (formals : List CString) (lines : List CString) : Option DefineText :=
  lines.foldlM (doDefine formals) ⟨[], 0, false⟩

/-! ## Actual arguments -/

/-- The text that is used for an argument. -/
def useArg (m : Macro) (actuals : List CString) (arg : Nat) : CString :=
  let argv := (actuals[arg - 1]?).getD []
  if argv = [] then ((m.defaults[arg]?).join).getD argv else argv

/-- The loop of `expand_using_args`. A number is a plain `char`, so from 128 on it is negative and
not the index of an argument. -/
def expandLoop (argc : Nat) (use : Nat → CString) : CString → Option CString
  | [] => some []
  | [c] => if c = argMark then none else some [c]
  | c :: num :: cs =>
    if c = argMark then
      if 128 ≤ num.1.1 then none
      else if num.1.1 < argc then (expandLoop argc use cs).map fun text => use num.1.1 ++ text
      else none
    else (expandLoop argc use (num :: cs)).map fun text => c :: text

/-- The arguments are as many as the macro has, but for those with a default text at the end. -/
def Accepts (m : Macro) (actuals : List CString) : Prop :=
  actuals.length + 1 ≤ m.argc ∧
    ∀ arg, actuals.length < arg → arg < m.argc → ((m.defaults[arg]?).join).isSome = true

instance (m : Macro) (actuals : List CString) : Decidable (Accepts m actuals) :=
  haveI : Decidable (∀ arg, actuals.length < arg → arg < m.argc →
      ((m.defaults[arg]?).join).isSome = true) :=
    decidable_of_iff (∀ arg < m.argc, actuals.length < arg →
      ((m.defaults[arg]?).join).isSome = true)
      ⟨fun h arg hlo hhi => h arg hhi hlo, fun h arg hhi hlo => h arg hlo hhi⟩
  inferInstanceAs (Decidable (_ ∧ _))

/-- `expand_using_args`: the text, or an error message and no text. -/
def expandUsingArgs (m : Macro) (actuals : List CString) : Option (Option CString) :=
  if Accepts m actuals then (expandLoop m.argc (useArg m actuals) m.value).map some
  else some none

/-! ## The text that is expected -/

/-- The lines of a macro, without comments and continuations. -/
def bodyOf : Bool → List CString → CString
  | _, [] => []
  | comment, yytext :: lines =>
    (lineOf comment yytext).text ++ bodyOf (lineOf comment yytext).comment lines

/-- Each line but the last is continued. -/
def Continued : Bool → List CString → Prop
  | _, [] => True
  | comment, yytext :: lines => (lines ≠ [] → (lineOf comment yytext).continued = true) ∧
      Continued (lineOf comment yytext).comment lines

/-- A piece of a text: an identifier, another character, or markers and the number of an
argument. -/
inductive Piece
  | word (w : CString)
  | char (c : Ch)
  | marks (more : Nat) (arg : Nat)
  deriving DecidableEq

/-- The identifiers and the other characters of a text. -/
def pieces : CString → List Piece
  | [] => []
  | c :: cs =>
    if isIdChar c then
      match pieces cs with
      | .word w :: ps => .word (c :: w) :: ps
      | ps => .word [c] :: ps
    else .char c :: pieces cs

/-- A piece with the arguments in the place of the formals. -/
def Piece.expanded (formals : List CString) (use : Nat → CString) : Piece → CString
  | .word w => if w ∈ formals then use (formals.idxOf w + 1) else w
  | .char c => [c]
  | .marks _ arg => use arg

/-- The text with each formal argument, as a whole identifier, replaced. -/
def substituted (formals : List CString) (use : Nat → CString) (body : CString) : CString :=
  (pieces body).flatMap (Piece.expanded formals use)

/-- The macro with a text. -/
def macroOf (formals : List CString) (defaults : List (Option CString)) (text : CString) : Macro :=
  ⟨text, false, formals.length + 1, none :: defaults⟩

/-- Each use of the macro gives its text with the actual arguments. -/
def Expands (formals : List CString) (defaults : List (Option CString)) (lines : List CString) :
    Prop :=
  ∃ s, defineText formals lines = some s ∧
    ∀ actuals, Accepts (macroOf formals defaults s.text) actuals →
      expandUsingArgs (macroOf formals defaults s.text) actuals = some (some
        (substituted formals (useArg (macroOf formals defaults s.text) actuals)
          (bodyOf false lines)))

/-- A formal argument of the text has a number below 128, and no later formal argument is the
character with that number. -/
def Markable (formals : List CString) (body : CString) : Prop :=
  ∀ (i : Nat) (f : CString), formals[i]? = some f → .word f ∈ pieces body →
    i + 1 < 128 ∧ ∀ (j : Nat) (g : CString), formals[j]? = some g → i < j → g ≠ [ch (i + 1)]

/-- The formal arguments are identifiers. -/
def Identifiers (formals : List CString) : Prop :=
  ∀ f ∈ formals, f ≠ [] ∧ ∀ c ∈ f, isIdChar c = true

end Icarus.Ivlpp
