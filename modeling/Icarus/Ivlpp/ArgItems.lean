import Icarus.Ivlpp.ArgTokens

/-!
# Reading an actual argument

An actual argument is made of characters, white space, strings and brackets that
match. Its tokens add its text to the buffer, with one space for each white
space, if every string and every white space is one token and no token that
begins with an apostrophe hides something.
-/

namespace Icarus.Ivlpp

/-! ## Items -/

/-- A part of a string. -/
inductive StrPart
  | plain (c : Ch)
  /-- A character behind a backslash. -/
  | escape (c : Ch)
  deriving DecidableEq

namespace StrPart

def text : StrPart → CString
  | plain c => [c]
  | escape c => [backslash, c]

/-- A quote and a backslash are escaped, and a string is on one line. -/
def Proper : StrPart → Prop
  | plain c => isStringChar c ∧ c ≠ backslash
  | escape c => isEol c = false

instance : DecidablePred Proper
  | plain c => inferInstanceAs (Decidable (isStringChar c ∧ c ≠ backslash))
  | escape c => inferInstanceAs (Decidable (isEol c = false))

end StrPart

/-- A part of an actual argument, or what is between two. -/
inductive Item
  /-- A character of an identifier, of a number or of an operator. -/
  | char (c : Ch)
  | white (w : CString)
  | string (body : List StrPart)
  | opening (c : Ch)
  | closing (c : Ch)
  | comma
  deriving DecidableEq

namespace Item

def text : Item → CString
  | char c => [c]
  | white w => w
  | string body => quote :: body.flatMap StrPart.text ++ [quote]
  | opening c => [c]
  | closing c => [c]
  | comma => [Ivlpp.comma]

/-- The text with one space for white space. -/
def norm : Item → CString
  | white _ => [space]
  | item => item.text

def Proper : Item → Prop
  | char c => c ≠ quote ∧ isBlank c = false ∧ isEol c = false ∧
      c ∉ [leftParen, leftBrace, rightParen, rightBrace, Ivlpp.comma]
  | white w => w ≠ [] ∧ ∀ c ∈ w, isBlank c ∨ isEol c
  | string body => ∀ part ∈ body, part.Proper
  | opening c => c = leftParen ∨ c = leftBrace
  | closing c => c = rightParen ∨ c = rightBrace
  | comma => True

instance : DecidablePred Proper
  | char c => inferInstanceAs (Decidable (c ≠ quote ∧ isBlank c = false ∧ isEol c = false ∧
      c ∉ [leftParen, leftBrace, rightParen, rightBrace, Ivlpp.comma]))
  | white w => inferInstanceAs (Decidable (w ≠ [] ∧ ∀ c ∈ w, isBlank c ∨ isEol c))
  | string body => inferInstanceAs (Decidable (∀ part ∈ body, part.Proper))
  | opening c => inferInstanceAs (Decidable (c = leftParen ∨ c = leftBrace))
  | closing c => inferInstanceAs (Decidable (c = rightParen ∨ c = rightBrace))
  | comma => .isTrue trivial

/-- Two items are not one white space and not the beginning of a comment. -/
def Apart : Item → Item → Prop
  | white _, white _ => False
  | char c, char d => ¬ (c = slash ∧ (d = slash ∨ d = star))
  | _, _ => True

/-- How many brackets are open behind an item, if it is part of an argument. -/
def level (d : Nat) : Item → Option Nat
  | opening _ => some (d + 1)
  | closing _ => if 0 < d then some (d - 1) else none
  | comma => if 0 < d then some d else none
  | _ => some d

end Item

/-- The text of items. -/
def textOf (items : List Item) : CString := items.flatMap Item.text

/-- The text of items with runs of white space collapsed. -/
def normOf (items : List Item) : CString := items.flatMap Item.norm

/-- How many brackets are open behind items that are part of an argument. -/
def levelAfter : Nat → List Item → Option Nat
  | d, [] => some d
  | d, item :: items => (item.level d).bind fun d => levelAfter d items

/-! ## Items that are tokens -/

/-- White space is one token. -/
def oneToken : CString → Bool
  | [] => false
  | c :: w => if isBlank c then w.all isBlank else (afterEol c w).all isBlank

/-- Behind an apostrophe, the text has a character and an apostrophe. -/
def quoted : CString → Bool
  | d :: e :: _ => !isEol d && e = apostrophe
  | _ => false

/-- Of the items behind an apostrophe, the token takes two that are added as they are. -/
def covers : List Item → Bool
  | .char _ :: .char e :: _ => e = apostrophe
  | .white w :: .char e :: _ => w = [space] && e = apostrophe
  | _ => false

/-- A string without an escaped quote and white space of one token. -/
def Item.Single : Item → Prop
  | white w => oneToken w
  | string body => .escape quote ∉ body
  | _ => True

instance : DecidablePred Item.Single
  | .white w => inferInstanceAs (Decidable (oneToken w = true))
  | .string body => inferInstanceAs (Decidable (.escape quote ∉ body))
  | .char _ | .opening _ | .closing _ | .comma => .isTrue trivial

/-- The tokens of items are the items, or an apostrophe with two items behind it. The number is
how many items the token before has taken. -/
def Legible (rest : CString) : Nat → List Item → Prop
  | _, [] => True
  | k + 1, _ :: items => Legible rest k items
  | 0, item :: items =>
    if item = .char apostrophe ∧ covers items then Legible rest 2 items
    else item.Single ∧ (item = .char apostrophe → quoted (textOf items ++ rest) = false) ∧
      Legible rest 0 items

/-- It can be computed whether items are read back. -/
instance decideLegible (rest : CString) : ∀ k items, Decidable (Legible rest k items)
  | _, [] => .isTrue trivial
  | k + 1, _ :: items => decideLegible rest k items
  | 0, item :: items =>
    have := decideLegible rest 0 items
    have := decideLegible rest 2 items
    inferInstanceAs (Decidable (if item = .char apostrophe ∧ covers items then Legible rest 2 items
      else item.Single ∧ (item = .char apostrophe → quoted (textOf items ++ rest) = false) ∧
        Legible rest 0 items))

/-- What a token needs of the text behind it. -/
def Item.Ends (t : CString) : Item → Prop
  | char c => (c = apostrophe → quoted t = false) ∧
      (c = slash → t.head? ≠ some slash ∧ t.head? ≠ some star)
  | white _ => ∀ d, t.head? = some d → isBlank d = false ∧ isEol d = false
  | _ => True

/-! ## Tokens -/

section Tokens

variable {t : CString}

theorem isStringChar_of_mem {body : List StrPart} (hproper : ∀ part ∈ body, part.Proper)
    (hsingle : .escape quote ∉ body) :
    ∀ c ∈ body.flatMap StrPart.text, isStringChar c = true := by
  intro c hc
  obtain ⟨part, hpart, hc⟩ := List.mem_flatMap.mp hc
  cases part with
  | plain d =>
    obtain rfl := List.mem_singleton.mp hc
    exact (hproper _ hpart).1
  | escape d =>
    have hd : isEol d = false := hproper _ hpart
    rcases List.mem_pair.mp hc with rfl | rfl
    · rfl
    · have hne : c ≠ quote := fun heq => hsingle (heq ▸ hpart)
      simp [isStringChar, hd, hne]

theorem maToken_string {body : CString} (h : ∀ c ∈ body, isStringChar c = true) :
    maToken (quote :: body ++ [quote] ++ t) = some (.text (quote :: body ++ [quote]), t) := by
  have hstop : isStringChar quote = false := rfl
  rw [List.cons_append, List.cons_append, List.append_assoc, List.singleton_append, maToken,
    if_pos rfl, stringToken, List.dropWhile_append_of_pos h, List.takeWhile_append_of_pos h,
    List.dropWhile_cons_of_neg (by simp [hstop]), List.takeWhile_cons_of_neg (by simp [hstop]),
    List.append_nil]
  exact if_pos rfl

/-- White space goes on up to what is no blank. -/
theorem maToken_white {w : CString} (hne : ∀ c ∈ w, isBlank c ∨ isEol c) (hone : oneToken w = true)
    (ht : ∀ d, t.head? = some d → isBlank d = false ∧ isEol d = false) :
    maToken (w ++ t) = some (.white, t) := by
  have hdrop : t.dropWhile isBlank = t := by
    cases t with
    | nil => rfl
    | cons d t => rw [List.dropWhile_cons_of_neg (by simp [(ht d rfl).1])]
  have hall : ∀ u : CString, u.all isBlank = true → (u ++ t).dropWhile isBlank = t := fun u hu => by
    rw [List.dropWhile_append_of_pos (List.all_eq_true.mp hu), hdrop]
  cases w with
  | nil => exact absurd hone (by simp [oneToken])
  | cons c w =>
    have hc := hne c (List.mem_cons_self ..)
    have hplain : c ≠ quote ∧ c ≠ apostrophe := by
      constructor <;> rintro rfl <;> exact absurd hc (by decide)
    rw [oneToken] at hone
    rw [List.cons_append, maToken, if_neg hplain.1, if_neg hplain.2]
    by_cases hblank : isBlank c = true
    · rw [if_pos hblank] at hone
      rw [if_pos hblank, hall w hone]
    · have heol : afterEol c (w ++ t) = afterEol c w ++ t := by
        cases w with
        | cons d w =>
          rw [List.cons_append, afterEol, afterEol]
          split_ifs <;> rfl
        | nil =>
          cases t with
          | nil => rfl
          | cons d t =>
            have hd : ¬ (isEol d ∧ d ≠ c) := by simp [(ht d rfl).2]
            exact if_neg hd
      rw [if_neg hblank] at hone
      rw [if_neg hblank, if_pos (hc.resolve_left hblank), heol, hall _ hone]

theorem apostropheToken_of_quoted (h : quoted t = false) :
    apostropheToken t = (.text [apostrophe], t) := by
  rcases t with - | ⟨d, - | ⟨e, t⟩⟩
  · rfl
  · rfl
  · refine if_neg fun hd => ?_
    rw [quoted, hd.1, hd.2] at h
    exact absurd h (by decide)

/-- A character is a token if it begins no comment. -/
theorem maToken_char {c : Ch} (hproper : (Item.char c).Proper) (hends : (Item.char c).Ends t) :
    maToken (c :: t) = some (.text [c], t) := by
  obtain ⟨hquote, hblank, heol, hmem⟩ := hproper
  obtain ⟨happ, hslash⟩ := hends
  simp only [List.mem_cons, List.not_mem_nil, or_false, not_or] at hmem
  obtain ⟨hleft, hleft', hright, hright', hcomma⟩ := hmem
  rw [maToken, if_neg hquote]
  by_cases hc : c = apostrophe
  · rw [if_pos hc, hc, apostropheToken_of_quoted (happ hc)]
  · have hcomment : ∀ d, d = slash ∨ d = star → ¬ (c = slash ∧ t.head? = some d) := by
      rintro d (rfl | rfl) ⟨rfl, hd⟩
      · exact (hslash rfl).1 hd
      · exact (hslash rfl).2 hd
    rw [if_neg hc, if_neg (by simp [hblank]), if_neg (by simp [heol]),
      if_neg (not_or.mpr ⟨hleft, hleft'⟩), if_neg (not_or.mpr ⟨hright, hright'⟩), if_neg hcomma,
      if_neg (hcomment slash (.inl rfl)), if_neg (hcomment star (.inr rfl))]

/-- An apostrophe takes two characters. -/
theorem maToken_quoted {d : Ch} (hd : isEol d = false) :
    maToken (apostrophe :: d :: apostrophe :: t) = some (.text [apostrophe, d, apostrophe], t) := by
  have hquote : apostrophe ≠ quote := by decide
  rw [maToken, if_neg hquote, if_pos rfl, apostropheToken, if_pos ⟨hd, rfl⟩]

end Tokens

/-! ## Actions -/

section Actions

variable {s t : CString} {d d' : Nat} {b : ArgBuf}

/-- The action of a token. -/
theorem maAdd_of_token (d : Nat) (b : ArgBuf) {token : MaToken} :
    maToken s = some (token, t) → maAdd s d b =
      match token with
      | .text u => (b.addToArg u).bind fun b => maAdd t d b
      | .white => (b.addToArg [space]).bind fun b => maAdd t d b
      | .opening c => (b.addToArg [c]).bind fun b => maAdd t (d + 1) b
      | .comma =>
        if 0 < d then (b.addToArg [comma]).bind fun b => maAdd t d b
        else b.finishArg.bind fun b => maAdd t d b
      | .closing c =>
        if 0 < d then (b.addToArg [c]).bind fun b => maAdd t (d - 1) b
        else b.finishArg.map fun b => (b, t)
      | .comment => maAdd t d b := by
  intro h
  rw [maAdd]
  split <;> rename_i heq <;> cases h.symm.trans heq <;> rfl

theorem maToken_opening {c : Ch} (h : (Item.opening c).Proper) :
    maToken (c :: t) = some (.opening c, t) := by
  rcases h with rfl | rfl <;> rfl

theorem maToken_closing {c : Ch} (h : (Item.closing c).Proper) :
    maToken (c :: t) = some (.closing c, t) := by
  rcases h with rfl | rfl <;> rfl

theorem maToken_comma : maToken (comma :: t) = some (.comma, t) := rfl

/-- An item inside of an argument is added as one token. -/
theorem maAdd_item {item : Item} (hproper : item.Proper) (hsingle : item.Single)
    (hends : item.Ends t) (hlevel : item.level d = some d') (b : ArgBuf) :
    maAdd (item.text ++ t) d b = (b.addToArg item.norm).bind fun b => maAdd t d' b := by
  cases item with
  | char c =>
    obtain rfl := Option.some.inj hlevel
    exact maAdd_of_token d b (maToken_char hproper hends)
  | white w =>
    obtain rfl := Option.some.inj hlevel
    exact maAdd_of_token d b (maToken_white hproper.2 hsingle hends)
  | string body =>
    obtain rfl := Option.some.inj hlevel
    exact maAdd_of_token d b (maToken_string (isStringChar_of_mem hproper hsingle))
  | opening c =>
    obtain rfl := Option.some.inj hlevel
    exact maAdd_of_token d b (maToken_opening hproper)
  | closing c =>
    obtain ⟨hpos, hd⟩ := Option.ite_none_right_eq_some.mp hlevel
    obtain rfl := Option.some.inj hd
    exact (maAdd_of_token d b (maToken_closing hproper)).trans (if_pos hpos)
  | comma =>
    obtain ⟨hpos, hd⟩ := Option.ite_none_right_eq_some.mp hlevel
    obtain rfl := Option.some.inj hd
    exact (maAdd_of_token d b maToken_comma).trans (if_pos hpos)

end Actions

/-! ## Arguments -/

section Arguments

variable {rest : CString} {items l more : List Item} {item next : Item} {d d' : Nat} {b : ArgBuf}

theorem text_ne_nil (h : item.Proper) : item.text ≠ [] := by
  cases item with
  | white w => exact h.1
  | _ => exact List.cons_ne_nil _ _

theorem norm_ne_nil (h : item.Proper) : item.norm ≠ [] := by
  cases item with
  | white w => exact List.cons_ne_nil _ _
  | _ => exact text_ne_nil h

/-- Only a character begins a comment. -/
theorem eq_char_of_head {c : Ch} (h : item.Proper) (hhead : item.text.head? = some c)
    (hc : c = slash ∨ c = star) : item = .char c := by
  have hnot : ¬ (isBlank c ∨ isEol c) ∧
      c ∉ [quote, leftParen, leftBrace, rightParen, rightBrace, comma] := by
    rcases hc with rfl | rfl <;> decide
  cases item with
  | char d =>
    obtain rfl : d = c := Option.some.inj hhead
    rfl
  | white w =>
    obtain ⟨w', rfl⟩ := List.head?_eq_some_iff.mp hhead
    exact absurd (h.2 c (List.mem_cons_self ..)) hnot.1
  | string body =>
    obtain rfl : quote = c := Option.some.inj hhead
    exact absurd hnot.2 (by decide)
  | opening d =>
    obtain rfl : d = c := Option.some.inj hhead
    rcases h with rfl | rfl <;> exact absurd hnot.2 (by decide)
  | closing d =>
    obtain rfl : d = c := Option.some.inj hhead
    rcases h with rfl | rfl <;> exact absurd hnot.2 (by decide)
  | comma =>
    obtain rfl : Ivlpp.comma = c := Option.some.inj hhead
    exact absurd hnot.2 (by decide)

/-- Only white space begins with white space. -/
theorem eq_white_of_head {c : Ch} (h : item.Proper) (hhead : item.text.head? = some c)
    (hc : ¬ (isBlank c = false ∧ isEol c = false)) : ∃ w, item = .white w := by
  cases item with
  | char d =>
    obtain rfl : d = c := Option.some.inj hhead
    exact absurd ⟨h.2.1, h.2.2.1⟩ hc
  | white w => exact ⟨w, rfl⟩
  | string body =>
    obtain rfl : quote = c := Option.some.inj hhead
    exact absurd (by decide) hc
  | opening d =>
    obtain rfl : d = c := Option.some.inj hhead
    rcases h with rfl | rfl <;> exact absurd (by decide) hc
  | closing d =>
    obtain rfl : d = c := Option.some.inj hhead
    rcases h with rfl | rfl <;> exact absurd (by decide) hc
  | comma =>
    obtain rfl : Ivlpp.comma = c := Option.some.inj hhead
    exact absurd (by decide) hc

/-- A token ends where an item begins that is apart. -/
theorem ends_of_apart (hapart : item.Apart next) (hnext : next.Proper)
    (hquoted : item = .char apostrophe → quoted (textOf (next :: items) ++ rest) = false) :
    item.Ends (textOf (next :: items) ++ rest) := by
  have hhead : (textOf (next :: items) ++ rest).head? = next.text.head? := by
    obtain ⟨c, t, ht⟩ := List.exists_cons_of_ne_nil (text_ne_nil hnext)
    rw [textOf, List.flatMap_cons, ht]
    rfl
  cases item with
  | char c =>
    refine ⟨fun hc => hquoted (congrArg _ hc), fun hc => ?_⟩
    rw [hhead]
    constructor
    · intro h
      obtain rfl := eq_char_of_head hnext h (.inl rfl)
      exact hapart ⟨hc, .inl rfl⟩
    · intro h
      obtain rfl := eq_char_of_head hnext h (.inr rfl)
      exact hapart ⟨hc, .inr rfl⟩
  | white w =>
    intro c hc
    by_contra hnot
    obtain ⟨w', rfl⟩ := eq_white_of_head hnext (hhead.symm.trans hc) hnot
    exact hapart
  | _ => trivial

/-- What stands behind an argument. -/
def Separates (items : List Item) : Prop :=
  items.head? = some .comma ∨ items.head? = some (.closing rightParen)

/-- An item is a token, or an apostrophe that takes two items. -/
theorem Legible.head (h : Legible rest 0 (item :: items)) :
    (item.Single ∧ (item = .char apostrophe → quoted (textOf items ++ rest) = false) ∧
      Legible rest 0 items) ∨
    (item = .char apostrophe ∧ covers items ∧ Legible rest 2 items) := by
  rw [Legible] at h
  split_ifs at h with hc
  · exact .inr ⟨hc.1, hc.2, h⟩
  · exact .inl h

/-- The items that an apostrophe takes are of the same argument. -/
theorem exists_of_covers (hmore : Separates more) (h : covers (l ++ more) = true) :
    ∃ x l', l = x :: .char apostrophe :: l' ∧ ((∃ c, x = .char c) ∨ x = .white [space]) := by
  rcases l with - | ⟨x, - | ⟨y, l⟩⟩
  · rcases more with - | ⟨z, more⟩
    · exact absurd h (by simp [covers])
    · rcases hmore with hz | hz <;> obtain rfl := Option.some.inj hz <;>
        exact absurd h (by simp [covers])
  · rcases more with - | ⟨z, more⟩
    · cases x <;> exact absurd h (by simp [covers])
    · rcases hmore with hz | hz <;> obtain rfl := Option.some.inj hz <;> cases x <;>
        exact absurd h (by simp [covers])
  · cases x with
    | char c =>
      cases y with
      | char e =>
        obtain rfl : e = apostrophe := by simpa [covers] using h
        exact ⟨_, l, rfl, .inl ⟨c, rfl⟩⟩
      | _ => exact absurd h (by simp [covers])
    | white w =>
      cases y with
      | char e =>
        obtain ⟨rfl, rfl⟩ : w = [space] ∧ e = apostrophe := by simpa [covers] using h
        exact ⟨_, l, rfl, .inr rfl⟩
      | _ => exact absurd h (by simp [covers])
    | _ => exact absurd h (by simp [covers])

/-- What is behind an argument begins with a token. -/
theorem Legible.of_append (hmore : Separates more) (h : Legible rest 0 (l ++ more)) :
    Legible rest 0 more := by
  induction hn : l.length using Nat.strong_induction_on generalizing l with
  | _ n ih =>
    cases l with
    | nil => exact h
    | cons item l =>
      rw [List.length_cons] at hn
      rcases h.head with ⟨-, -, hnext⟩ | ⟨-, hcovers, hnext⟩
      · exact ih l.length (by omega) hnext rfl
      · obtain ⟨x, l', rfl, -⟩ := exists_of_covers hmore hcovers
        rw [List.length_cons, List.length_cons] at hn
        exact ih l'.length (by omega) hnext rfl

/-- The items of an argument are added, with one space for each white space. -/
theorem maAdd_items (hproper : ∀ item ∈ l ++ more, item.Proper)
    (hapart : (l ++ more).IsChain Item.Apart) (hmore : Separates more)
    (hlegible : Legible rest 0 (l ++ more)) (hlevel : levelAfter d l = some d') (hb : b.Sound)
    (hargc : b.argc < 256) :
    maAdd (textOf (l ++ more) ++ rest) d b =
      (b.addText (normOf l)).bind fun b => maAdd (textOf more ++ rest) d' b := by
  induction hn : l.length using Nat.strong_induction_on generalizing l d b with
  | _ n ih =>
    cases l with
    | nil =>
      obtain rfl := Option.some.inj hlevel
      rfl
    | cons item l =>
      have hitem := hproper item (List.mem_cons_self ..)
      rw [List.length_cons] at hn
      rw [List.cons_append] at hproper hapart hlegible ⊢
      rcases hlegible.head with ⟨hsingle, hquoted, hnext⟩ | ⟨rfl, hcovers, hnext⟩
      · obtain ⟨d₁, hd₁, hlevel⟩ := Option.bind_eq_some_iff.mp hlevel
        have hends : item.Ends (textOf (l ++ more) ++ rest) := by
          obtain ⟨next, items, heq⟩ : ∃ next items, l ++ more = next :: items := by
            refine List.exists_cons_of_ne_nil fun hnil => ?_
            rw [(List.append_eq_nil_iff.mp hnil).2] at hmore
            exact hmore.elim (fun h => nomatch h) fun h => nomatch h
          rw [heq] at hproper hapart hquoted ⊢
          exact ends_of_apart (List.isChain_cons_cons.mp hapart).1
            (hproper next (List.mem_cons_of_mem _ (List.mem_cons_self ..))) hquoted
        have hstep := fun b => maAdd_item hitem hsingle hends hd₁ b
        rw [textOf, List.flatMap_cons, List.append_assoc, normOf, List.flatMap_cons]
        refine (hstep b).trans (ArgBuf.addToArg_bind hb hargc (norm_ne_nil hitem) ?_)
        intro b' hb' hargc'
        exact ih l.length (by omega) (fun i hi => hproper i (List.mem_cons_of_mem _ hi))
          hapart.of_cons hnext hlevel hb' hargc' rfl
      · obtain ⟨x, l', rfl, hx⟩ := exists_of_covers hmore hcovers
        obtain ⟨c, htext, hnorm, heol, hsame⟩ : ∃ c, x.text = [c] ∧ x.norm = [c] ∧
            isEol c = false ∧ ∀ k, x.level k = some k := by
          rcases hx with ⟨c, rfl⟩ | rfl
          · have hc := hproper (.char c) (by simp)
            exact ⟨c, rfl, rfl, hc.2.2.1, fun _ => rfl⟩
          · exact ⟨space, rfl, rfl, rfl, fun _ => rfl⟩
        have hlevel' : levelAfter d l' = some d' := by
          have h : ((x.level d).bind fun d => levelAfter d l') = some d' := hlevel
          rwa [hsame] at h
        have htoken : textOf (.char apostrophe :: (x :: .char apostrophe :: l' ++ more)) ++ rest =
            apostrophe :: c :: apostrophe :: (textOf (l' ++ more) ++ rest) := by
          rw [textOf, List.flatMap_cons, List.cons_append, List.flatMap_cons, htext]
          rfl
        have hwhole : normOf (.char apostrophe :: x :: .char apostrophe :: l') =
            [apostrophe, c, apostrophe] ++ normOf l' := by
          rw [normOf, List.flatMap_cons, List.flatMap_cons, hnorm]
          rfl
        rw [List.length_cons, List.length_cons] at hn
        rw [htoken, hwhole]
        refine (maAdd_of_token d b (maToken_quoted heol)).trans
          (ArgBuf.addToArg_bind hb hargc (List.cons_ne_nil _ _) ?_)
        intro b' hb' hargc'
        exact ih l'.length (by omega)
          (fun i hi => hproper i (List.mem_cons_of_mem _ (List.mem_cons_of_mem _
            (List.mem_cons_of_mem _ hi))))
          hapart.of_cons.of_cons.of_cons hnext hlevel' hb' hargc' rfl

end Arguments

end Icarus.Ivlpp
