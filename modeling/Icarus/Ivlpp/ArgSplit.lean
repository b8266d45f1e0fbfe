import Icarus.Ivlpp.ArgItems
import Mathlib.Data.List.Chain

/-!
# Splitting actual arguments

The argument list of a macro use is split at its commas and ends at its
parenthesis, and each actual argument is in the buffer, if the list can be read
and there is room for the texts.
-/

namespace Icarus.Ivlpp

/-- An actual argument. -/
structure Actual where
  items : List Item
  /-- Its items are characters, white space, strings, brackets and commas. -/
  proper : ∀ item ∈ items, item.Proper
  /-- White space is one item, and there is no comment. -/
  apart : items.IsChain Item.Apart
  /-- Its brackets match, and its commas are inside of them. -/
  balanced : levelAfter 0 items = some 0

/-- The text that is collected. -/
def Actual.norm (a : Actual) : CString := normOf a.items

/-- The text that expansions take. -/
def Actual.value (a : Actual) : CString := trimmed a.norm

/-- The actual arguments with the commas between them. -/
def commaList (a : Actual) : List Actual → List Item
  | [] => a.items
  | next :: more => a.items ++ .comma :: commaList next more

/-- The argument list behind its left parenthesis. -/
def argList (a : Actual) (more : List Actual) : List Item := commaList a more ++ [.closing rightParen]

/-- The texts are in the buffer one by one, each with a zero behind it. -/
structure ArgBuf.Holds (b : ArgBuf) (texts : List CString) : Prop where
  /-- `def_argc` counts the name of the macro. -/
  argc : b.argc = texts.length + 1
  /-- `def_argo` and `def_argl` of a text. -/
  arg : ∀ k t, texts[k]? = some t → HasText b.mem (b.argo (k + 1)) t ∧
    b.mem (b.argo (k + 1) + t.length) = 0 ∧ b.argl (k + 1) = t.length ∧
    b.argo (k + 1) + t.length < b.size

/-! ## Buffers on the way -/

section Buffers

variable {b b' : ArgBuf} {texts : List CString} {text : CString}

namespace ArgBuf

theorem Filling.holds (h : b.Filling texts []) : b.Holds texts where
  argc := h.argc
  arg k t ht := by
    obtain ⟨hhas, hzero, hlen, hlt⟩ := h.arg k t ht
    have hused : b.used ≤ b.size := Nat.sub_le _ _
    exact ⟨hhas, hzero, hlen, by omega⟩

theorem Filling.argc_lt (h : b.Filling texts text) (hargc : texts.length < 255) :
    b.argc < 256 := by
  rw [h.argc]
  omega

theorem Filling.of_addText (h : b.Filling texts []) (hargc : texts.length < 255)
    (hadd : b.addText text = some b') : b'.Filling texts text := by
  rw [addText] at hadd
  split_ifs at hadd with hnil
  · rwa [hnil, ← Option.some.inj hadd]
  · rw [addToArg_eq h.sound (h.argc_lt hargc)] at hadd
    obtain ⟨hfits, heq⟩ := Option.ite_none_right_eq_some.mp hadd
    rw [← Option.some.inj heq]
    exact h.added hfits

theorem Filling.of_finishArg (h : b.Filling texts text) (hargc : texts.length < 255)
    (hfinish : b.finishArg = some b') : b'.Filling (texts ++ [trimmed text]) [] := by
  rw [h.finishArg_eq hargc] at hfinish
  obtain ⟨hroom, heq⟩ := Option.ite_none_right_eq_some.mp hfinish
  rw [← Option.some.inj heq]
  exact h.finished hroom

end ArgBuf

end Buffers

/-! ## Argument lists -/

section Lists

variable {a : Actual} {more : List Actual} {rest : CString} {b : ArgBuf}

theorem apart_comma (item : Item) : item.Apart .comma := by
  cases item <;> trivial

theorem apart_closing (item : Item) (c : Ch) : item.Apart (.closing c) := by
  cases item <;> trivial

theorem comma_apart (item : Item) : Item.comma.Apart item := by
  cases item <;> trivial

theorem proper_commaList (a : Actual) (more : List Actual) :
    ∀ item ∈ commaList a more, item.Proper := by
  induction more generalizing a with
  | nil => exact a.proper
  | cons next more ih =>
    intro item hitem
    rcases List.mem_append.mp hitem with hitem | hitem
    · exact a.proper item hitem
    · rcases List.mem_cons.mp hitem with rfl | hitem
      · trivial
      · exact ih next item hitem

theorem apart_commaList (a : Actual) (more : List Actual) :
    (commaList a more).IsChain Item.Apart := by
  induction more generalizing a with
  | nil => exact a.apart
  | cons next more ih =>
    refine List.isChain_append.mpr ⟨a.apart, ?_, ?_⟩
    · exact (ih next).cons fun item _ => comma_apart item
    · intro item _ separator hseparator
      obtain rfl := Option.some.inj hseparator
      exact apart_comma item

theorem proper_argList (a : Actual) (more : List Actual) : ∀ item ∈ argList a more, item.Proper := by
  intro item hitem
  rcases List.mem_append.mp hitem with hitem | hitem
  · exact proper_commaList a more item hitem
  · obtain rfl := List.mem_singleton.mp hitem
    exact .inl rfl

theorem apart_argList (a : Actual) (more : List Actual) : (argList a more).IsChain Item.Apart := by
  refine List.isChain_append.mpr ⟨apart_commaList a more, List.isChain_singleton _, ?_⟩
  intro item _ closing hclosing
  obtain rfl := Option.some.inj hclosing
  exact apart_closing item rightParen

theorem argList_cons (a next : Actual) (more : List Actual) :
    argList a (next :: more) = a.items ++ .comma :: argList next more := by
  rw [argList, commaList, List.append_assoc]
  rfl

/-- A comma between arguments. -/
theorem maAdd_comma (items : List Item) (rest : CString) (b : ArgBuf) :
    maAdd (textOf (.comma :: items) ++ rest) 0 b =
      b.finishArg.bind fun b => maAdd (textOf items ++ rest) 0 b :=
  (maAdd_of_token 0 b maToken_comma).trans (if_neg (Nat.lt_irrefl 0))

/-- The last parenthesis. -/
theorem maAdd_end (rest : CString) (b : ArgBuf) :
    maAdd (textOf [.closing rightParen] ++ rest) 0 b = b.finishArg.map fun b => (b, rest) :=
  (maAdd_of_token 0 b (maToken_closing (.inl rfl))).trans (if_neg (Nat.lt_irrefl 0))

/-- The argument list is collected up to its parenthesis. -/
theorem maAdd_argList {texts : List CString} (h : b.Filling texts [])
    (hargc : texts.length + more.length < 255) (hlegible : Legible rest 0 (argList a more)) :
    maAdd (textOf (argList a more) ++ rest) 0 b =
      (b.collect ((a :: more).map Actual.norm)).map fun b => (b, rest) := by
  induction more generalizing a b texts with
  | nil =>
    have hargc' : texts.length < 255 := hargc
    have hmore : Separates [.closing rightParen] := .inr rfl
    have hread := maAdd_items (proper_argList a []) (apart_argList a []) hmore hlegible a.balanced
      h.sound (h.argc_lt hargc')
    rw [List.map_singleton, ArgBuf.collect, Option.bind_eq_bind, Option.map_bind]
    refine hread.trans (Option.bind_congr fun b₁ _ => (maAdd_end rest b₁).trans ?_)
    rw [Option.map_eq_bind, Function.comp_apply, Option.map_bind]
    rfl
  | cons next more ih =>
    rw [List.length_cons] at hargc
    have hargc' : texts.length < 255 := by omega
    have hmore : Separates (.comma :: argList next more) := .inl rfl
    have hproper := proper_argList a (next :: more)
    have hapart := apart_argList a (next :: more)
    rw [argList_cons] at hproper hapart hlegible ⊢
    have hread := maAdd_items hproper hapart hmore hlegible a.balanced h.sound (h.argc_lt hargc')
    rw [List.map_cons, ArgBuf.collect, Option.bind_eq_bind, Option.map_bind]
    refine hread.trans (Option.bind_congr fun b₁ hb₁ => ?_)
    have hfilling := h.of_addText hargc' hb₁
    rw [maAdd_comma, Function.comp_apply, Option.map_bind]
    refine Option.bind_congr fun b₂ hb₂ => ih (hfilling.of_finishArg hargc' hb₂) ?_ ?_
    · rw [List.length_append, List.length_singleton]
      omega
    · exact (Legible.of_append hmore hlegible).2.2

end Lists

/-! ## The level at the beginning -/

section Level

variable {rest : CString} {b b' : ArgBuf}

/-- The bracket that ends the arguments is read. -/
theorem length_lt_of_maAdd {s t : CString} {d : Nat} (h : maAdd s d b = some (b', t)) :
    t.length < s.length := by
  induction hn : s.length using Nat.strong_induction_on generalizing s d b with
  | _ n ih =>
    cases htoken : maToken s with
    | none =>
      rw [maAdd] at h
      split at h <;> simp_all
    | some found =>
      obtain ⟨token, u⟩ := found
      have hlt := length_maToken_lt htoken
      have hgo : ∀ {o : Option ArgBuf} {d : Nat},
          (o.bind fun b => maAdd u d b) = some (b', t) → t.length < n := by
        intro o d ho
        obtain ⟨b₁, -, hb₁⟩ := Option.bind_eq_some_iff.mp ho
        exact (ih u.length (by omega) hb₁ rfl).trans (by omega)
      rw [maAdd_of_token d b htoken] at h
      cases token with
      | text v => exact hgo h
      | white => exact hgo h
      | opening c => exact hgo h
      | comma =>
        dsimp only at h
        split_ifs at h
        · exact hgo h
        · exact hgo h
      | closing c =>
        dsimp only at h
        split_ifs at h
        · exact hgo h
        · obtain ⟨b₁, -, heq⟩ := Option.map_eq_some_iff.mp h
          rw [← (Prod.mk.inj heq).2]
          omega
      | comment => exact (ih u.length (by omega) h rfl).trans (by omega)

theorem levelAfter_append {l m : List Item} {d d' : Nat} (h : levelAfter d l = some d') :
    levelAfter d (l ++ m) = levelAfter d' m := by
  induction l generalizing d with
  | nil =>
    obtain rfl := Option.some.inj h
    rfl
  | cons item l ih =>
    obtain ⟨d₁, hd₁, h⟩ := Option.bind_eq_some_iff.mp h
    rw [List.cons_append, levelAfter, hd₁, Option.bind_some, ih h]

theorem level_add {item : Item} {d d' : Nat} (h : item.level d = some d') (k : Nat) :
    item.level (d + k) = some (d' + k) := by
  cases item with
  | opening c =>
    have hd : d + 1 = d' := Option.some.inj h
    show some (d + k + 1) = _
    rw [← hd, Nat.add_right_comm]
  | closing c =>
    obtain ⟨hpos, heq⟩ := Option.ite_none_right_eq_some.mp h
    have hd : d - 1 = d' := Option.some.inj heq
    refine (if_pos (Nat.add_pos_left hpos k)).trans ?_
    rw [Nat.sub_add_comm hpos, hd]
  | comma =>
    obtain ⟨hpos, heq⟩ := Option.ite_none_right_eq_some.mp h
    have hd : d = d' := Option.some.inj heq
    refine (if_pos (Nat.add_pos_left hpos k)).trans ?_
    rw [hd]
  | _ =>
    have hd : d = d' := Option.some.inj h
    show some (d + k) = _
    rw [hd]

/-- Brackets around an argument do not matter. -/
theorem levelAfter_add {l : List Item} {d d' : Nat} (h : levelAfter d l = some d') (k : Nat) :
    levelAfter (d + k) l = some (d' + k) := by
  induction l generalizing d with
  | nil => exact congrArg (fun d => some (d + k)) (Option.some.inj h)
  | cons item l ih =>
    obtain ⟨d₁, hd₁, h⟩ := Option.bind_eq_some_iff.mp h
    rw [levelAfter, level_add hd₁ k, Option.bind_some, ih h]

theorem levelAfter_commaList (a : Actual) (more : List Actual) (k : Nat) :
    levelAfter (k + 1) (commaList a more) = some (k + 1) := by
  induction more generalizing a with
  | nil =>
    rw [commaList]
    simpa only [Nat.zero_add] using levelAfter_add a.balanced (k + 1)
  | cons next more ih =>
    have ha := levelAfter_add a.balanced (k + 1)
    rw [Nat.zero_add] at ha
    have hcomma : Item.comma.level (k + 1) = some (k + 1) := rfl
    rw [commaList, levelAfter_append ha, levelAfter, hcomma, Option.bind_some, ih]

/-- In brackets that are still open, the last parenthesis closes one of these. -/
theorem maAdd_open {a : Actual} {more : List Actual} (hb : b.Sound) (hargc : b.argc < 256)
    (hlegible : Legible rest 0 (argList a more)) (k : Nat) :
    maAdd (textOf (argList a more) ++ rest) (k + 1) b ≠ some (b', rest) := by
  intro h
  rw [argList, maAdd_items (proper_argList a more) (apart_argList a more) (.inr rfl) hlegible
    (levelAfter_commaList a more k) hb hargc] at h
  obtain ⟨b₁, -, hb₁⟩ := Option.bind_eq_some_iff.mp h
  have hclose : maAdd (textOf [.closing rightParen] ++ rest) (k + 1) b₁ =
      (b₁.addToArg [rightParen]).bind fun b => maAdd rest k b :=
    (maAdd_of_token (k + 1) b₁ (maToken_closing (.inl rfl))).trans (if_pos (Nat.succ_pos k))
  obtain ⟨b₂, -, hb₂⟩ := Option.bind_eq_some_iff.mp (hclose.symm.trans hb₁)
  exact Nat.lt_irrefl _ (length_lt_of_maAdd hb₂)

end Level

/-! ## The arguments of a use -/

/-- An argument list that can be read is split into its actual arguments, and these are in the
buffer, exactly if no bracket is open at its beginning and there is room for the texts. -/
theorem maArgs_iff {b : ArgBuf} (hb : b.Sound) (level : Nat) (a : Actual) {more : List Actual}
    (hmore : more.length < 255) {rest : CString} (hlegible : Legible rest 0 (argList a more)) :
    (∃ b', maArgs b level (textOf (argList a more) ++ rest) = some (b', rest) ∧
      b'.Holds ((a :: more).map Actual.value)) ↔
    level = 0 ∧ sizeFor b.size (b.used + 1) < 2 ^ 31 ∧
      ArgBuf.RoomFor (sizeFor b.size (b.used + 1)) 1 ((a :: more).map Actual.norm) := by
  obtain ⟨hstart, hstop⟩ := ArgBuf.startArgs_eq hb
  rw [maArgs]
  by_cases hfits : sizeFor b.size (b.used + 1) < 2 ^ 31
  · obtain ⟨b₀, hb₀, hfilling, hsize, hused⟩ := hstart hfits
    rw [hb₀, Option.bind_some, and_iff_right hfits, ← hsize, ← hused]
    cases level with
    | succ k =>
      refine ⟨fun ⟨b', h, _⟩ => absurd h ?_, fun h => absurd h.1 (Nat.succ_ne_zero k)⟩
      exact maAdd_open hfilling.sound (hfilling.argc_lt (Nat.zero_lt_succ _)) hlegible k
    | zero =>
      have hcount : (a :: more).length ≤ 255 := hmore
      have hcollect := @ArgBuf.Filling.collect b₀ [] hfilling ((a :: more).map Actual.norm)
        (by rwa [List.length_nil, Nat.zero_add, List.length_map])
      rw [maAdd_argList hfilling (by rwa [List.length_nil, Nat.zero_add]) hlegible,
        and_iff_right rfl]
      constructor
      · rintro ⟨b', h, -⟩
        by_contra hroom
        rw [hcollect.2 hroom] at h
        exact absurd h (by simp)
      · intro hroom
        obtain ⟨b', hb', hdone⟩ := hcollect.1 hroom
        refine ⟨b', by rw [hb', Option.map_some], ?_⟩
        rw [List.nil_append, List.map_map] at hdone
        exact hdone.holds
  · rw [hstop hfits]
    exact ⟨fun ⟨b', h, _⟩ => absurd h (by simp), fun h => absurd h.2.1 hfits⟩

/-- The buffer before any macro is used. -/
def ArgBuf.initial : ArgBuf where
  mem _ := 0
  size := 0
  free := 0
  argo _ := 0
  argl _ := 0
  argc := 0

theorem ArgBuf.sound_initial : ArgBuf.initial.Sound := ⟨Nat.le_refl _, by decide⟩

/-- The argument `{ x}`. -/
def bracedActual : Actual where
  items := [.opening leftBrace, .white [space, space], .char (ch 120), .closing rightBrace]
  proper := by decide +kernel
  apart := .cons_cons trivial (.cons_cons trivial (.cons_cons trivial (List.isChain_singleton _)))
  balanced := rfl

theorem maArgs_iff_braced : ∃ b',
    maArgs .initial 0 (textOf (argList bracedActual [bracedActual]) ++ []) = some (b', []) ∧
      b'.Holds (([bracedActual, bracedActual]).map Actual.value) := by
  refine (maArgs_iff ArgBuf.sound_initial 0 bracedActual (by decide) (by decide)).mpr ?_
  exact ⟨rfl, by decide, by decide, by decide, trivial⟩

/-- The argument `"a\"b"`. -/
def escapedActual : Actual where
  items := [.string [.plain (ch 97), .escape quote, .plain (ch 98)]]
  proper := by decide
  apart := List.isChain_singleton _
  balanced := rfl

/-- A string with an escaped quote is not read to its end. -/
theorem not_maArgs :
    ¬ ∀ b : ArgBuf, b.Sound → ∀ (a : Actual) (more : List Actual), more.length < 255 →
      ∀ rest, ∃ b', maArgs b 0 (textOf (argList a more) ++ rest) = some (b', rest) ∧
        b'.Holds ((a :: more).map Actual.value) := by
  intro h
  obtain ⟨b', hb', -⟩ := h .initial ArgBuf.sound_initial escapedActual [] (by decide) []
  have hfirst : maToken (textOf (argList escapedActual []) ++ []) =
      some (.text [quote, ch 97, backslash, quote], [ch 98, quote, rightParen]) := by decide
  have hsecond : maToken [ch 98, quote, rightParen] = some (.text [ch 98], [quote, rightParen]) := by
    decide
  have hthird : maToken [quote, rightParen] = none := by decide
  obtain ⟨b₀, -, hb₀⟩ := Option.bind_eq_some_iff.mp hb'
  obtain ⟨b₁, -, hb₁⟩ := Option.bind_eq_some_iff.mp ((maAdd_of_token 0 b₀ hfirst).symm.trans hb₀)
  obtain ⟨b₂, -, hb₂⟩ := Option.bind_eq_some_iff.mp ((maAdd_of_token 0 b₁ hsecond).symm.trans hb₁)
  rw [maAdd] at hb₂
  split at hb₂ <;> simp_all

end Icarus.Ivlpp
