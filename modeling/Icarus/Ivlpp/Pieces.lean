import Icarus.Ivlpp.Formals

/-!
# Pieces of a macro text

A text is the sequence of its identifiers and other characters. The loop that replaces a formal
argument marks the identifiers that it is, and the markers of earlier arguments whose number it is.
-/

namespace Icarus.Ivlpp

/-- The characters of a piece. -/
def Piece.render : Piece → CString
  | .word w => w
  | .char c => [c]
  | .marks more arg => List.replicate (more + 1) argMark ++ [ch arg]

/-- The text of some pieces. -/
def render (ps : List Piece) : CString := ps.flatMap Piece.render

/-- The pieces begin with an identifier. -/
def wordFirst : List Piece → Bool
  | .word _ :: _ => true
  | _ => false

/-- The identifiers are whole identifiers of the text, and the markers are not before one. -/
def Separate : List Piece → Prop
  | [] => True
  | .word w :: ps => (w ≠ [] ∧ ∀ c ∈ w, isIdChar c = true) ∧ wordFirst ps = false ∧ Separate ps
  | .char c :: ps => (isIdChar c = false ∧ c ≠ argMark) ∧ Separate ps
  | .marks _ _ :: ps => wordFirst ps = false ∧ Separate ps

/-- What the loop for an argument makes of a piece. -/
def Piece.mark (arg : CString) (num : Nat) : Piece → Piece
  | .word w => if w = arg then .marks 0 num else .word w
  | .char c => .char c
  | .marks more a => if arg = [ch a] then .marks (more + 1) num else .marks more a

variable {arg w text rest before : CString} {num : Nat} {prev prev' : Option Ch} {ps : List Piece}
  {t : Piece}

@[simp] theorem render_cons : render (t :: ps) = t.render ++ render ps := rfl

theorem render_append (qs : List Piece) : render (ps ++ qs) = render ps ++ render qs :=
  List.flatMap_append

theorem argMark_not_id : isIdChar argMark = false := rfl

theorem Separate.tail (hsep : Separate (t :: ps)) : Separate ps := by
  cases t with
  | word w => exact hsep.2.2
  | char c => exact hsep.2
  | marks more a => exact hsep.2

/-! ## The pieces of a text -/

theorem render_pieces (text : CString) : render (pieces text) = text := by
  induction text with
  | nil => rfl
  | cons c cs ih =>
    rw [pieces]
    split_ifs
    · split
      · rename_i w ps hps
        rw [hps] at ih
        rw [render_cons, ← ih]
        rfl
      · rw [render_cons, ih]
        rfl
    · rw [render_cons, ih]
      rfl

theorem idHead_render (hsep : Separate ps) (hfirst : wordFirst ps = false) :
    idHead (render ps) = false := by
  cases ps with
  | nil => rfl
  | cons t ps =>
    cases t with
    | word w => exact absurd hfirst nofun
    | char c => exact hsep.1.1
    | marks more a => exact argMark_not_id

theorem separate_pieces (hmark : argMark ∉ text) : Separate (pieces text) := by
  induction text with
  | nil => trivial
  | cons c cs ih =>
    rw [List.mem_cons, not_or] at hmark
    have hsep := ih hmark.2
    rw [pieces]
    split_ifs with hid
    · split
      · rename_i w ps hps
        rw [hps] at hsep
        obtain ⟨⟨-, hall⟩, hfirst, hrest⟩ := hsep
        refine ⟨⟨List.cons_ne_nil _ _, fun d hd => ?_⟩, hfirst, hrest⟩
        obtain rfl | hd := List.mem_cons.mp hd
        · exact hid
        · exact hall d hd
      · rename_i hno
        refine ⟨⟨List.cons_ne_nil _ _, fun d hd => List.mem_singleton.mp hd ▸ hid⟩, ?_, hsep⟩
        cases hps : pieces cs with
        | nil => rfl
        | cons t ps =>
          cases t with
          | word w => exact absurd hps (hno w ps)
          | char d => rfl
          | marks more a => rfl
    · exact ⟨⟨Bool.not_eq_true _ ▸ hid, Ne.symm hmark.1⟩, hsep⟩

/-- The pieces of a text that goes on after another character than those of identifiers. -/
theorem pieces_append {cs : CString} (hlast : ∀ c, text.getLast? = some c → isIdChar c = false) :
    pieces (text ++ cs) = pieces text ++ pieces cs := by
  induction text with
  | nil => rfl
  | cons c text ih =>
    cases text with
    | nil =>
      have hid : isIdChar c = false := hlast c rfl
      have hnot : ¬ isIdChar c = true := by rw [hid]; exact Bool.false_ne_true
      rw [List.cons_append, List.nil_append, pieces, pieces, if_neg hnot, if_neg hnot]
      rfl
    | cons d text =>
      have hrest := ih fun e he => hlast e (by rw [List.getLast?_cons_cons]; exact he)
      rw [List.cons_append, pieces, hrest]
      conv_rhs => rw [pieces]
      split_ifs
      · cases hps : pieces (d :: text) with
        | nil =>
          have hnil := congrArg render hps
          rw [render_pieces] at hnil
          exact absurd hnil nofun
        | cons t ps => cases t <;> rfl
      · rfl

/-! ## Where an argument is found -/

theorem begins_iff : arg.isPrefixOf text = true ↔ arg <+: text := by
  rw [ List.isPrefixOf_iff_prefix]

theorem findArg_some (hfind : findArg arg prev text = some (before, rest)) :
    before ++ rest = text ∧ arg.length ≤ rest.length := by
  induction text generalizing prev before with
  | nil => exact absurd hfind nofun
  | cons c cs ih =>
    rw [findArg] at hfind
    split_ifs at hfind with hhere
    · obtain ⟨rfl, rfl⟩ := Prod.mk.inj (Option.some.inj hfind)
      rw [argHere, Bool.and_eq_true, Bool.and_eq_true] at hhere
      exact ⟨rfl, (begins_iff.mp hhere.1.1).length_le⟩
    · obtain ⟨⟨before', rest'⟩, hrest, he⟩ := Option.map_eq_some_iff.mp hfind
      obtain ⟨rfl, rfl⟩ := Prod.mk.inj he
      obtain ⟨happend, hlen⟩ := ih hrest
      exact ⟨congrArg (c :: ·) happend, hlen⟩

theorem findArg_congr (hprev : idBefore prev = idBefore prev') (text : CString) :
    findArg arg prev text = findArg arg prev' text := by
  cases text with
  | nil => rfl
  | cons c cs => rw [findArg, findArg, argHere, argHere, hprev]

/-- An argument does not begin with a character of no identifier. -/
theorem argHere_of_not_id {c : Ch} (hne : arg ≠ []) (hid : ∀ c ∈ arg, isIdChar c = true)
    (hc : isIdChar c = false) : argHere arg prev (c :: rest) = false := by
  cases arg with
  | nil => exact absurd rfl hne
  | cons a arg =>
    have hac : a ≠ c := by
      rintro rfl
      rw [hid a List.mem_cons_self] at hc
      exact absurd hc nofun
    rw [argHere, List.isPrefixOf, beq_eq_false_iff_ne.mpr hac]
    rfl

theorem findArg_of_not_id (hne : arg ≠ []) (hid : ∀ c ∈ arg, isIdChar c = true)
    (hhead : idHead text = false) : findArg arg prev text = findArg arg prev' text := by
  cases text with
  | nil => rfl
  | cons c cs =>
    rw [findArg, findArg, argHere_of_not_id hne hid hhead, argHere_of_not_id hne hid hhead]

/-- At the begin of a whole identifier the argument is found if it is the identifier. -/
theorem argHere_word (hid : ∀ c ∈ arg, isIdChar c = true) (hw : ∀ c ∈ w, isIdChar c = true)
    (hprev : idBefore prev = false) (hrest : idHead rest = false) :
    argHere arg prev (w ++ rest) = decide (arg = w) := by
  rw [Bool.eq_iff_iff, decide_eq_true_iff, argHere, hprev]
  constructor
  · intro hhere
    rw [Bool.and_eq_true, Bool.and_eq_true] at hhere
    obtain ⟨⟨hbegins, -⟩, hafter⟩ := hhere
    obtain ⟨tail, htail⟩ := begins_iff.mp hbegins
    rw [← htail, List.drop_left, Bool.not_eq_true'] at hafter
    obtain ⟨more, hmore, hcut⟩ | ⟨more, hmore, hcut⟩ := List.append_eq_append_iff.mp htail
    · cases more with
      | nil => rw [hmore, List.append_nil]
      | cons c more =>
        have hc : isIdChar c = true := hw c (by rw [hmore]; simp)
        rw [hcut, List.cons_append, idHead, hc] at hafter
        exact absurd hafter nofun
    · cases more with
      | nil => rw [hmore, List.append_nil]
      | cons c more =>
        have hc : isIdChar c = true := hid c (by rw [hmore]; simp)
        rw [hcut, List.cons_append, idHead, hc] at hrest
        exact absurd hrest nofun
  · rintro rfl
    rw [List.drop_left, hrest, begins_iff.mpr ⟨rest, rfl⟩]
    rfl

/-- Nothing is found inside of an identifier. -/
theorem findArg_inside (hne : arg ≠ []) (hid : ∀ c ∈ arg, isIdChar c = true)
    (hw : ∀ c ∈ w, isIdChar c = true) (hprev : idBefore prev = true)
    (hrest : idHead rest = false) : findArg arg prev (w ++ rest) =
      (findArg arg none rest).map fun r => (w ++ r.1, r.2) := by
  induction w generalizing prev with
  | nil =>
    have hsame : findArg arg prev rest = findArg arg none rest := findArg_of_not_id hne hid hrest
    rw [List.nil_append, hsame]
    simp
  | cons c w ih =>
    have hhere : ¬ argHere arg prev (c :: (w ++ rest)) = true := by
      rw [argHere, hprev]
      simp
    have hc : idBefore (some c) = true := hw c List.mem_cons_self
    rw [List.cons_append, findArg, if_neg hhere,
      ih (fun d hd => hw d (List.mem_cons_of_mem _ hd)) hc, Option.map_map]
    rfl

/-- The markers are no places of an argument. -/
theorem findArg_replicate (hne : arg ≠ []) (hid : ∀ c ∈ arg, isIdChar c = true) (n : Nat) :
    findArg arg prev (List.replicate (n + 1) argMark ++ rest) =
      (findArg arg (some argMark) rest).map fun r =>
        (List.replicate (n + 1) argMark ++ r.1, r.2) := by
  have hhere : ∀ (prev : Option Ch) (rest : CString),
      ¬ argHere arg prev (argMark :: rest) = true := by
    intro prev rest
    rw [argHere_of_not_id hne hid argMark_not_id]
    exact Bool.false_ne_true
  induction n generalizing prev with
  | zero =>
    rw [List.replicate_one, List.cons_append, findArg, if_neg (hhere _ _)]
    rfl
  | succ n ih =>
    rw [List.replicate_succ, List.cons_append, findArg, if_neg (hhere _ _), ih, Option.map_map]
    rfl

/-- A piece that is marked has the argument after some markers. -/
theorem findArg_marked (hne : arg ≠ []) (hid : ∀ c ∈ arg, isIdChar c = true)
    (hsep : Separate (t :: ps)) (hprev : wordFirst (t :: ps) = true → idBefore prev = false)
    (hmark : t.mark arg num ≠ t) : ∃ before, t.render = before ++ arg ∧
      (t.mark arg num).render = before ++ [argMark, ch num] ∧ wordFirst ps = false ∧
      findArg arg prev (render (t :: ps)) = some (before, arg ++ render ps) := by
  cases t with
  | char c => exact absurd rfl hmark
  | word w =>
    obtain ⟨⟨hwne, hwid⟩, hfirst, hrest⟩ := hsep
    have hw : w = arg := by
      by_contra hw
      exact hmark (if_neg hw)
    subst hw
    refine ⟨[], rfl, ?_, hfirst, ?_⟩
    · rw [Piece.mark, if_pos rfl]
      rfl
    · have hhere := argHere_word hid hwid (hprev rfl) (idHead_render hrest hfirst)
      rw [decide_eq_true rfl] at hhere
      rw [render_cons, Piece.render]
      cases w with
      | nil => exact absurd rfl hwne
      | cons c w =>
        rw [List.cons_append] at hhere ⊢
        rw [findArg, if_pos hhere]
  | marks more a =>
    obtain ⟨hfirst, hrest⟩ := hsep
    have harg : arg = [ch a] := by
      by_contra harg
      exact hmark (if_neg harg)
    refine ⟨List.replicate (more + 1) argMark, by rw [harg]; rfl, ?_, hfirst, ?_⟩
    · rw [Piece.mark, if_pos harg, Piece.render, List.replicate_succ', List.append_assoc]
      rfl
    · have hhere : argHere arg (some argMark) (arg ++ render ps) = true := by
        rw [argHere_word hid hid rfl (idHead_render hrest hfirst), decide_eq_true rfl]
      have hfind : findArg arg (some argMark) (arg ++ render ps) = some ([], arg ++ render ps) := by
        rw [harg, List.singleton_append] at hhere ⊢
        rw [findArg, if_pos hhere]
      rw [render_cons, Piece.render, List.append_assoc, findArg_replicate hne hid, ← harg, hfind,
        Option.map_some, List.append_nil]

/-- A piece that is not marked is passed over. -/
theorem findArg_unmarked (hne : arg ≠ []) (hid : ∀ c ∈ arg, isIdChar c = true)
    (hsep : Separate (t :: ps)) (hprev : wordFirst (t :: ps) = true → idBefore prev = false)
    (hmark : t.mark arg num = t) : findArg arg prev (render (t :: ps)) =
      (findArg arg none (render ps)).map fun r => (t.render ++ r.1, r.2) := by
  cases t with
  | char c =>
    obtain ⟨⟨hc, -⟩, -⟩ := hsep
    have hhere : ¬ argHere arg prev (c :: render ps) = true := by
      rw [argHere_of_not_id hne hid hc]
      exact Bool.false_ne_true
    have hbefore : idBefore (some c) = idBefore none := hc
    rw [render_cons, Piece.render, List.singleton_append, findArg, if_neg hhere,
      findArg_congr hbefore]
    rfl
  | word w =>
    obtain ⟨⟨hwne, hwid⟩, hfirst, hrest⟩ := hsep
    have hw : arg ≠ w := by
      rintro rfl
      rw [Piece.mark, if_pos rfl] at hmark
      exact absurd hmark nofun
    have hhere := argHere_word hid hwid (hprev rfl) (idHead_render hrest hfirst)
    rw [decide_eq_false hw] at hhere
    rw [render_cons, Piece.render]
    cases w with
    | nil => exact absurd rfl hwne
    | cons c w =>
      have hnot : ¬ argHere arg prev (c :: (w ++ render ps)) = true := by
        rw [← List.cons_append, hhere]
        exact Bool.false_ne_true
      have hc : idBefore (some c) = true := hwid c List.mem_cons_self
      rw [List.cons_append, findArg, if_neg hnot,
        findArg_inside hne hid (fun d hd => hwid d (List.mem_cons_of_mem _ hd)) hc
          (idHead_render hrest hfirst), Option.map_map]
      rfl
  | marks more a =>
    obtain ⟨hfirst, hrest⟩ := hsep
    have harg : arg ≠ [ch a] := by
      intro harg
      rw [Piece.mark, if_pos harg] at hmark
      have := (Piece.marks.inj hmark).1
      omega
    have hhead := idHead_render hrest hfirst
    have hhere : ¬ argHere arg (some argMark) (ch a :: render ps) = true := by
      cases hcode : isIdChar (ch a) with
      | false =>
        rw [argHere_of_not_id hne hid hcode]
        exact Bool.false_ne_true
      | true =>
        have hword : ∀ c ∈ [ch a], isIdChar c = true := fun c hc =>
          List.mem_singleton.mp hc ▸ hcode
        have hsingle : argHere arg (some argMark) ([ch a] ++ render ps) = decide (arg = [ch a]) :=
          argHere_word hid hword rfl hhead
        rw [decide_eq_false harg, List.singleton_append] at hsingle
        rw [hsingle]
        exact Bool.false_ne_true
    have hsame : findArg arg (some (ch a)) (render ps) = findArg arg none (render ps) :=
      findArg_of_not_id hne hid hhead
    rw [render_cons, Piece.render, List.append_assoc, findArg_replicate hne hid,
      List.singleton_append, findArg, if_neg hhere, hsame, Option.map_map]
    cases findArg arg none (render ps) <;> simp

/-! ## The loop for an argument -/

theorem separate_map_mark (hsep : Separate ps) : Separate (ps.map (Piece.mark arg num)) := by
  have hfirst : ∀ ps : List Piece, wordFirst ps = false →
      wordFirst (ps.map (Piece.mark arg num)) = false := by
    intro ps hps
    cases ps with
    | nil => rfl
    | cons t ps =>
      cases t with
      | word w => exact absurd hps nofun
      | char c => rfl
      | marks more a =>
        rw [List.map_cons, Piece.mark]
        split_ifs <;> rfl
  induction ps with
  | nil => trivial
  | cons t ps ih =>
    cases t with
    | word w =>
      obtain ⟨hw, hps, hrest⟩ := hsep
      rw [List.map_cons, Piece.mark]
      split_ifs
      · exact ⟨hfirst ps hps, ih hrest⟩
      · exact ⟨hw, hfirst ps hps, ih hrest⟩
    | char c => exact ⟨hsep.1, ih hsep.2⟩
    | marks more a =>
      obtain ⟨hps, hrest⟩ := hsep
      rw [List.map_cons, Piece.mark]
      split_ifs
      · exact ⟨hfirst ps hps, ih hrest⟩
      · exact ⟨hfirst ps hps, ih hrest⟩

theorem grow_text (argl : Nat) (s : Counted) : (s.grow argl).text = s.text := by
  rw [Counted.grow]
  split_ifs <;> rfl

theorem grow_cnt (argl : Nat) (s : Counted) :
    (s.grow argl).cnt + (s.grow argl).added = s.cnt + s.added + (2 - argl) := by
  rw [Counted.grow]
  split_ifs
  · show s.cnt + (s.added + (2 - argl)) + 0 = _
    omega
  · show s.cnt + (s.added + (2 - argl)) = _
    omega

/-- The counts follow the length of the text. -/
theorem replaceArg_cnt (fuel : Nat) (s : Counted) :
    (replaceArg arg num fuel prev s).cnt + (replaceArg arg num fuel prev s).added + s.text.length =
      s.cnt + s.added + (replaceArg arg num fuel prev s).text.length := by
  induction fuel generalizing prev s with
  | zero => rfl
  | succ fuel ih =>
    rw [replaceArg]
    cases hfind : findArg arg prev s.text with
    | none => rfl
    | some r =>
      obtain ⟨before, rest⟩ := r
      obtain ⟨happend, hlen⟩ := findArg_some hfind
      have hrest := @ih (some (ch num))
        ({ s with text := rest.drop arg.length }.grow arg.length)
      rw [grow_cnt, grow_text, List.length_drop] at hrest
      simp only [← happend, List.length_append, List.length_cons] at hrest ⊢
      push_cast [hlen] at hrest ⊢
      linarith

/-- The loop for an argument marks its pieces. -/
theorem replaceArg_text (hne : arg ≠ []) (hid : ∀ c ∈ arg, isIdChar c = true)
    (hsep : Separate ps) (hprev : wordFirst ps = true → idBefore prev = false) {fuel : Nat}
    {s : Counted} (hs : s.text = render ps) (hfuel : (render ps).length ≤ fuel) :
    (replaceArg arg num fuel prev s).text = render (ps.map (Piece.mark arg num)) := by
  induction ps generalizing prev fuel s with
  | nil =>
    cases fuel with
    | zero => exact hs
    | succ fuel =>
      rw [replaceArg, hs]
      exact hs
  | cons t ps ih =>
    have htail := hsep.tail
    by_cases hmark : t.mark arg num = t
    · -- the turns are those for the rest of the text
      have hlen : (render ps).length ≤ fuel := by
        rw [render_cons, List.length_append] at hfuel
        omega
      have hrest : (replaceArg arg num fuel none { s with text := render ps }).text =
          render (ps.map (Piece.mark arg num)) := ih htail (fun _ => rfl) rfl hlen
      have hskip := findArg_unmarked hne hid hsep hprev hmark
      rw [List.map_cons, render_cons, hmark, ← hrest]
      cases fuel with
      | zero => exact hs
      | succ fuel =>
        rw [replaceArg, replaceArg, hs, hskip]
        cases findArg arg none (render ps) with
        | none => exact hs
        | some r => simp
    · obtain ⟨before, hrender, hrender', hfirst, hfind⟩ :=
        findArg_marked hne hid hsep hprev hmark
      have hlen : 0 < arg.length := List.length_pos_iff.mpr hne
      rw [render_cons, hrender, List.length_append, List.length_append] at hfuel
      obtain ⟨fuel, rfl⟩ : ∃ n, fuel = n + 1 := ⟨fuel - 1, by omega⟩
      rw [replaceArg, hs, hfind]
      simp only [List.drop_left]
      rw [ih htail (fun h => absurd (hfirst.symm.trans h) nofun) (grow_text _ _) (by omega),
        List.map_cons, render_cons, hrender']
      simp

end Icarus.Ivlpp
