import Icarus.Ivlpp.Pieces

/-!
# Expansion of macros with arguments

When the text of a macro, with markers for its formal arguments, expands to the text with the
actual arguments in the place of the formal ones.
-/

namespace Icarus.Ivlpp

variable {formals : List CString} {lines : List CString} {body text : CString} {ps : List Piece}
  {comment : Bool}

/-! ## All arguments -/

/-- What the loop over the arguments makes of a piece. -/
def Piece.markAll (args : List (CString × Nat)) (t : Piece) : Piece :=
  args.foldl (fun t arg => t.mark arg.1 arg.2) t

theorem replaceArgs_spec (args : List (CString × Nat))
    (hids : ∀ a ∈ args, a.1 ≠ [] ∧ ∀ c ∈ a.1, isIdChar c = true) (hsep : Separate ps)
    {s : Counted} {n : Int} (hs : s.text = render ps)
    (hcnt : s.cnt + s.added = n + s.text.length) :
    let r := args.foldl (fun s arg => replaceArg arg.1 arg.2 s.text.length none s) s
    r.text = render (ps.map (Piece.markAll args)) ∧ r.cnt + r.added = n + r.text.length := by
  induction args generalizing ps s with
  | nil =>
    have hmap : ps.map (Piece.markAll []) = ps := List.map_id ps
    rw [hmap]
    exact ⟨hs, hcnt⟩
  | cons arg args ih =>
    obtain ⟨hne, hid⟩ := hids arg List.mem_cons_self
    have htext : (replaceArg arg.1 arg.2 s.text.length none s).text =
        render (ps.map (Piece.mark arg.1 arg.2)) :=
      replaceArg_text hne hid hsep (fun _ => rfl) hs (Nat.le_of_eq (congrArg List.length hs.symm))
    have hcount := @replaceArg_cnt arg.1 arg.2 none s.text.length s
    have hmap : ps.map (Piece.markAll (arg :: args)) =
        (ps.map (Piece.mark arg.1 arg.2)).map (Piece.markAll args) := by
      rw [List.map_map]
      rfl
    rw [hmap, List.foldl_cons]
    exact ih (fun a ha => hids a (List.mem_cons_of_mem _ ha)) (separate_map_mark hsep) htext
      (by linarith)

/-- The first of some arguments that an identifier is marks it, and the later ones may mark
the number. -/
theorem markAll_word (w : CString) (formals : List CString) (k : Nat) :
    (Piece.word w).markAll (formals.zipIdx k) =
      if w ∈ formals then (Piece.marks 0 (formals.idxOf w + k)).markAll
        ((formals.drop (formals.idxOf w + 1)).zipIdx (formals.idxOf w + k + 1))
      else .word w := by
  induction formals generalizing k with
  | nil => rfl
  | cons f fs ih =>
    have hstep : (Piece.word w).markAll ((f :: fs).zipIdx k) =
        ((Piece.word w).mark f k).markAll (fs.zipIdx (k + 1)) := rfl
    rw [hstep, Piece.mark]
    by_cases hw : w = f
    · subst hw
      rw [if_pos rfl, if_pos List.mem_cons_self, List.idxOf_cons_self]
      simp only [Nat.zero_add, List.drop_succ_cons, List.drop_zero]
    · have hmem : w ∈ f :: fs ↔ w ∈ fs := by
        rw [List.mem_cons, or_iff_right hw]
      have hidx : (f :: fs).idxOf w = fs.idxOf w + 1 := List.idxOf_cons_ne _ (Ne.symm hw)
      rw [if_neg hw, ih]
      simp only [hmem, hidx, List.drop_succ_cons]
      have hsum : fs.idxOf w + (k + 1) = fs.idxOf w + 1 + k := by omega
      rw [hsum]

/-- Markers stay as they are, or they become more when an argument is their number. -/
theorem markAll_marks (args : List (CString × Nat)) (more a : Nat) :
    (Piece.marks more a).markAll args = .marks more a ∧ (∀ g ∈ args, g.1 ≠ [ch a]) ∨
      ∃ more' a', (Piece.marks more a).markAll args = .marks more' a' ∧ more < more' ∧
        a' ∈ args.map Prod.snd ∧ ∃ g ∈ args, g.1 = [ch a] := by
  induction args generalizing more a with
  | nil => exact Or.inl ⟨rfl, fun g hg => absurd hg List.not_mem_nil⟩
  | cons arg args ih =>
    have hstep : (Piece.marks more a).markAll (arg :: args) =
        ((Piece.marks more a).mark arg.1 arg.2).markAll args := rfl
    rw [hstep, Piece.mark]
    by_cases harg : arg.1 = [ch a]
    · right
      rw [if_pos harg]
      obtain ⟨hsame, -⟩ | ⟨more', a', hmore, hlt, hmem, -⟩ := ih (more + 1) arg.2
      · exact ⟨more + 1, arg.2, hsame, Nat.lt_succ_self _, List.mem_cons_self,
          arg, List.mem_cons_self, harg⟩
      · exact ⟨more', a', hmore, Nat.lt_of_succ_lt hlt, List.mem_cons_of_mem _ hmem,
          arg, List.mem_cons_self, harg⟩
    · rw [if_neg harg]
      obtain ⟨hsame, hnone⟩ | ⟨more', a', hmore, hlt, hmem, g, hg, hga⟩ := ih more a
      · refine Or.inl ⟨hsame, fun g hg => ?_⟩
        obtain rfl | hg := List.mem_cons.mp hg
        · exact harg
        · exact hnone g hg
      · exact Or.inr ⟨more', a', hmore, hlt, List.mem_cons_of_mem _ hmem, g,
          List.mem_cons_of_mem _ hg, hga⟩

/-! ## Lines -/

theorem endsBackslash_cons {c : Ch} (h : endsBackslash text = true) :
    endsBackslash (c :: text) = true := by
  rw [endsBackslash, decide_eq_true_iff] at h ⊢
  rw [List.getLast?_cons, h]
  rfl

/-- A continued line still has its backslash after the comments are gone. -/
theorem removeComments_continued (fuel : Nat) (text : CString)
    (h : (removeComments fuel text).continued = true) :
    endsBackslash (removeComments fuel text).text = true := by
  induction fuel generalizing text with
  | zero => exact absurd h nofun
  | succ fuel ih =>
    cases text with
    | nil => exact absurd h nofun
    | cons c cs =>
      rw [removeComments] at h ⊢
      by_cases hslash : c = slash
      · rw [if_pos hslash] at h ⊢
        by_cases hline : cs.head? = some slash
        · rw [if_pos hline] at h ⊢
          by_cases hend : endsBackslash cs = true
          · rw [if_pos hend]
            rfl
          · rw [if_neg hend] at h
            exact absurd h nofun
        · rw [if_neg hline] at h ⊢
          by_cases hstar : cs.head? = some star
          · rw [if_pos hstar] at h ⊢
            cases hafter : afterComment cs.tail with
            | some tail =>
              rw [hafter] at h
              exact ih tail h
            | none =>
              rw [hafter] at h
              simp only [openComment] at h ⊢
              by_cases hend : endsBackslash cs.tail = true
              · rw [if_pos hend]
                rfl
              · rw [if_neg hend] at h
                exact absurd h nofun
          · rw [if_neg hstar] at h ⊢
            exact endsBackslash_cons (ih cs h)
      · rw [if_neg hslash] at h ⊢
        exact endsBackslash_cons (ih cs h)

/-- A line with a continuation ends with a newline. -/
theorem finishLine_continued {l : Line} (hends : l.continued = true → endsBackslash l.text = true)
    (h : (finishLine l).continued = true) : (finishLine l).text.getLast? = some newline := by
  rw [finishLine] at h ⊢
  by_cases hback : endsBackslash (l.text.rdropWhile isSpace) = true
  · simp only [if_pos hback]
    rw [List.getLast?_append]
    rfl
  · simp only [if_neg hback] at h
    have hlast := hends h
    rw [endsBackslash, decide_eq_true_iff] at hlast
    have hkeep : l.text.rdropWhile isSpace = l.text := by
      rw [List.rdropWhile_eq_self_iff]
      intro hne hspace
      rw [List.getLast?_eq_some_getLast hne, Option.some.injEq] at hlast
      rw [hlast] at hspace
      exact absurd hspace (by decide)
    rw [hkeep] at hback
    exact absurd (hends h) hback

/-- An identifier does not go on from a continued line to the next. -/
theorem lineOf_continued {yytext : CString} (h : (lineOf comment yytext).continued = true) :
    ∀ c, (lineOf comment yytext).text.getLast? = some c → isIdChar c = false := by
  have hnewline : ∀ {l : Line}, (l.continued = true → endsBackslash l.text = true) →
      (finishLine l).continued = true →
      ∀ c, (finishLine l).text.getLast? = some c → isIdChar c = false := by
    intro l hends hfinish c hc
    rw [finishLine_continued hends hfinish] at hc
    obtain rfl := Option.some.inj hc
    rfl
  rw [lineOf] at h ⊢
  by_cases hcomment : comment = true
  · rw [if_pos hcomment] at h ⊢
    cases hafter : afterComment yytext with
    | none => exact fun c hc => absurd hc nofun
    | some tail =>
      rw [hafter] at h
      exact hnewline (removeComments_continued _ _) h
  · rw [if_neg hcomment] at h ⊢
    exact hnewline (removeComments_continued _ _) h

theorem doDefine_spec (hids : Identifiers formals) {s : DefineText} {yytext : CString}
    (hcnt : s.cnt = s.text.length) (hmark : argMark ∉ (lineOf s.comment yytext).text) :
    ∃ s', doDefine formals s yytext = some s' ∧ s'.cnt = s'.text.length ∧
      s'.comment = (lineOf s.comment yytext).comment ∧ s'.text = s.text ++
        render ((pieces (lineOf s.comment yytext).text).map
          (Piece.markAll (formals.zipIdx 1))) := by
  have hargs : ∀ a ∈ formals.zipIdx 1, a.1 ≠ [] ∧ ∀ c ∈ a.1, isIdChar c = true := fun a ha =>
    hids a.1 (List.fst_mem_of_mem_zipIdx ha)
  have hstart : (⟨(lineOf s.comment yytext).text, s.cnt + (lineOf s.comment yytext).text.length,
      0⟩ : Counted).text = render (pieces (lineOf s.comment yytext).text) := (render_pieces _).symm
  obtain ⟨htext, hcount⟩ := replaceArgs_spec (formals.zipIdx 1) hargs (separate_pieces hmark)
    hstart (Int.add_zero _)
  have hnot : ¬ (formals ≠ [] ∧ argMark ∈ (lineOf s.comment yytext).text) := fun h => hmark h.2
  have htake : s.text.take s.cnt.toNat = s.text := by
    rw [hcnt, Int.toNat_natCast, List.take_length]
  rw [doDefine]
  simp only [if_neg hnot, htake]
  refine ⟨_, rfl, ?_, rfl, congrArg (s.text ++ ·) htext⟩
  simp only [List.length_append, Nat.cast_add, ← hcnt]
  exact hcount

/-- The text of a macro has markers in the pieces of its body. -/
theorem defineText_spec (hids : Identifiers formals) (lines : List CString) {s : DefineText}
    (hcont : Continued s.comment lines) (hmark : argMark ∉ bodyOf s.comment lines)
    (hcnt : s.cnt = s.text.length) : ∃ s', lines.foldlM (doDefine formals) s = some s' ∧
      s'.text = s.text ++ render ((pieces (bodyOf s.comment lines)).map
        (Piece.markAll (formals.zipIdx 1))) := by
  induction lines generalizing s with
  | nil => exact ⟨s, rfl, (List.append_nil _).symm⟩
  | cons yytext lines ih =>
    obtain ⟨hnext, hcont⟩ := hcont
    rw [bodyOf, List.mem_append, not_or] at hmark
    obtain ⟨s₁, hstep, hcnt₁, hcomment₁, htext₁⟩ := doDefine_spec hids hcnt hmark.1
    rw [← hcomment₁] at hcont
    obtain ⟨s', hrun, htext⟩ := ih hcont (hcomment₁ ▸ hmark.2) hcnt₁
    have hsplit : pieces (bodyOf s.comment (yytext :: lines)) =
        pieces (lineOf s.comment yytext).text ++ pieces (bodyOf s₁.comment lines) := by
      rw [bodyOf, hcomment₁]
      cases lines with
      | nil => rw [bodyOf, List.append_nil, pieces, List.append_nil]
      | cons l ls => exact pieces_append (lineOf_continued (hnext (List.cons_ne_nil _ _)))
    refine ⟨s', ?_, ?_⟩
    · rw [List.foldlM_cons, hstep]
      exact hrun
    · rw [htext, htext₁, hsplit, List.map_append, render_append, List.append_assoc]

end Icarus.Ivlpp
