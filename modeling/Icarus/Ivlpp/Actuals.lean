import Icarus.Ivlpp.Expansion
import Mathlib.Algebra.Order.BigOperators.Group.List

/-!
# Actual arguments

The expansion of a text with markers, and which macros expand to their body with the actual
arguments in the place of the formal ones.
-/

namespace Icarus.Ivlpp

variable {formals : List CString} {body out rest : CString} {ps : List Piece} {t : Piece}
  {use : Nat → CString} {argc : Nat}

/-! ## The loop over the text -/

theorem expandLoop_cons {c : Ch} (hc : c ≠ argMark) (cs : CString) :
    expandLoop argc use (c :: cs) = (expandLoop argc use cs).map fun text => c :: text := by
  cases cs with
  | nil =>
    rw [expandLoop, expandLoop, if_neg hc]
    rfl
  | cons num cs => rw [expandLoop, if_neg hc]

theorem expandLoop_append {w : CString} (hw : argMark ∉ w) (cs : CString) :
    expandLoop argc use (w ++ cs) = (expandLoop argc use cs).map fun text => w ++ text := by
  induction w with
  | nil => simp
  | cons c w ih =>
    rw [List.mem_cons, not_or] at hw
    rw [List.cons_append, expandLoop_cons (Ne.symm hw.1), ih hw.2, Option.map_map]
    rfl

theorem argMark_not_mem {w : CString} (hw : ∀ c ∈ w, isIdChar c = true) : argMark ∉ w := by
  intro hmem
  exact absurd (hw argMark hmem) (by rw [argMark_not_id]; exact Bool.false_ne_true)

/-- The code of a number. -/
theorem code_ch {n : Nat} (hpos : 0 < n) (hlt : n < 256) : (ch n).1.1 = n := by
  show (n - 1) % 255 + 1 = n
  omega

/-- The pieces that the loop over the text gets right, and what they become. -/
def Piece.Plain (argc : Nat) : Piece → Prop
  | .word w => argMark ∉ w
  | .char c => c ≠ argMark
  | .marks more a => more = 0 ∧ 0 < a ∧ a < 128 ∧ a < argc

/-- A piece after the expansion. -/
def Piece.used (use : Nat → CString) : Piece → CString
  | .word w => w
  | .char c => [c]
  | .marks _ a => use a

theorem expandLoop_render (hplain : ∀ t ∈ ps, t.Plain argc) :
    expandLoop argc use (render ps) = some (ps.flatMap (Piece.used use)) := by
  induction ps with
  | nil => rfl
  | cons t ps ih =>
    have hrest := ih fun t ht => hplain t (List.mem_cons_of_mem _ ht)
    have ht := hplain t List.mem_cons_self
    rw [render_cons, List.flatMap_cons]
    cases t with
    | word w =>
      rw [Piece.render, expandLoop_append ht, hrest]
      rfl
    | char c =>
      rw [Piece.render, List.singleton_append, expandLoop_cons ht, hrest]
      rfl
    | marks more a =>
      obtain ⟨rfl, hpos, hlow, hargc⟩ := ht
      have hcode := code_ch hpos (by omega)
      rw [Piece.render, List.replicate_one, List.singleton_append, List.cons_append,
        List.singleton_append, expandLoop, if_pos rfl, if_neg (by omega), if_pos (by omega), hrest,
        hcode]
      rfl

/-! ## Lengths -/

/-- The length of what becomes of a piece when each argument is one character. -/
def Piece.weight : Piece → Nat
  | .word w => w.length
  | .char _ => 1
  | .marks more _ => (more + 1) / 2 + 1

theorem expandLoop_marks (huse : ∀ k, 0 < k → k < argc → (use k).length = 1) (n : Nat) {c : Ch}
    (hc : 2 ≤ n → c ≠ argMark) (hpos : 0 < n ∨ c ≠ argMark)
    (hout : expandLoop argc use (List.replicate n argMark ++ c :: rest) = some out) :
    (∃ r, expandLoop argc use rest = some r ∧ out.length = n / 2 + 1 + r.length) ∧
      (n = 1 → c.1.1 < 128) := by
  have hnonzero : ∀ d : Ch, 0 < d.1.1 := by
    intro d
    refine Nat.pos_of_ne_zero fun hzero => d.2 ?_
    exact Fin.ext hzero
  induction n using Nat.twoStepInduction generalizing out with
  | zero =>
    have hc : c ≠ argMark := hpos.resolve_left (Nat.lt_irrefl 0)
    rw [List.replicate_zero, List.nil_append, expandLoop_cons hc] at hout
    obtain ⟨r, hr, rfl⟩ := Option.map_eq_some_iff.mp hout
    refine ⟨⟨r, hr, ?_⟩, fun h => absurd h nofun⟩
    rw [List.length_cons]
    omega
  | one =>
    rw [List.replicate_one, List.singleton_append, expandLoop, if_pos rfl] at hout
    split_ifs at hout with hhigh hargc
    obtain ⟨r, hr, rfl⟩ := Option.map_eq_some_iff.mp hout
    refine ⟨⟨r, hr, ?_⟩, fun _ => not_le.mp hhigh⟩
    rw [List.length_append, huse _ (hnonzero c) hargc]
  | more n ih _ =>
    have hsplit : List.replicate (n + 2) argMark ++ c :: rest =
        argMark :: argMark :: (List.replicate n argMark ++ c :: rest) := rfl
    rw [hsplit, expandLoop, if_pos rfl] at hout
    split_ifs at hout with hhigh hargc
    obtain ⟨r, hr, rfl⟩ := Option.map_eq_some_iff.mp hout
    have hne := hc (Nat.le_add_left 2 n)
    obtain ⟨⟨r', hr', hlen⟩, -⟩ := ih (fun _ => hne) (Or.inr hne) hr
    refine ⟨⟨r', hr', ?_⟩, fun h => absurd h (by omega)⟩
    rw [List.length_append, huse _ (hnonzero argMark) hargc, hlen]
    omega

/-- The pieces whose expansion has the length that is expected. -/
def Piece.Sized : Piece → Prop
  | .word w => argMark ∉ w
  | .char c => c ≠ argMark
  | .marks more a => 0 < more → ch a ≠ argMark

/-- The length of an expansion, piece by piece. -/
theorem expandLoop_length (huse : ∀ k, 0 < k → k < argc → (use k).length = 1)
    (hps : ∀ t ∈ ps, t.Sized) (hout : expandLoop argc use (render ps) = some out) :
    out.length = (ps.map Piece.weight).sum ∧
      ∀ a, Piece.marks 0 a ∈ ps → (ch a).1.1 < 128 := by
  induction ps generalizing out with
  | nil =>
    obtain rfl := Option.some.inj hout
    exact ⟨rfl, fun a ha => absurd ha List.not_mem_nil⟩
  | cons t ps ih =>
    have ht := hps t List.mem_cons_self
    have htail : ∀ t ∈ ps, t.Sized := fun t ht => hps t (List.mem_cons_of_mem _ ht)
    rw [render_cons] at hout
    rw [List.map_cons, List.sum_cons]
    cases t with
    | word w =>
      rw [Piece.render, expandLoop_append ht] at hout
      obtain ⟨r, hr, rfl⟩ := Option.map_eq_some_iff.mp hout
      obtain ⟨hlen, hlow⟩ := ih htail hr
      refine ⟨by rw [List.length_append, hlen]; rfl, fun a ha => hlow a ?_⟩
      exact (List.mem_cons.mp ha).resolve_left (by simp)
    | char c =>
      rw [Piece.render, List.singleton_append, expandLoop_cons ht] at hout
      obtain ⟨r, hr, rfl⟩ := Option.map_eq_some_iff.mp hout
      obtain ⟨hlen, hlow⟩ := ih htail hr
      refine ⟨by rw [List.length_cons, hlen, Piece.weight]; omega, fun a ha => hlow a ?_⟩
      exact (List.mem_cons.mp ha).resolve_left (by simp)
    | marks more a =>
      rw [Piece.render, List.append_assoc, List.singleton_append] at hout
      obtain ⟨⟨r, hr, hlen⟩, hone⟩ := expandLoop_marks huse (more + 1) (fun h => ht (by omega))
        (Or.inl (Nat.succ_pos _)) hout
      obtain ⟨hlen', hlow⟩ := ih htail hr
      refine ⟨by rw [hlen, hlen', Piece.weight], fun b hb => ?_⟩
      obtain he | hb := List.mem_cons.mp hb
      · obtain ⟨rfl, rfl⟩ := Piece.marks.inj he
        exact hone rfl
      · exact hlow b hb

/-- Sums that are the same where no term is less have the same terms. -/
theorem eq_of_sum_eq {α : Type} {f g : α → Nat} {l : List α} (hle : ∀ x ∈ l, f x ≤ g x)
    (hsum : (l.map g).sum = (l.map f).sum) : ∀ x ∈ l, g x = f x := by
  induction l with
  | nil => exact fun x hx => absurd hx List.not_mem_nil
  | cons y l ih =>
    have hy := hle y List.mem_cons_self
    have hrest : (l.map f).sum ≤ (l.map g).sum :=
      List.sum_le_sum fun x hx => hle x (List.mem_cons_of_mem _ hx)
    rw [List.map_cons, List.map_cons, List.sum_cons, List.sum_cons] at hsum
    intro x hx
    obtain rfl | hx := List.mem_cons.mp hx
    · omega
    · exact ih (fun x hx => hle x (List.mem_cons_of_mem _ hx)) (by omega) x hx

/-! ## Markers of a body -/

theorem word_id (hsep : Separate ps) {w : CString} (hw : .word w ∈ ps) :
    ∀ c ∈ w, isIdChar c = true := by
  induction ps with
  | nil => exact absurd hw List.not_mem_nil
  | cons t ps ih =>
    obtain rfl | hrest := List.mem_cons.mp hw
    · exact hsep.1.2
    · exact ih hsep.tail hrest

theorem char_not_mark (hsep : Separate ps) {c : Ch} (hc : .char c ∈ ps) : c ≠ argMark := by
  induction ps with
  | nil => exact absurd hc List.not_mem_nil
  | cons t ps ih =>
    obtain rfl | hrest := List.mem_cons.mp hc
    · exact hsep.1.2
    · exact ih hsep.tail hrest

theorem marks_not_mem (text : CString) (more a : Nat) : Piece.marks more a ∉ pieces text := by
  induction text with
  | nil => exact List.not_mem_nil
  | cons c cs ih =>
    rw [pieces]
    split_ifs
    · split
      · rename_i w ps hps
        rw [hps, List.mem_cons, not_or] at ih
        rw [List.mem_cons, not_or]
        exact ⟨by simp, ih.2⟩
      · rw [List.mem_cons, not_or]
        exact ⟨by simp, ih⟩
    · rw [List.mem_cons, not_or]
      exact ⟨by simp, ih⟩

theorem markAll_char (args : List (CString × Nat)) (c : Ch) :
    (Piece.char c).markAll args = .char c := by
  induction args with
  | nil => rfl
  | cons arg args ih => exact ih

/-- The later arguments of a formal argument. -/
def laterArgs (formals : List CString) (w : CString) : List (CString × Nat) :=
  (formals.drop (formals.idxOf w + 1)).zipIdx (formals.idxOf w + 1 + 1)

theorem mem_laterArgs {w g : CString} {n : Nat} (hmem : (g, n) ∈ laterArgs formals w) :
    ∃ j, formals[j]? = some g ∧ formals.idxOf w < j ∧ n = j + 1 ∧ j < formals.length := by
  obtain ⟨hlo, hget⟩ := List.mem_zipIdx_iff_le_and_getElem?_sub.mp hmem
  rw [List.getElem?_drop] at hget
  obtain ⟨hlt, -⟩ := List.getElem?_eq_some_iff.mp hget
  exact ⟨_, hget, by omega, by omega, hlt⟩

theorem laterArgs_of_getElem? {w g : CString} {j : Nat} (hget : formals[j]? = some g)
    (hlt : formals.idxOf w < j) : (g, j + 1) ∈ laterArgs formals w := by
  refine List.mem_zipIdx_iff_le_and_getElem?_sub.mpr ⟨by omega, ?_⟩
  rw [List.getElem?_drop, ← hget]
  congr 1
  omega

theorem markAll_formal {w : CString} (hw : w ∈ formals) :
    (Piece.word w).markAll (formals.zipIdx 1) =
      (Piece.marks 0 (formals.idxOf w + 1)).markAll (laterArgs formals w) := by
  rw [markAll_word, if_pos hw]
  rfl

/-- The identifiers of a markable text become markers of their arguments. -/
theorem plain_of_markable (hmark : argMark ∉ body) (h : Markable formals body) (ht : t ∈ pieces body) :
    (t.markAll (formals.zipIdx 1)).Plain (formals.length + 1) ∧
      (t.markAll (formals.zipIdx 1)).used use = t.expanded formals use := by
  have hsep := separate_pieces hmark
  cases t with
  | char c =>
    rw [markAll_char]
    exact ⟨char_not_mark hsep ht, rfl⟩
  | marks more a => exact absurd ht (marks_not_mem body more a)
  | word w =>
    by_cases hw : w ∈ formals
    · have hidx : formals.idxOf w < formals.length := List.idxOf_lt_length_of_mem hw
      have hget : formals[formals.idxOf w]? = some w := by
        rw [List.getElem?_eq_getElem hidx, List.getElem_idxOf]
      obtain ⟨hlow, hlater⟩ := h _ w hget ht
      rw [markAll_formal hw]
      obtain ⟨hsame, -⟩ | ⟨more, a, -, -, -, ⟨g, n⟩, hg, hga⟩ :=
        markAll_marks (laterArgs formals w) 0 (formals.idxOf w + 1)
      · rw [hsame]
        exact ⟨⟨rfl, Nat.succ_pos _, hlow, Nat.succ_lt_succ hidx⟩, (if_pos hw).symm⟩
      · obtain ⟨j, hj, hlt, -, -⟩ := mem_laterArgs hg
        exact absurd hga (hlater j g hj hlt)
    · rw [markAll_word, if_neg hw]
      exact ⟨argMark_not_mem (word_id hsep ht), (if_neg hw).symm⟩

/-- The pieces after the loop over the arguments have the lengths that are expected. -/
theorem sized_markAll (hids : Identifiers formals) (hlen : formals.length ≤ 255)
    (hmark : argMark ∉ body) (ht : t ∈ pieces body) :
    (t.markAll (formals.zipIdx 1)).Sized := by
  have hsep := separate_pieces hmark
  cases t with
  | char c =>
    rw [markAll_char]
    exact char_not_mark hsep ht
  | marks more a => exact absurd ht (marks_not_mem body more a)
  | word w =>
    by_cases hw : w ∈ formals
    · rw [markAll_formal hw]
      obtain ⟨hsame, -⟩ | ⟨more, a, hmore, -, ha, ⟨g, n⟩, hg, hga⟩ :=
        markAll_marks (laterArgs formals w) 0 (formals.idxOf w + 1)
      · rw [hsame]
        exact fun h => absurd h (Nat.lt_irrefl 0)
      · rw [hmore]
        intro _ hmarked
        -- the number of an argument that is one character is the code of an identifier character
        obtain ⟨⟨g', a'⟩, hg', rfl⟩ := List.mem_map.mp ha
        obtain ⟨j, hj, hlt, hn, hjlen⟩ := mem_laterArgs hg'
        obtain ⟨i, hi, -, -, -⟩ := mem_laterArgs hg
        have hga : g = [ch (formals.idxOf w + 1)] := hga
        have hid : isIdChar (ch (formals.idxOf w + 1)) = true :=
          (hids g (List.mem_of_getElem? hi)).2 _ (by rw [hga]; exact List.mem_singleton_self _)
        have hcode := code_ch (Nat.succ_pos (formals.idxOf w)) (by omega)
        have hcode' : (ch a').1.1 = a' := code_ch (by omega) (by omega)
        have hseven : a' = 7 := by
          rw [← hcode', hmarked]
          rfl
        have hsmall : (ch (formals.idxOf w + 1)).1.1 < 8 := by
          rw [hcode]
          omega
        simp only [isIdChar, Bool.or_eq_true, Bool.and_eq_true, decide_eq_true_eq] at hid
        omega
    · rw [markAll_word, if_neg hw]
      exact argMark_not_mem (word_id hsep ht)

/-! ## Macros -/

variable {defaults : List (Option CString)} {lines : List CString}

theorem defineText_body (hids : Identifiers formals) (hcont : Continued false lines)
    (hmark : argMark ∉ bodyOf false lines) : ∃ s, defineText formals lines = some s ∧
      s.text = render ((pieces (bodyOf false lines)).map (Piece.markAll (formals.zipIdx 1))) :=
  @defineText_spec formals hids lines ⟨[], 0, false⟩ hcont hmark rfl

theorem expands_of_markable (hids : Identifiers formals) (hcont : Continued false lines)
    (hmark : argMark ∉ bodyOf false lines) (h : Markable formals (bodyOf false lines)) :
    Expands formals defaults lines := by
  obtain ⟨s, hdefine, htext⟩ := defineText_body hids hcont hmark
  refine ⟨s, hdefine, fun actuals haccepts => ?_⟩
  have hplain : ∀ t ∈ (pieces (bodyOf false lines)).map (Piece.markAll (formals.zipIdx 1)),
      t.Plain (formals.length + 1) := by
    intro t ht
    obtain ⟨t₀, ht₀, rfl⟩ := List.mem_map.mp ht
    exact (@plain_of_markable _ _ _ (useArg (macroOf formals defaults s.text) actuals)
      hmark h ht₀).1
  have hloop : expandLoop (formals.length + 1) (useArg (macroOf formals defaults s.text) actuals)
      s.text = some (substituted formals (useArg (macroOf formals defaults s.text) actuals)
        (bodyOf false lines)) := by
    conv_lhs => rw [htext]
    rw [expandLoop_render hplain, substituted, List.flatMap_map]
    exact congrArg some (List.flatMap_congr fun t ht => (plain_of_markable hmark h ht).2)
  rw [expandUsingArgs, if_pos haccepts]
  exact congrArg (Option.map some) hloop

/-- An actual argument of one character. -/
def oneChar : CString := [ch 120]

theorem useArg_oneChar {m : Macro} {n k : Nat} (hpos : 0 < k) (hk : k < n + 1) :
    useArg m (List.replicate n oneChar) k = oneChar := by
  have hget : (List.replicate n oneChar)[k - 1]? = some oneChar :=
    List.getElem?_replicate_of_lt (by omega)
  rw [useArg, hget]
  rfl

theorem markable_of_expands (hids : Identifiers formals) (hnodup : formals.Nodup)
    (hlen : formals.length ≤ 255) (hcont : Continued false lines)
    (hmark : argMark ∉ bodyOf false lines) (h : Expands formals defaults lines) :
    Markable formals (bodyOf false lines) := by
  obtain ⟨s, hdefine, htext⟩ := defineText_body hids hcont hmark
  obtain ⟨s', hdefine', hexpand⟩ := h
  obtain rfl := Option.some.inj (hdefine.symm.trans hdefine')
  obtain ⟨m, hm⟩ : ∃ m, m = macroOf formals defaults s.text := ⟨_, rfl⟩
  have haccepts : Accepts m (List.replicate formals.length oneChar) := by
    rw [hm, Accepts, List.length_replicate]
    exact ⟨Nat.le_refl _, fun arg hlo hhi => absurd hhi (by
      show ¬ arg < formals.length + 1
      omega)⟩
  have huse : ∀ k, 0 < k → k < formals.length + 1 →
      (useArg m (List.replicate formals.length oneChar) k).length = 1 := fun k hpos hk => by
    rw [useArg_oneChar hpos hk]
    rfl
  have hloop : expandLoop (formals.length + 1)
      (useArg m (List.replicate formals.length oneChar)) s.text = some (substituted formals
        (useArg m (List.replicate formals.length oneChar)) (bodyOf false lines)) := by
    have hall := hexpand _ (hm ▸ haccepts)
    rw [← hm, expandUsingArgs, if_pos haccepts] at hall
    obtain ⟨text, htext, he⟩ := Option.map_eq_some_iff.mp hall
    obtain rfl := Option.some.inj he
    rw [hm] at htext
    exact hm ▸ htext
  rw [htext] at hloop
  have hsized : ∀ t ∈ (pieces (bodyOf false lines)).map (Piece.markAll (formals.zipIdx 1)),
      t.Sized := by
    intro t ht
    obtain ⟨t₀, ht₀, rfl⟩ := List.mem_map.mp ht
    exact sized_markAll hids hlen hmark ht₀
  obtain ⟨hlength, hlow⟩ := expandLoop_length huse hsized hloop
  have hexpanded : ∀ w ∈ formals, ((Piece.word w).expanded formals
      (useArg m (List.replicate formals.length oneChar))).length = 1 := by
    intro w hw
    rw [Piece.expanded, if_pos hw]
    exact huse _ (Nat.succ_pos _) (Nat.succ_lt_succ (List.idxOf_lt_length_of_mem hw))
  have hle : ∀ t ∈ pieces (bodyOf false lines), (t.expanded formals
      (useArg m (List.replicate formals.length oneChar))).length ≤
        (t.markAll (formals.zipIdx 1)).weight := by
    intro t ht
    cases t with
    | char c =>
      rw [markAll_char]
      exact Nat.le_refl 1
    | marks more a => exact absurd ht (marks_not_mem _ more a)
    | word w =>
      by_cases hw : w ∈ formals
      · simp only [hexpanded w hw]
        rw [markAll_formal hw]
        obtain ⟨hsame, -⟩ | ⟨more, a, hmore, -⟩ :=
          markAll_marks (laterArgs formals w) 0 (formals.idxOf w + 1)
        · rw [hsame]
          exact Nat.le_refl 1
        · rw [hmore]
          exact Nat.succ_le_succ (Nat.zero_le _)
      · simp only [Piece.expanded, if_neg hw]
        rw [markAll_word, if_neg hw]
        exact Nat.le_refl _
  have hsum : ((pieces (bodyOf false lines)).map fun t =>
      (t.markAll (formals.zipIdx 1)).weight).sum =
        ((pieces (bodyOf false lines)).map fun t => (t.expanded formals
          (useArg m (List.replicate formals.length oneChar))).length).sum := by
    rw [List.map_map, substituted, List.length_flatMap] at hlength
    exact hlength.symm
  -- so each piece is expanded to the length of its markers
  have hweights := eq_of_sum_eq hle hsum
  intro i f hget hmem
  have hf := List.mem_of_getElem? hget
  have hidx : formals.idxOf f = i := by
    obtain ⟨hi, rfl⟩ := List.getElem?_eq_some_iff.mp hget
    exact hnodup.idxOf_getElem i hi
  have hi : i < formals.length := hidx ▸ List.idxOf_lt_length_of_mem hf
  have hweight : ((Piece.word f).markAll (formals.zipIdx 1)).weight = 1 :=
    (hweights _ hmem).trans (hexpanded f hf)
  have hformal := markAll_formal hf
  rw [hidx] at hformal
  obtain ⟨hsame, hlater⟩ | ⟨more, a, hmore, hlt, -, -⟩ :=
    markAll_marks (laterArgs formals f) 0 (i + 1)
  · refine ⟨?_, fun j g hj hij hg => ?_⟩
    · have hcode := hlow (i + 1) (List.mem_map.mpr ⟨_, hmem, hformal.trans hsame⟩)
      rwa [code_ch (Nat.succ_pos _) (by omega)] at hcode
    · exact hlater _ (laterArgs_of_getElem? hj (hidx ▸ hij)) hg
  · rw [hformal, hmore, Piece.weight] at hweight
    omega

/-- Every use of a macro gives its body with the actual arguments in the place of the formal ones
if and only if the formal arguments of the body have numbers below 128 that are not the code of a
later formal argument. -/
theorem expands_iff (formals : List CString) (defaults : List (Option CString))
    (lines : List CString) (hids : Identifiers formals) (hnodup : formals.Nodup)
    (hlen : formals.length ≤ 255) (hcont : Continued false lines)
    (hmark : argMark ∉ bodyOf false lines) :
    Expands formals defaults lines ↔ Markable formals (bodyOf false lines) :=
  ⟨markable_of_expands hids hnodup hlen hcont hmark, expands_of_markable hids hcont hmark⟩

theorem expands_iff_sum : Expands [ofString "x", ofString "y"] [none, none] [ofString "x + y"] ↔
    Markable [ofString "x", ofString "y"] (bodyOf false [ofString "x + y"]) :=
  expands_iff _ _ _
    (List.forall_mem_cons.mpr ⟨⟨List.cons_ne_nil _ _, List.forall_mem_singleton.mpr rfl⟩,
      List.forall_mem_singleton.mpr ⟨List.cons_ne_nil _ _, List.forall_mem_singleton.mpr rfl⟩⟩)
    (by decide) (by decide) ⟨fun h => absurd rfl h, trivial⟩ (by decide)

/-- Names of two letters. -/
def twoLetters (k : Nat) : CString := [ch (97 + k / 16), ch (97 + k % 16)]

/-- The last of 128 formal arguments is not replaced by its actual argument. -/
theorem not_expands_last : ¬ Expands ((List.range 128).map twoLetters)
    (List.replicate 128 none) [twoLetters 127] := by
  have hcodes : ∀ k < 128, (ch (97 + k / 16)).1.1 = 97 + k / 16 ∧
      (ch (97 + k % 16)).1.1 = 97 + k % 16 := fun k hk =>
    ⟨code_ch (by omega) (by omega), code_ch (by omega) (by omega)⟩
  have hids : Identifiers ((List.range 128).map twoLetters) := by
    intro f hf
    obtain ⟨k, hk, rfl⟩ := List.mem_map.mp hf
    obtain ⟨hhigh, hlow⟩ := hcodes k (List.mem_range.mp hk)
    refine ⟨List.cons_ne_nil _ _, fun c hc => ?_⟩
    have hk := List.mem_range.mp hk
    obtain rfl | hc := List.mem_cons.mp hc
    · simp only [isIdChar, hhigh, Bool.or_eq_true, Bool.and_eq_true, decide_eq_true_eq]
      omega
    · obtain rfl := List.mem_singleton.mp hc
      simp only [isIdChar, hlow, Bool.or_eq_true, Bool.and_eq_true, decide_eq_true_eq]
      omega
  have hnodup : ((List.range 128).map twoLetters).Nodup := by
    refine List.Nodup.map_on ?_ List.nodup_range
    intro a ha b hb hab
    obtain ⟨hhigh, hrest⟩ := List.cons.inj hab
    obtain ⟨hahigh, halow⟩ := hcodes a (List.mem_range.mp ha)
    obtain ⟨hbhigh, hblow⟩ := hcodes b (List.mem_range.mp hb)
    rw [hhigh] at hahigh
    rw [(List.cons.inj hrest).1] at halow
    omega
  intro h
  have hcont : Continued false [twoLetters 127] := ⟨fun h => absurd rfl h, trivial⟩
  have hmarkable := markable_of_expands hids hnodup (by simp) hcont (by decide) h
  have hget : ((List.range 128).map twoLetters)[127]? = some (twoLetters 127) := by
    rw [List.getElem?_map, List.getElem?_range (by decide)]
    rfl
  have hmem : Piece.word (twoLetters 127) ∈ pieces (bodyOf false [twoLetters 127]) := by decide
  exact absurd (hmarkable 127 _ hget hmem).1 (by decide)

end Icarus.Ivlpp
