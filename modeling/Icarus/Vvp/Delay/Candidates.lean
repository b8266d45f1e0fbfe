import Icarus.Core.Latest
import Icarus.Vvp.Delay.Modpath
import Mathlib.Order.Bounds.Basic

/-!
# The delays chosen for module paths

Two scans collect the candidates: the enabled sources with the latest wake time, and the
`ifnone` sources with a later one. The delays are the smallest that the candidates leave.
-/

namespace Icarus.Vvp

open Core

/-- The wake time as a number. -/
def ModpathSrc.wake (src : ModpathSrc) : Nat := src.wakeTime.toNat

namespace Modpath

variable {s : Modpath} {src other : ModpathSrc} {idx : Fin 12}

/-- The delays selected by `recv_vec4`, `out_at`; none where there is no candidate. -/
def delays (s : Modpath) : Option (Fin 12 → BitVec 64) :=
  match s.candidateList with
  | [] => none
  | src :: rest => some (s.outAt src rest)

/-! ## Which delays are meant -/

/-- A source whose condition holds. -/
def Enabled (s : Modpath) (src : ModpathSrc) : Prop :=
  src ∈ s.srcList ∧ src.conditionFlag = true

/-- A source that counts: an enabled one, or one of the `ifnone` paths, which have no
condition, that woke later than every enabled one. -/
def Counts (s : Modpath) (src : ModpathSrc) : Prop :=
  s.Enabled src ∨ src ∈ s.ifnoneList ∧ ∀ other, s.Enabled other → other.wake < src.wake

/-- A source that counts and has the latest wake time of those. -/
def Selected (s : Modpath) (src : ModpathSrc) : Prop :=
  s.Counts src ∧ ∀ other, s.Counts other → other.wake ≤ src.wake

/-- What is left at the present time of a delay that began at the wake time. -/
def remaining (s : Modpath) (src : ModpathSrc) (idx : Fin 12) : Nat :=
  src.wake + (src.delay idx).toNat - s.simtime.toNat

/-- For each edge, the delay is the smallest that the selected sources leave. -/
def DelaysLeast (s : Modpath) : Prop :=
  match s.delays with
  | none => ∀ src, ¬ s.Selected src
  | some out => ∀ idx, IsLeast {t | ∃ src, s.Selected src ∧ s.remaining src idx = t}
      (out idx).toNat

/-- The sources of the same paths, added in another order. -/
def reorder (s : Modpath) (srcList ifnoneList : List ModpathSrc) : Modpath :=
  { s with srcList := srcList, ifnoneList := ifnoneList }

/-- In whatever order the sources were added, the delays are the same, and the smallest. -/
def DelaysRight (s : Modpath) : Prop :=
  ∀ srcList ifnoneList, srcList.Perm s.srcList → ifnoneList.Perm s.ifnoneList →
    (s.reorder srcList ifnoneList).delays = s.delays ∧
      (s.reorder srcList ifnoneList).DelaysLeast

/-! ## The scans -/

/-- The state of a scan with the wake time as a number. -/
def scanned (c : List ModpathSrc × BitVec 64) : List ModpathSrc × Nat := (c.1, c.2.toNat)

theorem scanned_add (joins : Nat → Prop) [DecidablePred joins] (tie : Prop) [Decidable tie]
    (c : List ModpathSrc × BitVec 64) (cur : ModpathSrc)
    (htie : tie ↔ cur.wakeTime = c.2 ∧ joins c.2.toNat) :
    scanned (if c.1 = [] then ([cur], cur.wakeTime) else if tie then (c.1 ++ [cur], c.2)
        else if c.2 < cur.wakeTime then ([cur], cur.wakeTime) else c) =
      Latest.add ModpathSrc.wake joins (scanned c) cur := by
  by_cases hnil : c.1 = []
  · rw [if_pos hnil, Latest.add_of_nil (c := scanned c) hnil]
    rfl
  rw [if_neg hnil]
  rcases lt_trichotomy cur.wake c.2.toNat with hlt | heq | hgt
  · have hne : ¬ tie := fun h => hlt.ne (congrArg BitVec.toNat (htie.mp h).1)
    rw [if_neg hne, if_neg (BitVec.lt_def.not.mpr hlt.not_gt)]
    exact (Latest.add_of_le (c := scanned c) hnil hlt.le fun heq => absurd heq hlt.ne).symm
  · have htime : cur.wakeTime = c.2 := BitVec.toNat_inj.mp heq
    by_cases hjoins : joins c.2.toNat
    · rw [if_pos (htie.mpr ⟨htime, hjoins⟩)]
      exact (Latest.add_of_tie (c := scanned c) hnil heq hjoins).symm
    · rw [if_neg fun h => hjoins (htie.mp h).2, if_neg (BitVec.lt_def.not.mpr heq.le.not_gt)]
      exact (Latest.add_of_le (c := scanned c) hnil heq.le fun _ => hjoins).symm
  · have hne : ¬ tie := fun h => hgt.ne' (congrArg BitVec.toNat (htie.mp h).1)
    rw [if_neg hne, if_pos (BitVec.lt_def.mpr hgt)]
    exact (Latest.add_of_lt (c := scanned c) hgt).symm

theorem foldl_addSrc (l : List ModpathSrc) (c : List ModpathSrc × BitVec 64) :
    scanned (l.foldl addSrc c) =
      Latest.scan ModpathSrc.wake (fun _ => True) (scanned c) (l.filter (·.conditionFlag)) := by
  induction l generalizing c with
  | nil => rfl
  | cons cur l ih =>
    rw [List.foldl_cons, ih]
    cases hflag : cur.conditionFlag with
    | false => rw [List.filter_cons_of_neg (by simp [hflag]), addSrc, if_pos hflag]
    | true =>
      have hadd := scanned_add (fun _ => True) (cur.wakeTime = c.2) c cur (and_true _).symm.to_iff
      rw [List.filter_cons_of_pos hflag, Latest.scan, Latest.scan, List.foldl_cons, ← hadd,
        addSrc, if_neg (by simp [hflag])]

theorem foldl_addIfnone (w : BitVec 64) (l : List ModpathSrc)
    (c : List ModpathSrc × BitVec 64) :
    scanned (l.foldl (addIfnone w) c) =
      Latest.scan ModpathSrc.wake (w.toNat < ·) (scanned c) l := by
  induction l generalizing c with
  | nil => rfl
  | cons cur l ih =>
    have hadd := scanned_add (w.toNat < ·) (cur.wakeTime = c.2 ∧ w < c.2) c cur Iff.rfl
    rw [List.foldl_cons, ih, Latest.scan, Latest.scan, List.foldl_cons, ← hadd]
    rfl

/-- The enabled sources are scanned first. -/
def candidates (s : Modpath) : List ModpathSrc × BitVec 64 := s.srcList.foldl addSrc ([], 0)

theorem mem_filter_enabled : src ∈ s.srcList.filter (·.conditionFlag) ↔ s.Enabled src := by
  rw [List.mem_filter]
  rfl

theorem kept_candidates (s : Modpath) :
    Latest.Kept ModpathSrc.wake (fun _ => True) (s.srcList.filter (·.conditionFlag))
      (scanned s.candidates) := by
  rw [candidates, foldl_addSrc]
  exact (Latest.kept_nil 0).scan _

theorem mem_candidates :
    src ∈ s.candidates.1 ↔ s.Enabled src ∧ ∀ other, s.Enabled other → other.wake ≤ src.wake := by
  rw [← mem_filter_enabled]
  simp only [← mem_filter_enabled]
  exact s.kept_candidates.mem_iff trivial src

/-- Without an enabled source the first scan leaves what it began with. -/
theorem candidates_of_none (h : ∀ src, ¬ s.Enabled src) : s.candidates = ([], 0) := by
  have hnil : s.srcList.filter (·.conditionFlag) = [] :=
    List.eq_nil_iff_forall_not_mem.mpr fun src hsrc => h src (mem_filter_enabled.mp hsrc)
  have hscan := foldl_addSrc s.srcList ([], 0)
  rw [hnil] at hscan
  have hlist := congrArg Prod.fst hscan
  have htime := congrArg Prod.snd hscan
  exact Prod.ext hlist (BitVec.toNat_inj.mp htime)

theorem candidates_ne_nil (h : s.Enabled src) : s.candidates.1 ≠ [] :=
  s.kept_candidates.ne_nil src (mem_filter_enabled.mpr h)

theorem wake_le_candidates (h : s.Enabled src) : src.wake ≤ s.candidates.2.toNat :=
  s.kept_candidates.le src (mem_filter_enabled.mpr h)

theorem candidateList_eq (s : Modpath) :
    s.candidateList = (Latest.scan ModpathSrc.wake (s.candidates.2.toNat < ·)
      (scanned s.candidates) s.ifnoneList).1 :=
  congrArg Prod.fst (foldl_addIfnone s.candidates.2 s.ifnoneList s.candidates)

/-! ## What is selected -/

/-- A source is enabled, or one of the `ifnone` paths woke after time 0. -/
def KeepsTies (s : Modpath) : Prop :=
  (∃ src, s.Enabled src) ∨ ∃ src ∈ s.ifnoneList, src.wake ≠ 0

theorem kept_ifnone (s : Modpath) :
    Latest.Kept ModpathSrc.wake (s.candidates.2.toNat < ·) (s.candidates.1 ++ s.ifnoneList)
      (Latest.scan ModpathSrc.wake (s.candidates.2.toNat < ·) (scanned s.candidates)
        s.ifnoneList) := by
  refine Latest.Kept.scan ⟨fun _ ha => ha, s.kept_candidates.key_eq, ?_, ?_, ?_⟩ s.ifnoneList
  · exact fun a ha => (s.kept_candidates.key_eq a ha).le
  · exact fun a ha => List.ne_nil_of_mem ha
  · exact fun _ a ha _ => ha

/-- An enabled source counts; so the enabled sources with the latest wake time are kept where
no source of the `ifnone` paths woke later. -/
theorem mem_candidateList_of_le (henabled : s.Enabled other)
    (hle : ∀ a ∈ s.ifnoneList, a.wake ≤ s.candidates.2.toNat) :
    src ∈ s.candidateList ↔ s.Selected src := by
  have hne : s.candidates.1 ≠ [] := candidates_ne_nil henabled
  have hlist : s.candidateList = s.candidates.1 := s.candidateList_eq.trans
    (congrArg Prod.fst (Latest.scan_of_le (c := scanned s.candidates) hne (lt_irrefl _) hle))
  rw [hlist]
  constructor
  · intro hsrc
    have hwake : src.wake = s.candidates.2.toNat := s.kept_candidates.key_eq src hsrc
    obtain ⟨hen, -⟩ := mem_candidates.mp hsrc
    refine ⟨.inl hen, ?_⟩
    rintro a (ha | ⟨ha, -⟩)
    · exact hwake ▸ wake_le_candidates ha
    · exact hwake ▸ hle a ha
  · rintro ⟨hen | ⟨hmem, hlater⟩, hlatest⟩
    · exact mem_candidates.mpr ⟨hen, fun a ha => hlatest a (.inl ha)⟩
    · obtain ⟨a, ha⟩ := List.exists_mem_of_ne_nil _ hne
      have hwake : a.wake = s.candidates.2.toNat := s.kept_candidates.key_eq a ha
      have hlt := hlater a (mem_candidates.mp ha).1
      have := hle src hmem
      omega

/-- The sources of the `ifnone` paths with the latest wake time are kept where one of them woke
later than every enabled source. -/
theorem mem_candidateList_of_lt (hmem : other ∈ s.ifnoneList)
    (hlt : s.candidates.2.toNat < other.wake) : src ∈ s.candidateList ↔ s.Selected src := by
  have hcounts : ∀ a ∈ s.ifnoneList, s.candidates.2.toNat < a.wake → s.Counts a :=
    fun a ha hw => .inr ⟨ha, fun b hb => (wake_le_candidates hb).trans_lt hw⟩
  have hwakes := hlt.trans_le (s.kept_ifnone.le other (List.mem_append_right _ hmem))
  rw [candidateList_eq, s.kept_ifnone.mem_iff hwakes]
  constructor
  · rintro ⟨hsrc, hlatest⟩
    have hw := hlt.trans_le (hlatest other (List.mem_append_right _ hmem))
    have hifnone : src ∈ s.ifnoneList := by
      rcases List.mem_append.mp hsrc with hcand | hifnone
      · exact absurd (wake_le_candidates (mem_candidates.mp hcand).1) hw.not_ge
      · exact hifnone
    refine ⟨hcounts src hifnone hw, ?_⟩
    rintro a (ha | ⟨ha, -⟩)
    · exact (wake_le_candidates ha).trans hw.le
    · exact hlatest a (List.mem_append_right _ ha)
  · rintro ⟨hsrc, hlatest⟩
    have hw := hlt.trans_le (hlatest other (hcounts other hmem hlt))
    have hifnone : src ∈ s.ifnoneList := by
      rcases hsrc with henabled | hifnone
      · exact absurd (wake_le_candidates henabled) hw.not_ge
      · exact hifnone.1
    refine ⟨List.mem_append_right _ hifnone, fun a ha => ?_⟩
    rcases List.mem_append.mp ha with hcand | ha
    · exact (wake_le_candidates (mem_candidates.mp hcand).1).trans hw.le
    · rcases Nat.lt_or_ge s.candidates.2.toNat a.wake with hlater | hearlier
      · exact hlatest a (hcounts a ha hlater)
      · exact hearlier.trans hw.le

theorem mem_candidateList (h : s.KeepsTies) : src ∈ s.candidateList ↔ s.Selected src := by
  by_cases hlater : ∃ a ∈ s.ifnoneList, s.candidates.2.toNat < a.wake
  · obtain ⟨a, ha, hlt⟩ := hlater
    exact mem_candidateList_of_lt ha hlt
  · push Not at hlater
    rcases h with ⟨a, ha⟩ | ⟨a, ha, hwake⟩
    · exact mem_candidateList_of_le ha hlater
    · by_cases henabled : ∃ b, s.Enabled b
      · obtain ⟨b, hb⟩ := henabled
        exact mem_candidateList_of_le hb hlater
      · have hzero := candidates_of_none (not_exists.mp henabled)
        have hle := hlater a ha
        rw [hzero] at hle
        exact absurd (Nat.le_zero.mp hle) hwake

/-- Without an enabled source, and with no wake time after 0, only the first source of the
`ifnone` paths is kept, though all are selected. -/
theorem candidateList_of_not_keepsTies (h : ¬ s.KeepsTies) :
    s.candidateList = s.ifnoneList.head?.toList := by
  obtain ⟨hnone, hzero⟩ := not_or.mp h
  have hwake : ∀ a ∈ s.ifnoneList, a.wake = 0 := fun a ha => by
    by_contra hne
    exact hzero ⟨a, ha, hne⟩
  rw [candidateList_eq, candidates_of_none (not_exists.mp hnone)]
  cases hlist : s.ifnoneList with
  | nil => rfl
  | cons first rest =>
    rw [hlist] at hwake
    have hfirst := hwake first List.mem_cons_self
    rw [Latest.scan, List.foldl_cons, Latest.add_of_nil rfl, hfirst]
    exact congrArg Prod.fst (Latest.scan_of_le (c := ([first], 0)) (List.cons_ne_nil _ _)
      (lt_irrefl 0) fun a ha => (hwake a (List.mem_cons_of_mem first ha)).le)

theorem selected_of_not_keepsTies (h : ¬ s.KeepsTies) :
    s.Selected src ↔ src ∈ s.ifnoneList := by
  obtain ⟨hnone, hzero⟩ := not_or.mp h
  have hwake : ∀ a ∈ s.ifnoneList, a.wake = 0 := fun a ha => by
    by_contra hne
    exact hzero ⟨a, ha, hne⟩
  constructor
  · rintro ⟨henabled | ⟨hmem, -⟩, -⟩
    · exact absurd ⟨src, henabled⟩ hnone
    · exact hmem
  · intro hmem
    refine ⟨.inr ⟨hmem, fun a ha => absurd ⟨a, ha⟩ hnone⟩, ?_⟩
    rintro a (ha | ⟨ha, -⟩)
    · exact absurd ⟨a, ha⟩ hnone
    · rw [hwake a ha]
      exact Nat.zero_le _

/-! ## What is left of the delays -/

/-- The wake time and the delay of an edge have a sum past the last time. -/
def PastEnd (src : ModpathSrc) (idx : Fin 12) : Prop :=
  2 ^ 64 ≤ src.wake + (src.delay idx).toNat

/-- A selected source whose delay ends past the last time is due no earlier than another one,
even with its sum wrapped around. -/
def WrapHidden (s : Modpath) : Prop :=
  ∀ idx src, s.Selected src → PastEnd src idx → ∃ other, s.Selected other ∧
    ¬ PastEnd other idx ∧ s.remaining other idx ≤ s.remaining src idx - 2 ^ 64

theorem leftAt_toNat (s : Modpath) (src : ModpathSrc) (idx : Fin 12) :
    (s.leftAt src idx).toNat =
      (src.wake + (src.delay idx).toNat) % 2 ^ 64 - s.simtime.toNat := by
  unfold leftAt
  rw [show src.wake = src.wakeTime.toNat from rfl, ← BitVec.toNat_add]
  generalize src.wakeTime + src.delay idx = tmp
  simp only
  split_ifs with hle
  · exact (Nat.sub_eq_zero_of_le hle).symm
  · exact BitVec.toNat_sub_of_le (BitVec.le_of_lt (BitVec.not_le.mp hle))

theorem leftAt_of_not_pastEnd (h : ¬ PastEnd src idx) :
    (s.leftAt src idx).toNat = s.remaining src idx := by
  rw [leftAt_toNat, Nat.mod_eq_of_lt (not_le.mp h), remaining]

theorem leftAt_of_pastEnd (h : PastEnd src idx) :
    (s.leftAt src idx).toNat = s.remaining src idx - 2 ^ 64 := by
  have hwake : src.wake < 2 ^ 64 := src.wakeTime.isLt
  have hdelay := (src.delay idx).isLt
  rw [leftAt_toNat, Nat.mod_eq_sub_mod h, Nat.mod_eq_of_lt (by omega), remaining]
  omega

theorem lt_remaining_of_pastEnd (h : PastEnd src idx) :
    s.remaining src idx - 2 ^ 64 < s.remaining src idx := by
  have hnow := s.simtime.isLt
  unfold PastEnd at h
  unfold remaining
  omega

theorem leftAt_le_remaining (s : Modpath) (src : ModpathSrc) (idx : Fin 12) :
    (s.leftAt src idx).toNat ≤ s.remaining src idx := by
  by_cases h : PastEnd src idx
  · rw [leftAt_of_pastEnd h]
    exact Nat.sub_le _ _
  · exact (leftAt_of_not_pastEnd h).le

theorem foldl_isLeast (s : Modpath) (rest : List ModpathSrc) (out : Fin 12 → BitVec 64)
    (idx : Fin 12) :
    IsLeast {t | (out idx).toNat = t ∨ ∃ a ∈ rest, (s.leftAt a idx).toNat = t}
      (rest.foldl (fun out src idx => if s.leftAt src idx < out idx then s.leftAt src idx
        else out idx) out idx).toNat := by
  induction rest generalizing out with
  | nil =>
    refine ⟨.inl rfl, ?_⟩
    rintro t (ht | ⟨a, ha, -⟩)
    · exact ht.le
    · exact absurd ha List.not_mem_nil
  | cons src rest ih =>
    obtain ⟨hmem, hle⟩ := ih fun idx => if s.leftAt src idx < out idx then s.leftAt src idx
      else out idx
    have hsmaller : (if s.leftAt src idx < out idx then s.leftAt src idx else out idx).toNat ≤
          (s.leftAt src idx).toNat ∧
        (if s.leftAt src idx < out idx then s.leftAt src idx else out idx).toNat ≤
          (out idx).toNat := by
      split_ifs with hlt
      · exact ⟨le_refl _, (BitVec.lt_def.mp hlt).le⟩
      · exact ⟨not_lt.mp hlt, le_refl _⟩
    refine ⟨?_, ?_⟩
    · rcases hmem with hmem | ⟨a, ha, hmem⟩
      · rw [List.foldl_cons, ← hmem]
        split_ifs
        · exact .inr ⟨src, List.mem_cons_self, rfl⟩
        · exact .inl rfl
      · exact .inr ⟨a, List.mem_cons_of_mem src ha, hmem⟩
    · rintro t (rfl | ⟨a, ha, rfl⟩)
      · exact (hle (.inl rfl)).trans hsmaller.2
      · rcases List.mem_cons.mp ha with rfl | ha
        · exact (hle (.inl rfl)).trans hsmaller.1
        · exact hle (.inr ⟨a, ha, rfl⟩)

/-- The delays are the least that the candidates leave. -/
theorem delays_isLeast {out : Fin 12 → BitVec 64} (h : s.delays = some out) (idx : Fin 12) :
    IsLeast {t | ∃ a ∈ s.candidateList, (s.leftAt a idx).toNat = t} (out idx).toNat := by
  unfold delays at h
  split at h
  · exact absurd h (Option.some_ne_none out).symm
  · rename_i src rest hlist
    rw [hlist, ← Option.some.inj h]
    have hleast := s.foldl_isLeast rest (s.leftAt src) idx
    have hset : {t | ∃ a ∈ src :: rest, (s.leftAt a idx).toNat = t} =
        {t | (s.leftAt src idx).toNat = t ∨ ∃ a ∈ rest, (s.leftAt a idx).toNat = t} := by
      ext t
      exact List.exists_mem_cons_iff _ src rest
    rw [hset]
    exact hleast

theorem delays_eq_none : s.delays = none ↔ s.candidateList = [] := by
  unfold delays
  split
  · rename_i hlist
    exact iff_of_true rfl hlist
  · rename_i src rest hlist
    rw [hlist]
    exact iff_of_false (Option.some_ne_none _) (List.cons_ne_nil _ _)

/-- Where all that is selected is a candidate, the delays are right when the sums that wrap
around are never the least. -/
theorem delaysLeast_iff (hcand : ∀ src, src ∈ s.candidateList ↔ s.Selected src) :
    s.DelaysLeast ↔ s.WrapHidden := by
  unfold DelaysLeast
  cases hdelays : s.delays with
  | none =>
    have hnone : ∀ src, ¬ s.Selected src := fun src hsrc => by
      have hmem := (hcand src).mpr hsrc
      rw [delays_eq_none.mp hdelays] at hmem
      exact List.not_mem_nil hmem
    exact iff_of_true hnone fun idx src hsrc => absurd hsrc (hnone src)
  | some out =>
    have hleast := fun idx => delays_isLeast hdelays idx
    simp only [hcand] at hleast
    refine forall_congr' fun idx => ?_
    obtain ⟨⟨first, hfirst, hout⟩, hle⟩ := hleast idx
    constructor
    · rintro ⟨⟨other, hother, hremaining⟩, -⟩ src hsrc hpast
      refine ⟨other, hother, fun hwraps => ?_, ?_⟩
      · have hle' := hle ⟨other, hother, rfl⟩
        have hlt := s.lt_remaining_of_pastEnd hwraps
        rw [leftAt_of_pastEnd hwraps] at hle'
        omega
      · rw [hremaining, ← leftAt_of_pastEnd hpast]
        exact hle ⟨src, hsrc, rfl⟩
    · intro hhidden
      refine ⟨?_, ?_⟩
      · by_cases hpast : PastEnd first idx
        · obtain ⟨other, hother, hin, hsooner⟩ := hhidden first hfirst hpast
          refine ⟨other, hother, le_antisymm ?_ ?_⟩
          · rwa [← hout, leftAt_of_pastEnd hpast]
          · rw [← leftAt_of_not_pastEnd hin]
            exact hle ⟨other, hother, rfl⟩
        · exact ⟨first, hfirst, by rw [← hout, leftAt_of_not_pastEnd hpast]⟩
      · rintro t ⟨src, hsrc, rfl⟩
        exact (hle ⟨src, hsrc, rfl⟩).trans (s.leftAt_le_remaining src idx)

/-! ## The order of the sources -/

section Reorder

variable {srcList ifnoneList : List ModpathSrc}

theorem enabled_reorder (hsrc : srcList.Perm s.srcList) (src : ModpathSrc) :
    (s.reorder srcList ifnoneList).Enabled src ↔ s.Enabled src :=
  and_congr_left fun _ => hsrc.mem_iff

theorem counts_reorder (hsrc : srcList.Perm s.srcList) (hifnone : ifnoneList.Perm s.ifnoneList)
    (src : ModpathSrc) : (s.reorder srcList ifnoneList).Counts src ↔ s.Counts src := by
  unfold Counts
  simp only [enabled_reorder hsrc]
  exact or_congr Iff.rfl (and_congr_left fun _ => hifnone.mem_iff)

theorem selected_reorder (hsrc : srcList.Perm s.srcList)
    (hifnone : ifnoneList.Perm s.ifnoneList) (src : ModpathSrc) :
    (s.reorder srcList ifnoneList).Selected src ↔ s.Selected src := by
  unfold Selected
  simp only [counts_reorder hsrc hifnone]

theorem keepsTies_reorder (hsrc : srcList.Perm s.srcList)
    (hifnone : ifnoneList.Perm s.ifnoneList) :
    (s.reorder srcList ifnoneList).KeepsTies ↔ s.KeepsTies := by
  unfold KeepsTies
  simp only [enabled_reorder hsrc]
  exact or_congr Iff.rfl (exists_congr fun src => and_congr_left fun _ => hifnone.mem_iff)

theorem wrapHidden_reorder (hsrc : srcList.Perm s.srcList)
    (hifnone : ifnoneList.Perm s.ifnoneList) :
    (s.reorder srcList ifnoneList).WrapHidden ↔ s.WrapHidden := by
  unfold WrapHidden
  simp only [selected_reorder hsrc hifnone]
  rfl

/-- Two orders whose delays are both the smallest have the same delays. -/
theorem delays_reorder (hsrc : srcList.Perm s.srcList) (hifnone : ifnoneList.Perm s.ifnoneList)
    (h : s.DelaysLeast) (h' : (s.reorder srcList ifnoneList).DelaysLeast) :
    (s.reorder srcList ifnoneList).delays = s.delays := by
  unfold DelaysLeast at h h'
  simp only [selected_reorder hsrc hifnone] at h'
  cases hdelays : s.delays with
  | none =>
    rw [hdelays] at h
    cases hdelays' : (s.reorder srcList ifnoneList).delays with
    | none => rfl
    | some out' =>
      rw [hdelays'] at h'
      obtain ⟨⟨src, hselected, -⟩, -⟩ := h' 0
      exact absurd hselected (h src)
  | some out =>
    rw [hdelays] at h
    cases hdelays' : (s.reorder srcList ifnoneList).delays with
    | none =>
      rw [hdelays'] at h'
      obtain ⟨⟨src, hselected, -⟩, -⟩ := h 0
      exact absurd hselected (h' src)
    | some out' =>
      rw [hdelays'] at h'
      congr 1
      funext idx
      exact BitVec.toNat_inj.mp ((h' idx).unique (h idx))

end Reorder

/-- The sources of the `ifnone` paths leave the same delays. -/
def IfnoneAlike (s : Modpath) : Prop :=
  ∀ a ∈ s.ifnoneList, ∀ b ∈ s.ifnoneList, ∀ idx, s.remaining a idx = s.remaining b idx

theorem delaysRight_of_keepsTies (h : s.KeepsTies) : s.DelaysRight ↔ s.WrapHidden := by
  have hleast := delaysLeast_iff fun _ => mem_candidateList h
  constructor
  · exact fun hright => hleast.mp (hright s.srcList s.ifnoneList (.refl _) (.refl _)).2
  · intro hhidden srcList ifnoneList hsrc hifnone
    have hties := (keepsTies_reorder hsrc hifnone).mpr h
    have hleast' := (delaysLeast_iff fun _ => mem_candidateList hties).mpr
      ((wrapHidden_reorder hsrc hifnone).mpr hhidden)
    exact ⟨delays_reorder hsrc hifnone (hleast.mpr hhidden) hleast', hleast'⟩

theorem delays_of_not_keepsTies (h : ¬ s.KeepsTies) :
    s.delays = s.ifnoneList.head?.map s.leftAt := by
  unfold delays
  rw [candidateList_of_not_keepsTies h]
  cases s.ifnoneList with
  | nil => rfl
  | cons first rest => rfl

/-- A delay that began at time 0 ends in time. -/
theorem not_pastEnd_of_not_keepsTies (h : ¬ s.KeepsTies) (hsrc : src ∈ s.ifnoneList) :
    ¬ PastEnd src idx := by
  have hwake : src.wake = 0 := by
    by_contra hne
    exact h (.inr ⟨src, hsrc, hne⟩)
  have hdelay := (src.delay idx).isLt
  unfold PastEnd
  omega

theorem delaysRight_of_not_keepsTies (h : ¬ s.KeepsTies) : s.DelaysRight ↔ s.IfnoneAlike := by
  have hleft : ∀ src ∈ s.ifnoneList, ∀ idx, (s.leftAt src idx).toNat = s.remaining src idx :=
    fun src hsrc idx => leftAt_of_not_pastEnd (not_pastEnd_of_not_keepsTies h hsrc)
  constructor
  · intro hright a ha b hb idx
    -- the order that puts a source first shows its delay to be the least
    have hfirst : ∀ src ∈ s.ifnoneList, ∀ other ∈ s.ifnoneList,
        s.remaining src idx ≤ s.remaining other idx := by
      intro src hsrc other hother
      obtain ⟨before, after, hsplit⟩ := List.append_of_mem hsrc
      have hperm : (src :: (before ++ after)).Perm s.ifnoneList := by
        rw [hsplit]
        exact List.perm_middle.symm
      have hties := (keepsTies_reorder (.refl s.srcList) hperm).not.mpr h
      have hleast := (hright s.srcList _ (.refl _) hperm).2
      unfold DelaysLeast at hleast
      rw [delays_of_not_keepsTies hties] at hleast
      rw [← hleft src hsrc idx]
      refine (hleast idx).2 ⟨other, ?_, rfl⟩
      exact (selected_of_not_keepsTies hties).mpr (hperm.mem_iff.mpr hother)
    exact le_antisymm (hfirst a ha b hb) (hfirst b hb a ha)
  · intro halike
    have hleast : ∀ srcList ifnoneList, srcList.Perm s.srcList →
        ifnoneList.Perm s.ifnoneList → (s.reorder srcList ifnoneList).DelaysLeast := by
      intro srcList ifnoneList hsrc hifnone
      have hties := (keepsTies_reorder hsrc hifnone).not.mpr h
      have hselected := fun src => (selected_of_not_keepsTies hties : _ ↔ src ∈ _)
      unfold DelaysLeast
      rw [delays_of_not_keepsTies hties]
      cases ifnoneList with
      | nil => exact fun src hsrc => List.not_mem_nil ((hselected src).mp hsrc)
      | cons first rest =>
        intro idx
        have hmem := hifnone.mem_iff.mp List.mem_cons_self
        refine ⟨⟨first, (hselected first).mpr List.mem_cons_self, (hleft first hmem idx).symm⟩, ?_⟩
        rintro t ⟨src, hsrc, rfl⟩
        have hsrc' := hifnone.mem_iff.mp ((hselected src).mp hsrc)
        exact ((hleft first hmem idx).trans (halike first hmem src hsrc' idx)).le
    intro srcList ifnoneList hsrc hifnone
    have hleast' := hleast srcList ifnoneList hsrc hifnone
    exact ⟨delays_reorder hsrc hifnone (hleast _ _ (.refl _) (.refl _)) hleast', hleast'⟩

/-- The delays do not depend on the order of the sources, and are the smallest that the selected
ones leave, unless several `ifnone` paths alone apply that all woke at time 0 and leave
different delays, or a sum that wraps around would be the smallest. -/
theorem delaysRight_iff (s : Modpath) :
    s.DelaysRight ↔ (s.KeepsTies ∨ s.IfnoneAlike) ∧ s.WrapHidden := by
  by_cases h : s.KeepsTies
  · rw [delaysRight_of_keepsTies h]
    exact (and_iff_right (.inl h)).symm
  · have hhidden : s.WrapHidden := fun idx src hsrc hpast =>
      absurd hpast (not_pastEnd_of_not_keepsTies h ((selected_of_not_keepsTies h).mp hsrc))
    rw [delaysRight_of_not_keepsTies h, or_iff_right h]
    exact (and_iff_left hhidden).symm

/-- Two `ifnone` paths with delays of 5 and 3, before anything woke. -/
theorem ifnone_order_matters :
    ¬ (init 1 [] [⟨fun _ => 5, 0, true⟩, ⟨fun _ => 3, 0, true⟩] 0).DelaysRight := by
  intro hright
  have hsame := (hright [] [⟨fun _ => 3, 0, true⟩, ⟨fun _ => 5, 0, true⟩] (.refl _)
    (.swap _ _ _)).1
  have hfirst := congrArg (fun out => out.map (· 0)) hsame
  exact absurd hfirst (by decide)

end Modpath

end Icarus.Vvp
