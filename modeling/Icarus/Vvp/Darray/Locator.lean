import Icarus.Vvp.Darray.Sort
import Mathlib.Data.List.Nodup

/-!
# Array locators

`unique`, `find`, `find_first`, `find_last`, `min` and `max` of a queue or a dynamic array scan the
elements and put those they locate, or their indices, into a new queue. The indices run over the
whole size, but an element is read with the index as an `unsigned`, and an index is put into the
queue as a vector of 32 bits.
-/

namespace Icarus.Vvp

/-- `get_word` at an index below the size, by what it gives for each element. -/
def srcWord (src : List Planes) (i : Nat) : Planes := src.getD (i % 2 ^ 32) (.allocateBits 0 .x)

/-- `queue_unique_ulong_to_vec4`. -/
def ulongToVec4 (ul bits : Nat) : Planes :=
  (List.range bits).foldl
    (fun val idx =>
      if idx < 64 then val.setBit4 idx (if ul.testBit idx then .one else .zero) else val)
    (.allocateBits bits .zero)

/-- What a locator pushes for an element. -/
def locatorEntry (asIndex : Bool) (i : Nat) (vi : Planes) : Planes :=
  if asIndex then ulongToVec4 i 32 else vi

/-- `queue_run_unique_src`. -/
def queueRunUniqueSrc (src : Option (List Planes)) (asIndex : Bool) : List Planes :=
  match src with
  | none => []
  | some src =>
    (List.range src.length).foldl
      (fun dst i =>
        let vi := srcWord src i
        let seen := (List.range i).any fun j => vi.eeq (srcWord src j)
        if seen then dst else dst ++ [locatorEntry asIndex i vi])
      []

/-- `queue_run_find_matches_src`. -/
def queueRunFindMatchesSrc (src : Option (List Planes)) (cmp : Planes) (asIndex : Bool) :
    List Planes :=
  match src with
  | none => []
  | some src =>
    (List.range src.length).foldl
      (fun dst i =>
        let vi := srcWord src i
        if vi.eeq cmp then dst ++ [locatorEntry asIndex i vi] else dst)
      []

/-- `queue_find_first_last_to_queue_src`, whose loop returns at the first match. -/
def queueFindFirstLastToQueueSrc (src : Option (List Planes)) (cmp : Planes)
    (wantFirst wantIndex : Bool) : List Planes :=
  match src with
  | none => []
  | some src =>
    let indices := if wantFirst then List.range src.length else (List.range src.length).reverse
    match indices.find? fun i => (srcWord src i).eeq cmp with
    | some i => [locatorEntry wantIndex i (srcWord src i)]
    | none => []

/-- One turn of the loop of `queue_run_min_max_src`: `best` and `dst`. -/
def minMaxTurn (wantMax : Bool) (s : Planes × List Planes) (vi : Planes) : Planes × List Planes :=
  if vi.eeq s.1 then (s.1, s.2 ++ [vi])
  else
    let ge := compareGtge vi s.1 .one
    let replace := if wantMax then ge = .one else ge = .zero
    if replace then (vi, [vi]) else s

/-- `queue_run_min_max_src`. -/
def queueRunMinMaxSrc (src : Option (List Planes)) (wantMax : Bool) : List Planes :=
  match src with
  | none => []
  | some src =>
    if src.length = 0 then []
    else
      let best := srcWord src 0
      ((List.range' 1 (src.length - 1)).foldl
        (fun s i => minMaxTurn wantMax s (srcWord src i)) (best, [best])).2

/-! ## What is meant -/

/-- An entry shows an element, or its index. -/
def Shows (asIndex : Bool) (elems : List Planes) (entry : Planes) (i : Nat) : Prop :=
  if asIndex then entry.toVector4.hasXz = false ∧ entry.toVector4.toNat = i
  else elems[i]? = some entry

/-- The entries of a queue show the elements at some indices. -/
def Located (asIndex : Bool) (elems dst : List Planes) (indices : List Nat) : Prop :=
  List.Forall₂ (Shows asIndex elems) dst indices

/-- The indices of the elements that are the same as no element before. -/
def firstIndices (elems : List Vector4) : List Nat :=
  (List.range elems.length).filter fun i => ∀ j < i, elems[j]? ≠ elems[i]?

/-- The indices of the elements that are the same as an operand. -/
def matchIndices (elems : List Vector4) (cmp : Vector4) : List Nat :=
  (List.range elems.length).filter fun i => elems[i]? = some cmp

/-- The elements of a source that may be missing. -/
def srcElems {wid : Nat} (src : Option (List (WidthVec wid))) : List (WidthVec wid) := src.getD []

/-- The vectors of a source, as the locators get them. -/
def srcVectors {wid : Nat} (src : Option (List (WidthVec wid))) : Option (List Planes) :=
  src.map fun elems => elems.map Subtype.val

/-- A number is not beaten by another as the maximum, or as the minimum. -/
def NoWorse (wantMax : Bool) (a b : Nat) : Prop := if wantMax then b ≤ a else a ≤ b

instance (wantMax : Bool) (a b : Nat) : Decidable (NoWorse wantMax a b) :=
  inferInstanceAs (Decidable (if wantMax then b ≤ a else a ≤ b))

/-- The locators give what they are meant to give. -/
structure LocatorsRight {wid : Nat} (src : Option (List (WidthVec wid))) : Prop where
  unique : ∀ asIndex, Located asIndex ((srcElems src).map Subtype.val)
    (queueRunUniqueSrc (srcVectors src) asIndex)
    (firstIndices ((srcElems src).map fun v => v.val.toVector4))
  find : ∀ cmp asIndex, Located asIndex ((srcElems src).map Subtype.val)
    (queueRunFindMatchesSrc (srcVectors src) cmp asIndex)
    (matchIndices ((srcElems src).map fun v => v.val.toVector4) cmp.toVector4)
  findFirst : ∀ cmp asIndex, Located asIndex ((srcElems src).map Subtype.val)
    (queueFindFirstLastToQueueSrc (srcVectors src) cmp true asIndex)
    (matchIndices ((srcElems src).map fun v => v.val.toVector4) cmp.toVector4).head?.toList
  findLast : ∀ cmp asIndex, Located asIndex ((srcElems src).map Subtype.val)
    (queueFindFirstLastToQueueSrc (srcVectors src) cmp false asIndex)
    (matchIndices ((srcElems src).map fun v => v.val.toVector4) cmp.toVector4).getLast?.toList
  minMax : (∀ v ∈ srcElems src, v.Known) → ∀ wantMax, queueRunMinMaxSrc (srcVectors src) wantMax =
    ((srcElems src).filter fun v => ∀ u ∈ srcElems src, NoWorse wantMax v.toNat u.toNat).map
      Subtype.val
  empty : ∀ wantMax, queueRunMinMaxSrc (srcVectors src) wantMax = [] ↔ srcElems src = []

/-! ## Entries -/

/-- The bits of an index are set one after the other. -/
theorem value_ulongToVec4 (ul : Nat) {bits : Nat} (hbits : bits ≤ 64) :
    (ulongToVec4 ul bits).size = bits ∧
      ∀ idx < bits, (ulongToVec4 ul bits).value idx = if ul.testBit idx then .one else .zero := by
  let turn (val : Planes) (idx : Nat) : Planes :=
    if idx < 64 then val.setBit4 idx (if ul.testBit idx then .one else .zero) else val
  have hturns : ∀ n ≤ bits,
      ((List.range n).foldl turn (.allocateBits bits .zero)).size = bits ∧ ∀ idx < n,
        ((List.range n).foldl turn (.allocateBits bits .zero)).value idx =
          if ul.testBit idx then .one else .zero := by
    intro n
    induction n with
    | zero => exact fun _ => ⟨rfl, fun idx hidx => absurd hidx (Nat.not_lt_zero idx)⟩
    | succ n ih =>
      intro hn
      obtain ⟨hsize, hvalue⟩ := ih (by omega)
      have hturn : ∀ val, turn val n = val.setBit4 n (if ul.testBit n then .one else .zero) :=
        fun val => if_pos (by omega)
      rw [List.range_succ, List.foldl_append, List.foldl_cons, List.foldl_nil, hturn]
      refine ⟨by rw [Planes.size_setBit4, hsize], fun idx hidx => ?_⟩
      rw [Planes.value_setBit4 (by rw [hsize]; omega) _ (by rw [hsize]; omega)]
      by_cases heq : idx = n
      · rw [if_pos heq, heq]
      · rw [if_neg heq, hvalue idx (by omega)]
  exact hturns bits le_rfl

theorem toVector4_ulongToVec4 (ul : Nat) {bits : Nat} (hbits : bits ≤ 64) :
    (ulongToVec4 ul bits).toVector4 = Vector4.ofNat bits ul := by
  obtain ⟨hsize, hvalue⟩ := value_ulongToVec4 ul hbits
  apply Planes.toVector4_eq
  · rw [Vector4.length_ofNat, hsize]
  · intro idx hidx
    rw [hsize] at hidx
    rw [hvalue idx hidx]
    simp [Vector4.ofNat, hidx]

/-- The entry for an index is the index, as far as it fits 32 bits. -/
theorem toNat_index (i : Nat) : (ulongToVec4 i 32).toVector4.hasXz = false ∧
    (ulongToVec4 i 32).toVector4.toNat = i % 2 ^ 32 := by
  rw [toVector4_ulongToVec4 i (by omega)]
  exact ⟨Vector4.hasXz_ofNat .., Vector4.toNat_ofNat ..⟩

/-- A loop that pushes an entry for each index that passes a test. -/
theorem foldl_push {α β : Type} (p : α → Bool) (f : α → β) (l : List α) (dst : List β) :
    l.foldl (fun dst i => if p i then dst ++ [f i] else dst) dst = dst ++ (l.filter p).map f := by
  induction l generalizing dst with
  | nil => simp
  | cons a l ih =>
    rw [List.foldl_cons, ih]
    cases hp : p a <;> simp [hp]

/-! ## Located elements -/

section

variable {wid : Nat} {elems : List (WidthVec wid)} {i : Nat}

/-- An element that an `unsigned` reaches. -/
theorem srcWord_eq (hi : i < elems.length) (hsmall : i < 2 ^ 32) :
    srcWord (elems.map Subtype.val) i = elems[i].val := by
  rw [srcWord, Nat.mod_eq_of_lt hsmall, List.getD_eq_getElem _ _ (by rwa [List.length_map]),
    List.getElem_map]

theorem eeq_srcWord (hi : i < elems.length) (hsmall : i < 2 ^ 32) (cmp : Planes) :
    (srcWord (elems.map Subtype.val) i).eeq cmp =
      decide ((elems.map fun v => v.val.toVector4)[i]? = some cmp.toVector4) := by
  rw [srcWord_eq hi hsmall, Planes.eeq_eq, List.getElem?_map, List.getElem?_eq_getElem hi]
  simp

theorem shows_entry (hi : i < elems.length) (hsmall : i < 2 ^ 32) (asIndex : Bool) :
    Shows asIndex (elems.map Subtype.val)
      (locatorEntry asIndex i (srcWord (elems.map Subtype.val) i)) i := by
  cases asIndex
  · change (elems.map Subtype.val)[i]? = some (srcWord (elems.map Subtype.val) i)
    rw [srcWord_eq hi hsmall, List.getElem?_map, List.getElem?_eq_getElem hi, Option.map_some]
  · have hindex := toNat_index i
    rw [Nat.mod_eq_of_lt hsmall] at hindex
    exact hindex

/-- The entries for indices that an `unsigned` reaches show what they stand for. -/
theorem located_map {indices : List Nat} (hindices : ∀ i ∈ indices, i < elems.length ∧ i < 2 ^ 32)
    (asIndex : Bool) : Located asIndex (elems.map Subtype.val)
      (indices.map fun i => locatorEntry asIndex i (srcWord (elems.map Subtype.val) i))
      indices := by
  rw [Located, List.forall₂_map_left_iff, List.forall₂_same]
  intro i hi
  exact shows_entry (hindices i hi).1 (hindices i hi).2 asIndex

theorem find_eq (src : List Planes) (cmp : Planes) (asIndex : Bool) :
    queueRunFindMatchesSrc (some src) cmp asIndex =
      ((List.range src.length).filter fun i => (srcWord src i).eeq cmp).map
        fun i => locatorEntry asIndex i (srcWord src i) := by
  rw [← List.nil_append (List.map ..), ← foldl_push]
  rfl

theorem unique_eq (src : List Planes) (asIndex : Bool) :
    queueRunUniqueSrc (some src) asIndex =
      ((List.range src.length).filter fun i =>
        !(List.range i).any fun j => (srcWord src i).eeq (srcWord src j)).map
        fun i => locatorEntry asIndex i (srcWord src i) := by
  rw [← List.nil_append (List.map ..), ← foldl_push, queueRunUniqueSrc]
  congr 1
  funext dst i
  dsimp only
  cases (List.range i).any fun j => (srcWord src i).eeq (srcWord src j) <;> rfl

theorem findFirst_eq (src : List Planes) (cmp : Planes) (asIndex : Bool) :
    queueFindFirstLastToQueueSrc (some src) cmp true asIndex =
      ((List.range src.length).filter fun i => (srcWord src i).eeq cmp).head?.toList.map
        fun i => locatorEntry asIndex i (srcWord src i) := by
  rw [List.head?_filter, queueFindFirstLastToQueueSrc]
  rw [if_pos rfl]
  cases (List.range src.length).find? fun i => (srcWord src i).eeq cmp <;> rfl

theorem findLast_eq (src : List Planes) (cmp : Planes) (asIndex : Bool) :
    queueFindFirstLastToQueueSrc (some src) cmp false asIndex =
      ((List.range src.length).filter fun i => (srcWord src i).eeq cmp).getLast?.toList.map
        fun i => locatorEntry asIndex i (srcWord src i) := by
  rw [List.getLast?_filter, queueFindFirstLastToQueueSrc]
  rw [if_neg Bool.false_ne_true]
  cases (List.range src.length).reverse.find? fun i => (srcWord src i).eeq cmp <;> rfl

variable (hsmall : elems.length ≤ 2 ^ 32)
include hsmall

/-- Of no more elements than an `unsigned` reaches the matches are found. -/
theorem filter_eeq (cmp : Planes) : ((List.range (elems.map Subtype.val).length).filter fun i =>
    (srcWord (elems.map Subtype.val) i).eeq cmp) =
      matchIndices (elems.map fun v => v.val.toVector4) cmp.toVector4 := by
  rw [matchIndices, List.length_map, List.length_map]
  apply List.filter_congr
  intro i hi
  have hlt := List.mem_range.mp hi
  exact eeq_srcWord hlt (by omega) cmp

theorem filter_first : ((List.range (elems.map Subtype.val).length).filter fun i =>
    !(List.range i).any fun j => (srcWord (elems.map Subtype.val) i).eeq
      (srcWord (elems.map Subtype.val) j)) =
      firstIndices (elems.map fun v => v.val.toVector4) := by
  rw [firstIndices, List.length_map, List.length_map]
  apply List.filter_congr
  intro i hi
  have hlt := List.mem_range.mp hi
  rw [Bool.eq_iff_iff, Bool.not_eq_true', List.any_eq_false, decide_eq_true_iff]
  refine forall_congr' fun j => ?_
  rw [List.mem_range]
  refine imp_congr_right fun hj => ?_
  rw [eeq_srcWord hlt (by omega), srcWord_eq (by omega) (by omega), List.getElem?_map,
    List.getElem?_map, List.getElem?_eq_getElem hlt, List.getElem?_eq_getElem (by omega)]
  simp [eq_comm]

theorem reached {indices : List Nat}
    (hindices : ∀ i ∈ indices, i ∈ List.range (elems.map fun v => v.val.toVector4).length) :
    ∀ i ∈ indices, i < elems.length ∧ i < 2 ^ 32 := by
  intro i hi
  have hlt := List.mem_range.mp (hindices i hi)
  rw [List.length_map] at hlt
  exact ⟨hlt, by omega⟩

end

/-! ## Minimum and maximum -/

section

variable {wid : Nat} {wantMax : Bool}

theorem NoWorse.refl {a : Nat} : NoWorse wantMax a a := by
  cases wantMax
  · exact Nat.le_refl a
  · exact Nat.le_refl a

theorem NoWorse.antisymm {a b : Nat} (hab : NoWorse wantMax a b) (hba : NoWorse wantMax b a) :
    a = b := by
  cases wantMax
  · exact Nat.le_antisymm hab hba
  · exact Nat.le_antisymm hba hab

theorem NoWorse.trans {a b c : Nat} (hab : NoWorse wantMax a b) (hbc : NoWorse wantMax b c) :
    NoWorse wantMax a c := by
  cases wantMax
  · exact Nat.le_trans hab hbc
  · exact Nat.le_trans hbc hab

theorem NoWorse.total {a b : Nat} : NoWorse wantMax a b ∨ NoWorse wantMax b a := by
  cases wantMax
  · exact Nat.le_total a b
  · exact Nat.le_total b a

/-- Of different numbers the comparison tells the one that beats the other. -/
theorem replace_iff {a b : Nat} (hne : a ≠ b) :
    (if wantMax then bitIf (b < a) = .one else bitIf (b < a) = .zero) ↔ NoWorse wantMax a b := by
  by_cases hlt : b < a
  · cases wantMax <;> simp [NoWorse, bitIf, hlt, hlt.le]
  · cases wantMax <;> simp [NoWorse, bitIf, hlt] <;> omega

/-- What the loop has after some elements: one that none of them beats, and all that equal it. -/
structure Best (wantMax : Bool) (done : List (WidthVec wid)) (b : WidthVec wid)
    (s : Planes × List Planes) : Prop where
  best : s.1 = b.val
  mem : b ∈ done
  noWorse : ∀ u ∈ done, NoWorse wantMax b.toNat u.toNat
  dst : s.2 = (done.filter fun v => v.val.toVector4 = b.val.toVector4).map Subtype.val

/-- One more element equals the best, beats it, or is beaten by it. -/
theorem best_turn {done : List (WidthVec wid)} {b v : WidthVec wid} {s : Planes × List Planes}
    (h : Best wantMax done b s) (hdone : ∀ u ∈ done, u.Known) (hv : v.Known) :
    ∃ b', Best wantMax (done ++ [v]) b' (minMaxTurn wantMax s v.val) := by
  have hb : b.Known := hdone b h.mem
  rw [minMaxTurn, h.best, Planes.eeq_eq]
  by_cases heq : v.val.toVector4 = b.val.toVector4
  · have hnat : b.toNat = v.toNat := congrArg Vector4.toNat heq.symm
    refine ⟨b, ?_, List.mem_append_left _ h.mem, fun u hu => ?_, ?_⟩
    · rw [if_pos (decide_eq_true heq)]
    · rcases List.mem_append.mp hu with hu | hu
      · exact h.noWorse u hu
      · rw [List.mem_singleton.mp hu, ← hnat]
        exact NoWorse.refl
    · rw [if_pos (decide_eq_true heq), List.filter_append, List.map_append, h.dst]
      simp [heq]
  · have hnat : b.toNat ≠ v.toNat :=
      fun hnat => heq ((WidthVec.toNat_eq_iff hv hb).mp hnat.symm)
    rw [if_neg (by simpa using heq), compareGtge_of_ne hv hb heq]
    dsimp only
    by_cases hbeat : NoWorse wantMax v.toNat b.toNat
    · have hworse : ∀ u ∈ done, u.val.toVector4 ≠ v.val.toVector4 := by
        intro u hu hsame
        have hnat' : u.toNat = v.toNat := congrArg Vector4.toNat hsame
        have hbest := h.noWorse u hu
        rw [hnat'] at hbest
        exact hnat (hbest.antisymm hbeat)
      rw [if_pos ((replace_iff hnat.symm).mpr hbeat)]
      refine ⟨v, rfl, by simp, fun u hu => ?_, ?_⟩
      · rcases List.mem_append.mp hu with hu | hu
        · exact hbeat.trans (h.noWorse u hu)
        · rw [List.mem_singleton.mp hu]
          exact NoWorse.refl
      · rw [List.filter_append, List.filter_eq_nil_iff.mpr (by simpa using hworse)]
        simp
    · rw [if_neg fun hreplace => hbeat ((replace_iff hnat.symm).mp hreplace)]
      refine ⟨b, h.best, List.mem_append_left _ h.mem, fun u hu => ?_, ?_⟩
      · rcases List.mem_append.mp hu with hu | hu
        · exact h.noWorse u hu
        · rw [List.mem_singleton.mp hu]
          exact NoWorse.total.resolve_right hbeat
      · rw [List.filter_append, List.map_append, h.dst]
        simp [heq]

/-- The loop over the elements after the first. -/
theorem best_turns {done rest : List (WidthVec wid)} {b : WidthVec wid} {s : Planes × List Planes}
    (h : Best wantMax done b s) (hknown : ∀ u ∈ done ++ rest, u.Known) :
    ∃ b', Best wantMax (done ++ rest) b'
      (rest.foldl (fun s v => minMaxTurn wantMax s v.val) s) := by
  induction rest generalizing done b s with
  | nil => exact ⟨b, by rwa [List.append_nil]⟩
  | cons v rest ih =>
    obtain ⟨b', hb'⟩ := best_turn h (fun u hu => hknown u (List.mem_append_left _ hu))
      (hknown v (by simp))
    rw [List.append_cons] at hknown ⊢
    exact ih hb' hknown

/-- All that equal the best are all that none beats. -/
theorem best_filter {elems : List (WidthVec wid)} {b : WidthVec wid} {s : Planes × List Planes}
    (h : Best wantMax elems b s) (hknown : ∀ u ∈ elems, u.Known) :
    s.2 = (elems.filter fun v => ∀ u ∈ elems, NoWorse wantMax v.toNat u.toNat).map
      Subtype.val := by
  rw [h.dst]
  congr 1
  apply List.filter_congr
  intro v hv
  rw [decide_eq_decide]
  constructor
  · intro hsame u hu
    rw [show v.toNat = b.toNat from congrArg Vector4.toNat hsame]
    exact h.noWorse u hu
  · intro hall
    exact (WidthVec.toNat_eq_iff (hknown v hv) (hknown b h.mem)).mp
      ((hall b h.mem).antisymm (h.noWorse v hv))

theorem minMax_cons (v : WidthVec wid) (rest : List (WidthVec wid))
    (hsmall : (v :: rest).length ≤ 2 ^ 32) :
    queueRunMinMaxSrc (some ((v :: rest).map Subtype.val)) wantMax =
      (rest.foldl (fun s v => minMaxTurn wantMax s v.val) (v.val, [v.val])).2 := by
  have hrest : (List.range' 1 rest.length).map (srcWord ((v :: rest).map Subtype.val)) =
      rest.map Subtype.val := by
    apply List.ext_getElem
    · simp
    · intro k hk hk'
      rw [List.length_map] at hk'
      rw [List.length_cons] at hsmall
      rw [List.getElem_map, List.getElem_map, List.getElem_range', Nat.one_mul, Nat.add_comm,
        srcWord_eq (by simpa using hk') (by omega)]
      rfl
  have hfirst : srcWord ((v :: rest).map Subtype.val) 0 = v.val := rfl
  have hlen : ((v :: rest).map Subtype.val).length - 1 = rest.length := by simp
  rw [queueRunMinMaxSrc, if_neg (by simp)]
  dsimp only
  rw [hlen, hfirst, ← List.foldl_map (f := srcWord ((v :: rest).map Subtype.val))
    (g := minMaxTurn wantMax), hrest, List.foldl_map]

/-- A loop pushes the best element at least. -/
theorem minMaxTurn_ne_nil {s : Planes × List Planes} (hs : s.2 ≠ []) (vi : Planes) :
    (minMaxTurn wantMax s vi).2 ≠ [] := by
  rw [minMaxTurn]
  dsimp only
  split_ifs
  all_goals simp [hs]

end

/-! ## The results -/

section

variable {wid : Nat} {src : Option (List (WidthVec wid))}

/-- Of no more elements than an `unsigned` reaches the locators are right. -/
theorem locators_right (hsmall : (srcElems src).length ≤ 2 ^ 32) : LocatorsRight src := by
  cases src with
  | none =>
    exact ⟨fun _ => .nil, fun _ _ => .nil, fun _ _ => .nil, fun _ _ => .nil, fun _ _ => rfl,
      fun _ => by simp [srcElems, srcVectors, queueRunMinMaxSrc]⟩
  | some elems =>
    change elems.length ≤ 2 ^ 32 at hsmall
    refine ⟨fun asIndex => ?_, fun cmp asIndex => ?_, fun cmp asIndex => ?_,
      fun cmp asIndex => ?_, fun hknown wantMax => ?_, fun wantMax => ?_⟩
    · change Located asIndex (elems.map Subtype.val)
        (queueRunUniqueSrc (some (elems.map Subtype.val)) asIndex) _
      rw [unique_eq, filter_first hsmall]
      exact located_map (reached hsmall fun i hi => List.mem_of_mem_filter hi) asIndex
    · change Located asIndex (elems.map Subtype.val)
        (queueRunFindMatchesSrc (some (elems.map Subtype.val)) cmp asIndex) _
      rw [find_eq, filter_eeq hsmall]
      exact located_map (reached hsmall fun i hi => List.mem_of_mem_filter hi) asIndex
    · change Located asIndex (elems.map Subtype.val)
        (queueFindFirstLastToQueueSrc (some (elems.map Subtype.val)) cmp true asIndex) _
      rw [findFirst_eq, filter_eeq hsmall]
      refine located_map (reached hsmall fun i hi => ?_) asIndex
      exact List.mem_of_mem_filter (List.mem_of_head? (Option.mem_toList.mp hi))
    · change Located asIndex (elems.map Subtype.val)
        (queueFindFirstLastToQueueSrc (some (elems.map Subtype.val)) cmp false asIndex) _
      rw [findLast_eq, filter_eeq hsmall]
      refine located_map (reached hsmall fun i hi => ?_) asIndex
      exact List.mem_of_mem_filter (List.mem_of_getLast? (Option.mem_toList.mp hi))
    · cases elems with
      | nil => rfl
      | cons v rest =>
        have hfirst : Best wantMax [v] v (v.val, [v.val]) :=
          ⟨rfl, List.mem_singleton_self v, fun u hu => List.mem_singleton.mp hu ▸ NoWorse.refl,
            by simp⟩
        have hall : ∀ u ∈ [v] ++ rest, u.Known := hknown
        obtain ⟨b, hb⟩ := best_turns hfirst hall
        exact (minMax_cons v rest hsmall).trans (best_filter hb hknown)
    · cases elems with
      | nil => simp [srcElems, srcVectors, queueRunMinMaxSrc]
      | cons v rest =>
        refine iff_of_false (fun hnil => ?_) (List.cons_ne_nil v rest)
        have hne : ∀ (rest : List (WidthVec wid)) (s : Planes × List Planes), s.2 ≠ [] →
            (rest.foldl (fun s v => minMaxTurn wantMax s v.val) s).2 ≠ [] := by
          intro rest
          induction rest with
          | nil => exact fun s hs => hs
          | cons v rest ih => exact fun s hs => ih _ (minMaxTurn_ne_nil hs v.val)
        exact hne rest _ (by simp) ((minMax_cons v rest hsmall).symm.trans hnil)

/-- Of more elements the index of the first is found twice. -/
theorem length_le_of_right (h : LocatorsRight src) : (srcElems src).length ≤ 2 ^ 32 := by
  cases src with
  | none => exact Nat.zero_le _
  | some elems =>
    by_contra hlarge
    change ¬ elems.length ≤ 2 ^ 32 at hlarge
    have hpos : 0 < elems.length := by omega
    let cmp := srcWord (elems.map Subtype.val) 0
    let found := (List.range (elems.map Subtype.val).length).filter fun i =>
      (srcWord (elems.map Subtype.val) i).eeq cmp
    have hlocated : Located true (elems.map Subtype.val) (found.map fun i => ulongToVec4 i 32)
        (matchIndices (elems.map fun v => v.val.toVector4) cmp.toVector4) := by
      have hfind := h.find cmp true
      change Located true (elems.map Subtype.val)
        (queueRunFindMatchesSrc (some (elems.map Subtype.val)) cmp true) _ at hfind
      rwa [find_eq] at hfind
    have hindices : found.map (fun i => i % 2 ^ 32) =
        matchIndices (elems.map fun v => v.val.toVector4) cmp.toVector4 := by
      rw [← List.forall₂_eq_eq_eq, List.forall₂_map_left_iff]
      rw [Located, List.forall₂_map_left_iff] at hlocated
      refine hlocated.imp fun i j hij => ?_
      rw [← (toNat_index i).2]
      exact hij.2
    have hnodup : (found.map fun i => i % 2 ^ 32).Nodup := by
      rw [hindices]
      exact List.nodup_range.filter _
    have hmem : ∀ i < elems.length, i % 2 ^ 32 = 0 → i ∈ found := by
      intro i hi hlow
      have hsame : srcWord (elems.map Subtype.val) i = cmp := by
        rw [srcWord, hlow]
        rfl
      refine List.mem_filter.mpr ⟨by simpa using hi, ?_⟩
      rw [hsame, Planes.eeq_eq]
      exact decide_eq_true rfl
    have hzero := List.inj_on_of_nodup_map hnodup (hmem 0 hpos rfl)
      (hmem (2 ^ 32) (by omega) (Nat.mod_self _)) (Nat.mod_self _).symm
    exact absurd hzero (by decide)

/-- The locators are right exactly for sources of at most 2^32 elements. -/
theorem locators_right_iff (src : Option (List (WidthVec wid))) :
    LocatorsRight src ↔ (srcElems src).length ≤ 2 ^ 32 :=
  ⟨length_le_of_right, locators_right⟩

end

/-- Of 2^32 + 1 elements the last is mistaken for the first. -/
theorem not_locators_right : ¬ LocatorsRight
    (some (List.replicate (2 ^ 32 + 1) (⟨.allocateBits 1 .zero, rfl⟩ : WidthVec 1))) := by
  intro h
  have hlen := length_le_of_right h
  change (List.replicate (2 ^ 32 + 1) _).length ≤ 2 ^ 32 at hlen
  rw [List.length_replicate] at hlen
  exact absurd hlen (by decide)

end Icarus.Vvp
