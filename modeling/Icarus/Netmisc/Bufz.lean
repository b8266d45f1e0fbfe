import Icarus.Netmisc.Unpacked

/-!
# Assignment of unpacked arrays

`assign_unpacked_with_bufz` walks over the dimensions of two arrays at once, and
puts a driver between the elements at the same position from the left. A running
index counts up or down in each array, in 32 bits.
-/

namespace Icarus.Netmisc

open Icarus.Core.MixedRadix

/-- `pin`. The limit is that of `-pARRAY_SIZE_LIMIT`; an index without a pin fails an assertion. -/
def UnpackedNet.pin (net : UnpackedNet) (limit idx : Nat) : Option Nat :=
  if net.pinCount ≤ limit ∧ idx < net.pinCount then some idx else none

/-- A running index and a step of type `int`, added in 32 bits. -/
def addInt (idx : Nat) (inc : Int) : Nat := ((idx + inc) % 2 ^ 32).toNat

/-- The first index of a dimension and the step. The least integer has no negation. -/
def dimStart (r : Netrange) (stride : Int) (idx : Nat) : Option (Nat × Int) :=
  let inc := stride.bmod (2 ^ 32)
  if !r.defined then none
  else if r.msb < r.lsb then some (idx, inc)
  else do
    let width ← r.width
    if inc = -2 ^ 31 then none
    else return (addInt idx (inc * (width - 1)), -inc)

/-- The loop over the elements of a dimension. -/
def dimLoop (body : Nat → Nat → Option (List (Nat × Nat))) (incL incR : Int) :
    Nat → Nat → Nat → Option (List (Nat × Nat))
  | 0, _, _ => some []
  | n + 1, idxL, idxR => do
    let drivers ← body idxL idxR
    let rest ← dimLoop body incL incR n (addInt idxL incL) (addInt idxR incR)
    return drivers ++ rest

section Assign

variable (limit : Nat) (lval rval : UnpackedNet)

/-- The driver between two elements: the pins of the target and the source. -/
def bufz (idxL idxR : Nat) : Option (List (Nat × Nat)) := do
  let source ← rval.pin limit idxR
  let target ← lval.pin limit idxL
  return [(target, source)]

/-- `assign_unpacked_with_bufz_dim`. A counter of 32 bits does not reach a greater width. -/
def assignDim : List Netrange → List Netrange → List Int → Nat → Nat → Option (List (Nat × Nat))
  | l :: ls, r :: rs, stride :: strides, idxL, idxR => do
    let (idxL, incL) ← dimStart l stride idxL
    let (idxR, incR) ← dimStart r stride idxR
    let width ← l.width
    if 2 ^ 32 ≤ width then none
    else
      dimLoop (fun idxL idxR =>
        if ls.isEmpty then bufz limit lval rval idxL idxR
        else assignDim ls rs strides idxL idxR) incL incR width idxL idxR
  | _, _, _, _, _ => none

/-- `assign_unpacked_with_bufz`: the drivers, in the order in which they are made. -/
def assignUnpackedWithBufz : Option (List (Nat × Nat)) :=
  if lval.pinCount = rval.pinCount then do
    let stride ← makeStrides lval.dims
    assignDim limit lval rval lval.dims rval.dims stride 0 0
  else none

end Assign

/-- There is one driver for each position, and it connects the two elements there. -/
structure Wired (lval rval : UnpackedNet) (drivers : List (Nat × Nat)) : Prop where
  /-- The pins of the drivers. -/
  mem : ∀ pins, pins ∈ drivers ↔ ∃ p, Digits p (counts lval.dims) ∧
    pins = (pinAt lval.dims p, pinAt rval.dims p)
  /-- An element of the target has one driver. -/
  targets : (drivers.map Prod.fst).Nodup
  /-- An element of the source has one. -/
  sources : (drivers.map Prod.snd).Nodup
  /-- There are pins. -/
  below : ∀ pins ∈ drivers, pins.1 < lval.pinCount ∧ pins.2 < rval.pinCount

/-- Where indices count down, a step is not the least integer. -/
def Negatable : List Netrange → Prop
  | [] => True
  | r :: dims => (r.lsb ≤ r.msb → (counts dims).prod ≠ 2 ^ 31) ∧ Negatable dims

/-! ## Steps -/

/-- A sum that differs from an index by whole turns. -/
theorem addInt_eq {idx n : Nat} {inc k : Int} (h : (idx : Int) + inc = n + 2 ^ 32 * k)
    (hn : n < 2 ^ 32) : addInt idx inc = n := by
  rw [addInt, h, Int.add_mul_emod_self_left]
  omega

section Step

variable {r : Netrange} {dims : List Netrange} {stride idx : Nat}

/-- A step of type `int` differs from the stride by whole turns. -/
theorem exists_bmod (stride : Nat) :
    ∃ k : Int, (stride : Int).bmod (2 ^ 32) = stride + 2 ^ 32 * k := by
  rw [Int.bmod_def]
  split_ifs
  · exact ⟨-((stride : Int) / 2 ^ 32), by omega⟩
  · exact ⟨-((stride : Int) / 2 ^ 32) - 1, by omega⟩

theorem bmod_eq_min_iff (hlt : stride < 2 ^ 32) :
    (stride : Int).bmod (2 ^ 32) = -2 ^ 31 ↔ stride = 2 ^ 31 := by
  rw [Int.bmod_def]
  split_ifs <;> omega

/-- The first index of a dimension is that of its leftmost element, and each step goes to the next
element on the right. -/
theorem dimStart_eq (hdefined : r.defined = true) (hcount : r.count < 2 ^ 63)
    (hneg : r.lsb ≤ r.msb → stride ≠ 2 ^ 31)
    (hle : idx + r.count * stride < 2 ^ 32) :
    ∃ inc, dimStart r stride idx = some (idx + r.offsetAt 0 * stride, inc) ∧
      ∀ j, j + 1 < r.count →
        addInt (idx + r.offsetAt j * stride) inc = idx + r.offsetAt (j + 1) * stride := by
  obtain ⟨k, hk⟩ := exists_bmod stride
  have hstride : stride < 2 ^ 32 := by
    have := Nat.le_mul_of_pos_left stride (Netrange.count_pos (r := r))
    omega
  have hbound : ∀ j < r.count, idx + r.offsetAt j * stride < 2 ^ 32 := by
    intro j hj
    have := Nat.mul_le_mul_right stride (Netrange.offsetAt_lt hj).le
    omega
  rw [dimStart, hdefined, Bool.not_true, if_neg Bool.false_ne_true]
  by_cases hup : r.msb < r.lsb
  · rw [if_pos hup]
    refine ⟨_, congrArg some (Prod.ext ?_ rfl), fun j hj => ?_⟩
    · rw [Netrange.offsetAt_eq Netrange.count_pos, if_pos hup, Nat.zero_mul, Nat.add_zero]
    · refine addInt_eq (k := k) ?_ (hbound (j + 1) hj)
      rw [Netrange.offsetAt_eq hj, Netrange.offsetAt_eq (Nat.lt_of_succ_lt hj), if_pos hup,
        if_pos hup, hk]
      push_cast
      ring
  · have hmin : ¬ (stride : Int).bmod (2 ^ 32) = -2 ^ 31 :=
      fun h => hneg (not_lt.mp hup) ((bmod_eq_min_iff hstride).mp h)
    have hfirst : addInt idx ((stride : Int).bmod (2 ^ 32) * (r.count - 1)) =
        idx + r.offsetAt 0 * stride := by
      refine addInt_eq (k := k * (r.count - 1)) ?_ (hbound 0 Netrange.count_pos)
      have hcast : ((r.count - 1 - 0 : Nat) : Int) = r.count - 1 := by
        have := Netrange.count_pos (r := r)
        omega
      rw [Netrange.offsetAt_eq Netrange.count_pos, if_neg hup, hk, Nat.cast_add, Nat.cast_mul, hcast]
      ring
    rw [if_neg hup, Netrange.width_eq hdefined hcount, Option.bind_eq_bind, Option.bind_some,
      if_neg hmin, hfirst]
    refine ⟨_, rfl, fun j hj => ?_⟩
    refine addInt_eq (k := -k) ?_ (hbound (j + 1) hj)
    have hcast : ((r.count - 1 - j : Nat) : Int) = ((r.count - 1 - (j + 1) : Nat) : Int) + 1 := by
      omega
    rw [Netrange.offsetAt_eq hj, Netrange.offsetAt_eq (Nat.lt_of_succ_lt hj), if_neg hup,
      if_neg hup, hk, Nat.cast_add, Nat.cast_mul, hcast, Nat.cast_add, Nat.cast_mul]
    ring

/-- Where the step is the least integer there is no first index. -/
theorem dimStart_none (hdefined : r.defined = true) (hcount : r.count < 2 ^ 63)
    (hdown : r.lsb ≤ r.msb) (hmin : stride = 2 ^ 31) : dimStart r stride idx = none := by
  have hlt : stride < 2 ^ 32 := by
    rw [hmin]
    norm_num
  rw [dimStart, hdefined, Bool.not_true, if_neg Bool.false_ne_true, if_neg (not_lt.mpr hdown),
    Netrange.width_eq hdefined hcount, Option.bind_eq_bind, Option.bind_some,
    if_pos ((bmod_eq_min_iff hlt).mpr hmin)]

end Step

/-! ## The loop -/

section Loop

variable {body : Nat → Nat → Option (List (Nat × Nat))} {incL incR : Int}

/-- The loop goes over the elements of a dimension one by one. -/
theorem dimLoop_eq {f g : Nat → Nat} {h : Nat → List (Nat × Nat)} {m : Nat}
    (hbody : ∀ j < m, body (f j) (g j) = some (h j))
    (hf : ∀ j, j + 1 < m → addInt (f j) incL = f (j + 1))
    (hg : ∀ j, j + 1 < m → addInt (g j) incR = g (j + 1)) {n k : Nat} (hk : k + n = m) :
    dimLoop body incL incR n (f k) (g k) = some ((List.range' k n).flatMap h) := by
  induction n generalizing k with
  | zero => rfl
  | succ n ih =>
    rw [dimLoop, hbody k (by omega), List.range'_succ, List.flatMap_cons]
    cases n with
    | zero => rfl
    | succ n =>
      rw [hf k (by omega), hg k (by omega), ih (by omega)]
      rfl

theorem dimLoop_none {n idxL idxR : Nat} (h : body idxL idxR = none) :
    dimLoop body incL incR (n + 1) idxL idxR = none := by
  rw [dimLoop, h]
  rfl

end Loop

/-! ## The arrays -/

section Arrays

variable {limit : Nat} {lval rval : UnpackedNet} {ls rs : List Netrange} {idxL idxR : Nat}

theorem bufz_eq (hlimitL : lval.pinCount ≤ limit) (hlimitR : rval.pinCount ≤ limit)
    (hL : idxL < lval.pinCount) (hR : idxR < rval.pinCount) :
    bufz limit lval rval idxL idxR = some [(idxL, idxR)] := by
  rw [bufz, UnpackedNet.pin, if_pos ⟨hlimitR, hR⟩, UnpackedNet.pin, if_pos ⟨hlimitL, hL⟩]
  rfl

/-- The walk over the dimensions that are left connects the elements of the two blocks, position by
position. -/
theorem assignDim_eq (hl : Declared ls) (hr : Declared rs) (hcounts : counts ls = counts rs)
    (hne : ls ≠ []) (hnegL : Negatable ls) (hnegR : Negatable rs)
    (hlimitL : lval.pinCount ≤ limit) (hlimitR : rval.pinCount ≤ limit)
    (hL : idxL + (counts ls).prod ≤ lval.pinCount)
    (hR : idxR + (counts ls).prod ≤ rval.pinCount) :
    assignDim limit lval rval ls rs (strideList ls) idxL idxR =
      some ((tuples (counts ls)).map fun p => (idxL + pinAt ls p, idxR + pinAt rs p)) := by
  induction ls generalizing rs idxL idxR with
  | nil => exact absurd rfl hne
  | cons l ls ih =>
    cases rs with
    | nil => exact absurd hcounts (List.cons_ne_nil _ _)
    | cons r rs =>
      obtain ⟨hcount, hcounts'⟩ : l.count = r.count ∧ counts ls = counts rs := List.cons.inj hcounts
      have hltL := lval.pinCount_lt
      have hltR := rval.pinCount_lt
      rw [counts_prod_cons] at hL hR
      obtain ⟨hdefL, hcountL⟩ := hl l List.mem_cons_self
      obtain ⟨hdefR, hcountR⟩ := hr r List.mem_cons_self
      have hpos : 0 < (counts ls).prod := counts_prod_pos
      have hwidth : ¬ 2 ^ 32 ≤ l.count := by
        have := Nat.le_mul_of_pos_right l.count hpos
        omega
      have hboundL : idxL + l.count * (counts ls).prod < 2 ^ 32 := by omega
      have hboundR : idxR + r.count * (counts ls).prod < 2 ^ 32 := by
        rw [← hcount]
        omega
      obtain ⟨incL, hstartL, hstepL⟩ := dimStart_eq hdefL hcountL hnegL.1 hboundL
      obtain ⟨incR, hstartR, hstepR⟩ := dimStart_eq hdefR hcountR (hcounts' ▸ hnegR.1) hboundR
      -- an element of the dimension, in either array, begins a block inside the pins
      have hblock : ∀ j < l.count,
          l.offsetAt j * (counts ls).prod + (counts ls).prod ≤ l.count * (counts ls).prod ∧
          r.offsetAt j * (counts ls).prod + (counts ls).prod ≤ l.count * (counts ls).prod := by
        intro j hj
        rw [← Nat.succ_mul, ← Nat.succ_mul]
        exact ⟨Nat.mul_le_mul_right _ (Netrange.offsetAt_lt hj),
          Nat.mul_le_mul_right _ (hcount ▸ Netrange.offsetAt_lt (hcount ▸ hj))⟩
      obtain ⟨body, hbodyeq⟩ : ∃ body, body = fun idxL idxR =>
          if ls.isEmpty then bufz limit lval rval idxL idxR
          else assignDim limit lval rval ls rs (strideList ls) idxL idxR := ⟨_, rfl⟩
      obtain ⟨drivers, hdrivers⟩ : ∃ drivers, drivers = fun j =>
          (tuples (counts ls)).map fun p => (idxL + l.offsetAt j * (counts ls).prod + pinAt ls p,
            idxR + r.offsetAt j * (counts ls).prod + pinAt rs p) := ⟨_, rfl⟩
      have hbody : ∀ j < l.count, body (idxL + l.offsetAt j * (counts ls).prod)
          (idxR + r.offsetAt j * (counts ls).prod) = some (drivers j) := by
        intro j hj
        obtain ⟨hblockL, hblockR⟩ := hblock j hj
        rw [hbodyeq, hdrivers]
        dsimp only
        cases hempty : ls.isEmpty with
        | true =>
          obtain rfl := List.isEmpty_iff.mp hempty
          obtain rfl := List.map_eq_nil_iff.mp hcounts'.symm
          rw [if_pos rfl, bufz_eq hlimitL hlimitR (by omega) (by omega)]
          rfl
        | false =>
          have hne' : ls ≠ [] := fun h => by simp [h] at hempty
          rw [if_neg Bool.false_ne_true]
          exact ih hl.tail hr.tail hcounts' hne' hnegL.2 hnegR.2 (by omega) (by omega)
      have hloop := dimLoop_eq hbody hstepL (fun j hj => hstepR j (hcount ▸ hj)) (Nat.zero_add _)
      rw [hbodyeq, hdrivers] at hloop
      rw [assignDim.eq_def]
      dsimp only [strideList]
      rw [hstartL, Option.bind_eq_bind, Option.bind_some, hstartR, Option.bind_eq_bind,
        Option.bind_some, hl.width_eq, Option.bind_some, if_neg hwidth, hloop,
        ← List.range_eq_range']
      refine congrArg some ?_
      have htuples : tuples (counts (l :: ls)) =
          (List.range l.count).flatMap fun d => (tuples (counts ls)).map (d :: ·) := rfl
      rw [htuples, List.map_flatMap]
      refine List.flatMap_congr fun d _ => ?_
      rw [List.map_map]
      refine List.map_congr_left fun p _ => ?_
      rw [Function.comp_apply, pinAt_cons, pinAt_cons, Nat.add_assoc, Nat.add_assoc, hcounts']

/-- Without pins, or where a step is the least integer, there is no result. -/
theorem assignDim_none (hl : Declared ls) (hr : Declared rs) (hcounts : counts ls = counts rs)
    (hbad : ¬ lval.pinCount ≤ limit ∨ ¬ Negatable ls ∨ ¬ Negatable rs) :
    assignDim limit lval rval ls rs (strideList ls) idxL idxR = none := by
  induction ls generalizing rs idxL idxR with
  | nil => rfl
  | cons l ls ih =>
    cases rs with
    | nil => rfl
    | cons r rs =>
      obtain ⟨hcount, hcounts'⟩ : l.count = r.count ∧ counts ls = counts rs := List.cons.inj hcounts
      obtain ⟨hdefL, hcountL⟩ := hl l List.mem_cons_self
      obtain ⟨hdefR, hcountR⟩ := hr r List.mem_cons_self
      rw [assignDim.eq_def]
      dsimp only [strideList]
      cases hstartL : dimStart l (counts ls).prod idxL with
      | none => rfl
      | some startL =>
      cases hstartR : dimStart r (counts ls).prod idxR with
      | none => rfl
      | some startR =>
      -- the first steps exist, so what is wrong is the limit or is found further inside
      have hbad' : ¬ lval.pinCount ≤ limit ∨ ¬ Negatable ls ∨ ¬ Negatable rs := by
        refine hbad.imp_right (Or.imp (fun hneg htail => hneg ⟨fun hdown hmin => ?_, htail⟩)
          fun hneg htail => hneg ⟨fun hdown hmin => ?_, htail⟩)
        · rw [dimStart_none hdefL hcountL hdown hmin] at hstartL
          exact Option.some_ne_none _ hstartL.symm
        · rw [dimStart_none hdefR hcountR hdown (hcounts'.symm ▸ hmin)] at hstartR
          exact Option.some_ne_none _ hstartR.symm
      obtain ⟨m, hm⟩ : ∃ m, l.count = m + 1 := ⟨_, rfl⟩
      rw [Option.bind_eq_bind, Option.bind_some, Option.bind_eq_bind, Option.bind_some,
        hl.width_eq, Option.bind_some, hm]
      by_cases hwide : 2 ^ 32 ≤ m + 1
      · rw [if_pos hwide]
      · rw [if_neg hwide]
        refine dimLoop_none ?_
        cases hempty : ls.isEmpty with
        | true =>
          obtain rfl := List.isEmpty_iff.mp hempty
          obtain rfl := List.map_eq_nil_iff.mp hcounts'.symm
          have hlimit : ¬ lval.pinCount ≤ limit := by
            rcases hbad' with h | h | h
            · exact h
            · exact absurd trivial h
            · exact absurd trivial h
          rw [if_pos rfl, bufz]
          cases rval.pin limit startR.1 with
          | none => rfl
          | some source =>
            rw [Option.bind_eq_bind, Option.bind_some, UnpackedNet.pin,
              if_neg fun h => hlimit h.1]
            rfl
        | false =>
          rw [if_neg Bool.false_ne_true]
          exact ih hl.tail hr.tail hcounts' hbad'

/-- A driver for each tuple of positions is one for each element. -/
theorem wired_tuples (hcounts : counts lval.dims = counts rval.dims)
    (hpinL : lval.pinCount = (counts lval.dims).prod)
    (hpinR : rval.pinCount = (counts lval.dims).prod) :
    Wired lval rval
      ((tuples (counts lval.dims)).map fun p => (pinAt lval.dims p, pinAt rval.dims p)) where
  mem pins := by
    rw [List.mem_map]
    constructor
    · rintro ⟨p, hp, rfl⟩
      exact ⟨p, mem_tuples.mp hp, rfl⟩
    · rintro ⟨p, hp, rfl⟩
      exact ⟨p, mem_tuples.mpr hp, rfl⟩
  targets := by
    rw [List.map_map]
    refine nodup_tuples.map_on fun p hp q hq h => ?_
    exact pinAt_inj (mem_tuples.mp hp) (mem_tuples.mp hq) h
  sources := by
    rw [List.map_map]
    refine nodup_tuples.map_on fun p hp q hq h => ?_
    exact pinAt_inj (hcounts ▸ mem_tuples.mp hp) (hcounts ▸ mem_tuples.mp hq) h
  below pins hpins := by
    obtain ⟨p, hp, rfl⟩ := List.mem_map.mp hpins
    have hdigits := mem_tuples.mp hp
    rw [hpinL, hpinR]
    refine ⟨pinAt_lt hdigits, ?_⟩
    rw [hcounts] at hdigits ⊢
    exact pinAt_lt hdigits

/-- All elements at the same position are connected exactly if the number of elements fits in 32 bits
and is not above the limit, and no step that is negated is the least integer. -/
theorem assignUnpackedWithBufz_iff (limit : Nat) (lval rval : UnpackedNet)
    (hcounts : counts lval.dims = counts rval.dims) :
    (∃ drivers, assignUnpackedWithBufz limit lval rval = some drivers ∧ Wired lval rval drivers) ↔
      (counts lval.dims).prod < 2 ^ 32 ∧ lval.pinCount ≤ limit ∧
        Negatable lval.dims ∧ Negatable rval.dims := by
  have hstrides : (counts lval.dims).prod < 2 ^ 32 →
      makeStrides lval.dims = some (strideList lval.dims) := fun hlt =>
    makeStrides_eq lval.declared lval.dims_ne (hlt.trans (by norm_num))
  constructor
  · rintro ⟨drivers, hdrivers, hwired⟩
    have hsmall : (counts lval.dims).prod < 2 ^ 32 := by
      by_contra hlarge
      -- some element has the address behind the last pin
      obtain ⟨p, hp, haddr⟩ := exists_pinAt
        (lt_of_lt_of_le lval.pinCount_lt (not_lt.mp hlarge))
      have hbelow := (hwired.below _ ((hwired.mem _).mpr ⟨p, hp, rfl⟩)).1
      rw [haddr] at hbelow
      exact lt_irrefl _ hbelow
    refine ⟨hsmall, ?_⟩
    by_contra hbad
    have hnone : assignDim limit lval rval lval.dims rval.dims (strideList lval.dims) 0 0 = none := by
      refine assignDim_none lval.declared rval.declared hcounts ?_
      by_contra hgood
      push Not at hgood
      exact hbad hgood
    rw [assignUnpackedWithBufz, hstrides hsmall, Option.bind_eq_bind, Option.bind_some, hnone] at hdrivers
    split_ifs at hdrivers
  · rintro ⟨hsmall, hlimit, hnegL, hnegR⟩
    have hpinL := lval.pinCount_eq hsmall
    have hpinR := rval.pinCount_eq (hcounts ▸ hsmall)
    rw [← hcounts] at hpinR
    have hlimitR : rval.pinCount ≤ limit := by omega
    have hzeroL : 0 + (counts lval.dims).prod ≤ lval.pinCount := by omega
    have hzeroR : 0 + (counts lval.dims).prod ≤ rval.pinCount := by omega
    have hall := assignDim_eq lval.declared rval.declared hcounts lval.dims_ne hnegL hnegR hlimit
      hlimitR hzeroL hzeroR
    simp only [Nat.zero_add] at hall
    refine ⟨_, ?_, wired_tuples hcounts hpinL hpinR⟩
    rw [assignUnpackedWithBufz, if_pos (hpinL.trans hpinR.symm), hstrides hsmall,
      Option.bind_eq_bind, Option.bind_some, hall]

end Arrays

/-- Two rows of three, the rows numbered downwards. -/
def rowsDown : UnpackedNet :=
  ⟨[⟨1, 0⟩, ⟨0, 2⟩], 6, List.cons_ne_nil _ _, by decide, by decide⟩

/-- Two rows of three, the columns numbered downwards. -/
def columnsDown : UnpackedNet :=
  ⟨[⟨0, 1⟩, ⟨2, 0⟩], 6, List.cons_ne_nil _ _, by decide, by decide⟩

example : assignUnpackedWithBufz (2 ^ 24) rowsDown columnsDown =
    some [(3, 2), (4, 1), (5, 0), (0, 5), (1, 4), (2, 3)] := by decide

theorem assignUnpackedWithBufz_iff_rows :
    ∃ drivers, assignUnpackedWithBufz (2 ^ 24) rowsDown columnsDown = some drivers ∧
      Wired rowsDown columnsDown drivers := by
  refine (assignUnpackedWithBufz_iff (2 ^ 24) rowsDown columnsDown rfl).mpr ⟨?_, ?_, ?_, ?_⟩
  · decide
  · decide
  · exact ⟨fun _ => by decide, fun h => absurd h (by decide), trivial⟩
  · exact ⟨fun h => absurd h (by decide), fun _ => by decide, trivial⟩

/-- More elements than 32 bits count: there are 65536 pins. -/
def countWraps : UnpackedNet :=
  ⟨[⟨0, 65536⟩, ⟨0, 65535⟩], 65536, List.cons_ne_nil _ _, by decide, by decide⟩

/-- The first element of the second row has no pin. -/
theorem not_assignUnpackedWithBufz : ¬ ∀ lval rval : UnpackedNet,
    counts lval.dims = counts rval.dims →
    ∃ drivers, assignUnpackedWithBufz (2 ^ 24) lval rval = some drivers ∧
      Wired lval rval drivers := by
  intro h
  obtain ⟨drivers, -, hwired⟩ := h countWraps countWraps rfl
  have hdigits : Digits [1, 0] (counts countWraps.dims) := by decide
  have hbelow := (hwired.below _ ((hwired.mem _).mpr ⟨[1, 0], hdigits, rfl⟩)).1
  exact absurd hbelow (by decide)

end Icarus.Netmisc
