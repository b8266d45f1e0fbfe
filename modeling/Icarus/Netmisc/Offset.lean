import Icarus.Netmisc.Normalize

/-!
# The normalized offset

Width and sign that are chosen for the arithmetic leave room for base, offset and
result. So the result is exact, unless the offset is no native integer or is
negative, subtracted from and padded to more than the bits of a native integer.
-/

namespace Icarus

open Icarus.Core

namespace Netmisc

open TwosComplement (InRange)

/-- The offset into the variable that a base stands for. -/
def canonical (msb lsb : Int) (wid : Nat) (isUp : Bool) (soff b : Int) : Int :=
  if msb < lsb then soff + lsb - b - (if isUp then wid - 1 else 0)
  else soff + b - lsb - (if isUp then 0 else wid - 1)

section Room

variable (msbLo : Bool) {s : Bool} {w offWid : Nat} {o b : Int}

/-- An unsigned integer is a signed one of one bit more. -/
private theorem inRange_sign {n : Nat} {z : Int} (h : InRange false n z) : InRange true (n + 1) z := by
  rw [InRange, if_neg (by decide)] at h
  rw [InRange, if_pos rfl, Nat.add_sub_cancel]
  have hpos : (0 : Int) < 2 ^ n := pow_pos (by norm_num) n
  constructor <;> omega

private theorem inRange_nonneg {n : Nat} {z : Int} (h : 0 ≤ z) (hlt : z < 2 ^ n) :
    InRange false n z := by
  rw [InRange, if_neg (by decide)]
  exact ⟨h, hlt⟩

/-- There is room for offset and base, and for one bit more. -/
theorem room (hb : InRange s w b) (hnonneg : 0 ≤ o → o < 2 ^ offWid)
    (hneg : o < 0 → InRange true offWid o) :
    InRange (s || addBaseSign msbLo s w offWid o) (minWid msbLo s w offWid o - 1) o ∧
      InRange (s || addBaseSign msbLo s w offWid o) (minWid msbLo s w offWid o - 1) b := by
  have hbase : w + (addBaseSign msbLo s w offWid o).toNat ≤ minWid msbLo s w offWid o - 1 := by
    unfold minWid
    omega
  have hoff : offWid + (addOffSign msbLo s w offWid o).toNat ≤ minWid msbLo s w offWid o - 1 := by
    unfold minWid
    omega
  constructor
  · refine InRange.mono ?_ hoff
    rcases Int.lt_or_le o 0 with h | h
    · have hsign : (s || addBaseSign msbLo s w offWid o) = true := by
        cases s <;> simp [addBaseSign, h]
      have hnone : addOffSign msbLo s w offWid o = false := by simp [addOffSign, h]
      rw [hsign, hnone]
      exact hneg h
    · have heq : addOffSign msbLo s w offWid o = (s || addBaseSign msbLo s w offWid o) := by
        simp [addOffSign, h]
      rw [heq]
      cases s || addBaseSign msbLo s w offWid o with
      | false => exact inRange_nonneg h (hnonneg h)
      | true => exact inRange_sign (inRange_nonneg h (hnonneg h))
  · refine InRange.mono ?_ hbase
    cases hs : s with
    | true => simpa [hs, addBaseSign] using hb
    | false =>
      rw [hs] at hb
      cases addBaseSign msbLo false w offWid o with
      | false => exact hb
      | true => exact inRange_sign hb

end Room

/-! ## The padded base -/

section Padded

variable {base : NetExpr} {x w : Nat} {s : Bool}

/-- A base evaluates to an integer of its width and sign. -/
theorem computes_base (hbase : base.IsBase w s) (hx : x < 2 ^ w) :
    Computes x w s (base.toInt x) base := by
  cases base with
  | other width hasSign =>
    obtain ⟨rfl, rfl⟩ := hbase
    exact ⟨rfl, rfl, hx, trivial, rfl⟩
  | const value => exact Computes.const hbase.1 hbase.2.1 rfl
  | select => exact hbase.elim
  | add => exact hbase.elim

/-- Padding keeps the integer of a base. -/
theorem computes_padToWidth {m : Nat} (hbase : base.IsBase w s) (hx : x < 2 ^ w) (hw : 0 < w)
    (hlt : w < m) : Computes x m s (base.toInt x) (base.padToWidth m s) := by
  have hcomputes := computes_base hbase hx
  have hwide : ¬ m ≤ base.width := by
    rw [hcomputes.width]
    omega
  cases base with
  | other width hasSign =>
    have hpad : (NetExpr.other width hasSign).padToWidth m s = .select (.other width hasSign) m s :=
      if_neg hwide
    rw [hpad]
    exact hcomputes.pad hw hlt
  | const value =>
    obtain ⟨rfl, rfl, hdefined, hsingle, hstring⟩ := hbase
    obtain ⟨hint, hlen, hsign⟩ := toInt_padToWidth hw hlt.le hdefined (by simpa using hsingle)
      (by simpa using hstring)
    rw [NetExpr.padToWidth, if_neg hwide]
    exact Computes.const hlen hsign hint
  | select => exact hbase.elim
  | add => exact hbase.elim

/-- The padded base has the integer of the base. -/
theorem computes_padBase (msbLo : Bool) (offWid : Nat) (o : Int) (hbase : base.IsBase w s)
    (hx : x < 2 ^ w) (hw : 0 < w) :
    Computes x (minWid msbLo s w offWid o) (s || addBaseSign msbLo s w offWid o) (base.toInt x)
      (padBase base msbLo offWid o) := by
  have hcomputes := computes_base hbase hx
  have hlt : w + (addBaseSign msbLo s w offWid o).toNat < minWid msbLo s w offWid o := by
    unfold minWid
    omega
  have hpad := computes_padToWidth hbase hx hw (Nat.lt_of_le_of_lt (Nat.le_add_right _ _) hlt)
  rw [padBase, hcomputes.width, hcomputes.hasSign]
  cases hadd : addBaseSign msbLo s w offWid o with
  | false => simpa using hpad
  | true =>
    obtain rfl : s = false := by
      cases s with
      | false => rfl
      | true => simp [addBaseSign] at hadd
    rw [if_pos rfl, Bool.or_true]
    apply hpad.hideSign
    have hrange := hcomputes.inRange hw
    rw [InRange, if_neg (by decide)] at hrange
    rw [hadd, Bool.toNat_true] at hlt
    have hpow : (2 : Int) ^ w ≤ 2 ^ (minWid msbLo false w offWid o - 1) :=
      pow_le_pow_right₀ (by norm_num) (by omega)
    omega

end Padded

/-! ## The arithmetic -/

section Arithmetic

variable {x m : Nat} {s : Bool} {o b : Int} {P : NetExpr}

private theorem computes_ofUint64 {z : Int} {v : BitVec 64} (x : Nat)
    (h : ({ Verinum.ofUint64 v m with hasSign := s } : Verinum).toInt = z) :
    Computes x m s z (.const { Verinum.ofUint64 v m with hasSign := s }) :=
  Computes.const (Verinum.length_nativeBits _ m v) rfl h

/-- A positive or negative offset is added exactly. -/
theorem makeAddExpr_spec (hP : Computes x m s b P) (hm : 1 < m) (hb : InRange s (m - 1) b)
    (ho : InRange s (m - 1) o) (hlong : IsLong o) (hmin : -2 ^ 63 < o) :
    ∃ e, makeAddExpr P o = some e ∧ e.Exact x ∧ e.toInt x = b + o := by
  have hsum : InRange s m (b + o) := by
    have hadd := InRange.add (by omega) hb ho
    rwa [Nat.sub_add_cancel hm.le] at hadd
  by_cases h0 : o = 0
  · exact ⟨P, if_pos h0, hP.exact, by rw [hP.toInt, h0, add_zero]⟩
  · by_cases hneg : o < 0
    · have hminus : long (-o) = some (-o) := if_pos ⟨by have := hlong.2; omega, by omega⟩
      have hopp : InRange s m (-o) := by
        cases s with
        | false =>
          rw [InRange, if_neg (by decide)] at ho
          omega
        | true =>
          have hsub := InRange.sub (by omega) (InRange.zero (n := m - 1)) ho
          rwa [zero_sub, Nat.sub_add_cancel hm.le] at hsub
      have hc := computes_ofUint64 x
        (toInt_ofUint64_ofInt (by omega) hopp (by omega) (fun h => by omega))
      have hres := hP.sub (by omega) hc (by rwa [sub_neg_eq_add])
      refine ⟨_, ?_, hres.exact, by rw [hres.toInt, sub_neg_eq_add]⟩
      rw [makeAddExpr, if_neg h0, if_pos hneg, hminus, hP.width, hP.hasSign]
      rfl
    · have hc := computes_ofUint64 x
        (toInt_ofUint64_ofInt (by omega) (ho.mono (Nat.sub_le m 1)) hlong.2 (fun h => absurd h hneg))
      have hres := hP.add (by omega) hc hsum
      refine ⟨_, ?_, hres.exact, hres.toInt⟩
      rw [makeAddExpr, if_neg h0, if_neg hneg, hP.width, hP.hasSign]
      rfl

/-- The base is subtracted exactly where the offset is written exactly. -/
theorem makeSubExpr_spec (hP : Computes x m s b P) (hm : 1 < m) (hb : InRange s (m - 1) b)
    (ho : InRange s (m - 1) o) (hlong : IsLong o) (hneg : o < 0 → m ≤ 64)
    (hle : s = false → b ≤ o) :
    (makeSubExpr o P).Exact x ∧ (makeSubExpr o P).toInt x = o - b := by
  have hc := computes_ofUint64 x
    (toInt_ofUint64_ofInt (by omega) (ho.mono (Nat.sub_le m 1)) hlong.2 hneg)
  have hrange : InRange s m (o - b) := by
    cases s with
    | false =>
      have hle := hle rfl
      have ho := ho.mono (Nat.sub_le m 1)
      rw [InRange, if_neg (by decide)] at *
      omega
    | true =>
      have hsub := InRange.sub (by omega) ho hb
      rwa [Nat.sub_add_cancel hm.le] at hsub
  have hres := hc.sub (by omega) hP hrange
  rw [makeSubExpr, hP.width, hP.hasSign]
  exact ⟨hres.exact, hres.toInt⟩

/-- A negative offset that is padded to more than the bits of a native integer is not written
exactly, and the base zero shows it. -/
theorem makeSubExpr_wide (hP : Computes x m true 0 P) (hm : 64 < m) (hlong : IsLong o)
    (hneg : o < 0) : (makeSubExpr o P).toInt x = o + 2 ^ 64 := by
  have hlow := hlong.1
  have hc := computes_ofUint64 x (toInt_ofUint64_wide hm hneg hlow)
  have hrange := hc.inRange (by omega)
  have hres := hc.sub (by omega) hP (by rwa [sub_zero])
  rw [makeSubExpr, hP.width, hP.hasSign]
  exact hres.toInt.trans (sub_zero _)

end Arithmetic

/-! ## The whole normalization -/

section Normalization

variable {msb lsb soff : Int} {wid w : Nat} {isUp s : Bool}

/-- The part of the offset that does not depend on the width. -/
def slicePart (msb lsb soff : Int) : Int := if msb < lsb then soff + lsb else soff - lsb

theorem canonical_eq (msb lsb : Int) (wid : Nat) (isUp : Bool) (soff b : Int) :
    canonical msb lsb wid isUp soff b =
      if msb < lsb then canonical msb lsb wid isUp soff 0 - b
      else b + canonical msb lsb wid isUp soff 0 := by
  unfold canonical
  split_ifs <;> ring

theorem canonical_zero (hwid : 0 < wid) : canonical msb lsb wid isUp soff 0 =
    slicePart msb lsb soff - if isUp = decide (msb < lsb) then ((wid - 1 : Nat) : Int) else 0 := by
  have hcast : ((wid - 1 : Nat) : Int) = wid - 1 := by omega
  unfold canonical slicePart
  by_cases hdir : msb < lsb <;> cases isUp <;> simp [hdir, hcast]

theorem canonicalOffset_eq : canonicalOffset msb lsb wid isUp soff =
    (long (slicePart msb lsb soff)).map fun offset : Int =>
      if isUp = decide (msb < lsb) then (offset - (wid - 1 : Nat)).bmod (2 ^ 64) else offset := by
  unfold canonicalOffset slicePart
  by_cases hdir : msb < lsb <;> cases isUp <;> simp [hdir, Option.map_eq_bind]

/-- A wrapped integer is a native one; below the native integers it gets greater. -/
private theorem bmod_spec {z : Int} (hz : z < 2 ^ 63) :
    IsLong (z.bmod (2 ^ 64)) ∧ ∃ k : Nat, z = z.bmod (2 ^ 64) - 2 ^ 64 * k := by
  have hlow := Int.le_bmod (x := z) (m := 2 ^ 64) (by norm_num)
  have hhigh := Int.bmod_lt (x := z) (m := 2 ^ 64) (by norm_num)
  have hsplit := Int.bmod_add_bdiv z (2 ^ 64)
  norm_num [IsLong] at hlow hhigh hsplit hz ⊢
  refine ⟨⟨by omega, by omega⟩, (-Int.bdiv z 18446744073709551616).toNat, ?_⟩
  rw [Int.toNat_of_nonneg (by omega)]
  omega

/-- The native offset is the exact one, or wrapped around to a greater one. -/
theorem canonicalOffset_exact (hwid : 0 < wid) {o : Int}
    (ho : canonicalOffset msb lsb wid isUp soff = some o) :
    IsLong (slicePart msb lsb soff) ∧ IsLong o ∧
      ∃ k : Nat, canonical msb lsb wid isUp soff 0 = o - 2 ^ 64 * k := by
  rw [canonicalOffset_eq, Option.map_eq_some_iff] at ho
  obtain ⟨z, hz, rfl⟩ := ho
  obtain ⟨hlong, hz⟩ := Option.ite_none_right_eq_some.mp hz
  obtain rfl := Option.some_inj.mp hz
  refine ⟨hlong, ?_⟩
  rw [canonical_zero hwid]
  split_ifs
  · exact bmod_spec (by have := hlong.2; omega)
  · exact ⟨hlong, 0, by simp⟩

/-- Of a native sum the exact offset is computed, unless it is too low. -/
theorem canonicalOffset_some (hwid : 0 < wid) (hlong : IsLong (slicePart msb lsb soff))
    (hmin : -2 ^ 63 < canonical msb lsb wid isUp soff 0) :
    canonicalOffset msb lsb wid isUp soff = some (canonical msb lsb wid isUp soff 0) ∧
      IsLong (canonical msb lsb wid isUp soff 0) := by
  obtain ⟨o, ho⟩ : ∃ o, canonicalOffset msb lsb wid isUp soff = some o := by
    rw [canonicalOffset_eq, long, if_pos hlong]
    exact ⟨_, rfl⟩
  obtain ⟨-, hlo, k, hk⟩ := canonicalOffset_exact hwid ho
  obtain rfl : k = 0 := by
    have := hlo.2
    omega
  obtain rfl : canonical msb lsb wid isUp soff 0 = o := by simpa using hk
  exact ⟨ho, hlo⟩

/-- The number of bits of the offset decides whether a sum is as wide as a native integer. -/
private theorem minWid_le {offWid : Nat} {o : Int} (hneg : o < 0) :
    minWid true s w offWid o ≤ 64 ↔ offWid ≤ 63 ∧ w + (!s).toNat ≤ 63 := by
  have hoff : addOffSign true s w offWid o = false := by simp [addOffSign, hneg]
  have hbase : addBaseSign true s w offWid o = !s := by simp [addBaseSign, hneg]
  rw [minWid, hoff, hbase, Bool.toNat_false]
  omega

/-- A base is subtracted from an offset only as far as the result is not negative, or signed. -/
private theorem le_of_unsigned {offWid : Nat} {o b : Int} (hb : InRange s w b)
    (hbits : ∀ n, o < 2 ^ n → offWid ≤ n)
    (hs : (s || addBaseSign true s w offWid o) = false) : b ≤ o := by
  obtain ⟨rfl, hadd⟩ := Bool.or_eq_false_iff.mp hs
  rw [InRange, if_neg (by decide)] at hb
  have hwide : ¬ offWid ≤ w := by
    intro hle
    simp [addBaseSign, hle] at hadd
  have hge : ¬ o < 2 ^ w := fun hlt => hwide (hbits w hlt)
  omega

/-- Where the offset is a native integer, and a negative one that the base is subtracted from
needs no more than the bits of one, the result is exact. -/
theorem normalize_exact {base : NetExpr} {x : Nat} (hwid : 0 < wid) (hw : 0 < w)
    (hbase : base.IsBase w s) (hx : x < 2 ^ w) (hlong : IsLong (slicePart msb lsb soff))
    (hmin : -2 ^ 63 < canonical msb lsb wid isUp soff 0)
    (hneg : msb < lsb → canonical msb lsb wid isUp soff 0 < 0 →
      -2 ^ 62 ≤ canonical msb lsb wid isUp soff 0 ∧ w + (!s).toNat ≤ 63) :
    ∃ e, normalizeVariableBase base msb lsb wid isUp soff = some e ∧ e.Exact x ∧
      e.toInt x = canonical msb lsb wid isUp soff (base.toInt x) := by
  obtain ⟨hoff, hlo⟩ := canonicalOffset_some hwid hlong hmin
  rw [canonical_eq]
  generalize canonical msb lsb wid isUp soff 0 = o at *
  have hcomputes := computes_base hbase hx
  have hb := hcomputes.inRange hw
  rw [normalizeVariableBase, hoff, Option.bind_eq_bind, Option.bind_some]
  by_cases hzero : ¬ msb < lsb ∧ o = 0
  · obtain ⟨hdir, rfl⟩ := hzero
    exact ⟨base, if_pos ⟨hdir, rfl⟩, hcomputes.exact, by rw [if_neg hdir, add_zero]⟩
  · rw [if_neg hzero]
    obtain ⟨offWid, hbits, hpos, hnegbits⟩ := numBits_spec hlo hmin
    rw [hbits, Option.bind_eq_bind, Option.bind_some]
    obtain ⟨msbLo, hdec⟩ : ∃ msbLo, decide (msb < lsb) = msbLo := ⟨_, rfl⟩
    have hm : 1 < minWid msbLo s w offWid o := by
      unfold minWid
      omega
    obtain ⟨ho, hb'⟩ := room msbLo hb (fun h => (hpos h).1) (fun h => (hnegbits h).1)
    have hP := computes_padBase msbLo offWid o hbase hx hw
    rw [hdec]
    cases msbLo with
    | true =>
      have hdir := of_decide_eq_true hdec
      rw [if_pos hdir, if_pos hdir]
      refine ⟨_, rfl, makeSubExpr_spec hP hm hb' ho hlo ?_ ?_⟩
      · exact fun h =>
          (minWid_le h).mpr ⟨(hnegbits h).2.2 62 (hneg hdir h).1, (hneg hdir h).2⟩
      · intro hs
        have hnonneg : 0 ≤ o := by
          by_contra hlt
          simp [addBaseSign, not_le.mp hlt] at hs
        exact le_of_unsigned hb (hpos hnonneg).2 hs
    | false =>
      have hdir := of_decide_eq_false hdec
      rw [if_neg hdir, if_neg hdir]
      exact makeAddExpr_spec hP hm hb' ho hlo hmin

private theorem toInt_other_zero (w : Nat) (s : Bool) : (NetExpr.other w s).toInt 0 = 0 := by
  cases s <;> simp [NetExpr.toInt, NetExpr.eval, TwosComplement.reading]

/-- The base zero shows where the result is not exact. -/
theorem exact_of_zero (hwid : 0 < wid) (hw : 0 < w) {e : NetExpr}
    (he : normalizeVariableBase (.other w s) msb lsb wid isUp soff = some e)
    (hz : e.toInt 0 = canonical msb lsb wid isUp soff 0) :
    IsLong (slicePart msb lsb soff) ∧ -2 ^ 63 < canonical msb lsb wid isUp soff 0 ∧
      (msb < lsb → canonical msb lsb wid isUp soff 0 < 0 →
        -2 ^ 62 ≤ canonical msb lsb wid isUp soff 0 ∧ w + (!s).toNat ≤ 63) := by
  obtain ⟨o, hoff, he⟩ := Option.bind_eq_some_iff.mp he
  obtain ⟨hlong, hlo, k, hk⟩ := canonicalOffset_exact hwid hoff
  refine ⟨hlong, ?_⟩
  have hbase : (NetExpr.other w s).IsBase w s := ⟨rfl, rfl⟩
  have hb0 := toInt_other_zero w s
  have hcomputes := computes_base hbase (Nat.two_pow_pos w)
  have hb := hcomputes.inRange hw
  by_cases hzero : ¬ msb < lsb ∧ o = 0
  · rw [if_pos hzero] at he
    obtain rfl := Option.some_inj.mp he
    rw [← hz, hb0]
    exact ⟨by norm_num, fun h => absurd h hzero.1⟩
  · rw [if_neg hzero] at he
    obtain ⟨offWid, hbits, he⟩ := Option.bind_eq_some_iff.mp he
    have hmin : -2 ^ 63 < o := by
      by_contra hle
      have hneg : o < 0 := by omega
      have hminus : long (-o) = none := if_neg fun h => by
        have := h.2
        omega
      rw [numBits, if_pos hneg, hminus] at hbits
      cases hbits
    obtain ⟨n, hn, hpos, hnegbits⟩ := numBits_spec hlo hmin
    obtain rfl : n = offWid := Option.some_inj.mp (hn.symm.trans hbits)
    obtain ⟨msbLo, hdec⟩ : ∃ msbLo, decide (msb < lsb) = msbLo := ⟨_, rfl⟩
    have hm : 1 < minWid msbLo s w n o := by
      unfold minWid
      omega
    obtain ⟨ho, hb'⟩ := room msbLo hb (fun h => (hpos h).1) (fun h => (hnegbits h).1)
    have hP := computes_padBase msbLo n o hbase (Nat.two_pow_pos w) hw
    rw [hdec] at he
    rw [hb0] at hP hb'
    cases msbLo with
    | true =>
      have hdir := of_decide_eq_true hdec
      rw [if_pos hdir] at he
      obtain rfl := Option.some_inj.mp he
      have hsign : o < 0 → (s || addBaseSign true s w n o) = true := by
        intro hneg
        cases s <;> simp [addBaseSign, hneg]
      have hwidth : o < 0 → minWid true s w n o ≤ 64 := by
        intro hneg
        by_contra hgt
        rw [hsign hneg] at hP
        have hwide := makeSubExpr_wide hP (Nat.lt_of_not_le hgt) hlo hneg
        rw [hz, hk] at hwide
        omega
      have hspec := (makeSubExpr_spec hP hm hb' ho hlo hwidth (fun hs => by
        by_contra hlt
        rw [hsign (not_le.mp hlt)] at hs
        cases hs)).2
      have hcan : canonical msb lsb wid isUp soff 0 = o := by rw [← hz, hspec, sub_zero]
      rw [hcan]
      refine ⟨hmin, fun _ hneg => ?_⟩
      obtain ⟨hle, hbase⟩ := (minWid_le hneg).mp (hwidth hneg)
      refine ⟨?_, hbase⟩
      have hrange := ((hnegbits hneg).1).mono hle
      rw [InRange, if_pos rfl] at hrange
      exact hrange.1
    | false =>
      have hdir := of_decide_eq_false hdec
      rw [if_neg hdir] at he
      obtain ⟨e', he', -, htoInt⟩ := makeAddExpr_spec hP hm hb' ho hlo hmin
      obtain rfl : e' = e := Option.some_inj.mp (he'.symm.trans he)
      have hcan : canonical msb lsb wid isUp soff 0 = o := by rw [← hz, htoInt, zero_add]
      rw [hcan]
      exact ⟨hmin, fun h => absurd h hdir⟩

/-- The normalized base is the exact offset for every base just if the offset is a native integer,
and a negative offset that a base is subtracted from needs no more than the bits of one. -/
theorem normalize_exact_iff (msb lsb soff : Int) (isUp s : Bool) (hwid : 0 < wid) (hw : 0 < w) :
    (∀ base x, base.IsBase w s → x < 2 ^ w →
      ∃ e, normalizeVariableBase base msb lsb wid isUp soff = some e ∧ e.Exact x ∧
        e.toInt x = canonical msb lsb wid isUp soff (base.toInt x)) ↔
    IsLong (slicePart msb lsb soff) ∧ -2 ^ 63 < canonical msb lsb wid isUp soff 0 ∧
      (msb < lsb → canonical msb lsb wid isUp soff 0 < 0 →
        -2 ^ 62 ≤ canonical msb lsb wid isUp soff 0 ∧ w + (!s).toNat ≤ 63) := by
  constructor
  · intro h
    obtain ⟨e, he, -, hz⟩ := h (.other w s) 0 ⟨rfl, rfl⟩ (Nat.two_pow_pos w)
    rw [toInt_other_zero] at hz
    exact exact_of_zero hwid hw he hz
  · rintro ⟨hlong, hmin, hneg⟩ base x hbase hx
    exact normalize_exact hwid hw hbase hx hlong hmin hneg

/-- A vector `[-5:-1]` is selected from with a base of 63 signed bits. -/
theorem normalize_exact_iff_63 : 0 < 1 ∧ 0 < 63 ∧
    ∀ base x, base.IsBase 63 true → x < 2 ^ 63 →
      ∃ e, normalizeVariableBase base (-5) (-1) 1 true 0 = some e ∧ e.Exact x ∧
        e.toInt x = canonical (-5) (-1) 1 true 0 (base.toInt x) :=
  ⟨by decide, by decide,
    (normalize_exact_iff (-5) (-1) 0 true true (by decide) (by decide)).mpr (by decide)⟩

/-- With a base of 64 signed bits a select from a vector `[-5:-1]` misses. -/
theorem normalize_not_exact : ¬ ∀ msb lsb soff (wid w : Nat) (isUp s : Bool) base x,
    IsLong msb → IsLong lsb → IsLong soff → 0 < wid → 0 < w → base.IsBase w s → x < 2 ^ w →
      ∃ e, normalizeVariableBase base msb lsb wid isUp soff = some e ∧ e.Exact x ∧
        e.toInt x = canonical msb lsb wid isUp soff (base.toInt x) := by
  intro h
  obtain ⟨e, he, -, hz⟩ := h (-5) (-1) 0 1 64 true true (.other 64 true) (2 ^ 64 - 3) (by decide)
    (by decide) (by decide) (by decide) (by decide) ⟨rfl, rfl⟩ (by norm_num)
  obtain rfl := Option.some_inj.mp ((by rfl : normalizeVariableBase (.other 64 true) (-5) (-1) 1
    true 0 = some _).symm.trans he)
  revert hz
  decide +kernel

end Normalization

end Netmisc

end Icarus
