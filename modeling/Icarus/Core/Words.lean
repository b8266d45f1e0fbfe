import Mathlib.Data.Nat.Bitwise
import Mathlib.Tactic.Ring

/-!
# Little-endian words

Multi-word arithmetic reads and writes an array of words from one end to the
other and carries something along. A pass is such a loop; what it computes on
the whole number follows from what one step computes on one word.
-/

namespace Icarus.Core.Words

variable {α β σ : Type} {w : Nat}

/-! ## Numbers in words -/

/-- The number that digits stand for, given the number each of them stands for. -/
def sum (w : Nat) (F : α → Nat) : List α → Nat
  | [] => 0
  | x :: xs => F x + 2 ^ w * sum w F xs

/-- The number written in words. -/
def value (xs : List (BitVec w)) : Nat := sum w BitVec.toNat xs

@[simp] theorem sum_nil (F : α → Nat) : sum w F [] = 0 := rfl

@[simp] theorem sum_cons (F : α → Nat) (x : α) (xs : List α) :
    sum w F (x :: xs) = F x + 2 ^ w * sum w F xs := rfl

@[simp] theorem value_nil : value ([] : List (BitVec w)) = 0 := rfl

@[simp] theorem value_cons (x : BitVec w) (xs : List (BitVec w)) :
    value (x :: xs) = x.toNat + 2 ^ w * value xs := rfl

theorem two_pow_mul_succ (w k : Nat) : 2 ^ (w * (k + 1)) = 2 ^ w * 2 ^ (w * k) := by
  rw [Nat.mul_succ, Nat.pow_add, Nat.mul_comm]

theorem sum_append (F : α → Nat) (xs ys : List α) :
    sum w F (xs ++ ys) = sum w F xs + 2 ^ (w * xs.length) * sum w F ys := by
  induction xs with
  | nil => simp
  | cons x xs ih =>
    simp only [List.cons_append, sum_cons, ih, List.length_cons, two_pow_mul_succ]
    ring

theorem sum_add (F G : α → Nat) (xs : List α) :
    sum w (fun x => F x + G x) xs = sum w F xs + sum w G xs := by
  induction xs with
  | nil => rfl
  | cons x xs ih =>
    simp only [sum_cons, ih]
    ring

theorem sum_mul (F : α → Nat) (c : Nat) (xs : List α) :
    sum w (fun x => F x * c) xs = sum w F xs * c := by
  induction xs with
  | nil => simp
  | cons x xs ih =>
    simp only [sum_cons, ih]
    ring

theorem sum_map {γ : Type} (F : α → Nat) (g : γ → α) (xs : List γ) :
    sum w F (xs.map g) = sum w (F ∘ g) xs := by
  induction xs with
  | nil => rfl
  | cons x xs ih => simp only [List.map_cons, sum_cons, ih, Function.comp_apply]

theorem sum_zip_fst (F : α → Nat) (xs : List α) (ys : List β) (h : xs.length = ys.length) :
    sum w (fun x => F x.1) (xs.zip ys) = sum w F xs := by
  have hs := sum_map (w := w) F Prod.fst (xs.zip ys)
  rw [List.map_fst_zip h.le] at hs
  exact hs.symm

theorem sum_zip_snd (F : β → Nat) (xs : List α) (ys : List β) (h : xs.length = ys.length) :
    sum w (fun x => F x.2) (xs.zip ys) = sum w F ys := by
  have hs := sum_map (w := w) F Prod.snd (xs.zip ys)
  rw [List.map_snd_zip h.ge] at hs
  exact hs.symm

theorem value_append (xs ys : List (BitVec w)) :
    value (xs ++ ys) = value xs + 2 ^ (w * xs.length) * value ys :=
  sum_append _ xs ys

theorem sum_lt {F : α → Nat} (hF : ∀ x, F x < 2 ^ w) (xs : List α) :
    sum w F xs < 2 ^ (w * xs.length) := by
  induction xs with
  | nil => simp
  | cons x xs ih =>
    have hx := hF x
    rw [sum_cons, List.length_cons, two_pow_mul_succ]
    calc F x + 2 ^ w * sum w F xs < 2 ^ w + 2 ^ w * sum w F xs := by omega
      _ = 2 ^ w * (sum w F xs + 1) := by ring
      _ ≤ 2 ^ w * 2 ^ (w * xs.length) := Nat.mul_le_mul_left _ ih

theorem value_lt (xs : List (BitVec w)) : value xs < 2 ^ (w * xs.length) :=
  sum_lt (fun x => x.isLt) xs

@[simp] theorem value_replicate_zero (n : Nat) : value (List.replicate n (0 : BitVec w)) = 0 := by
  induction n with
  | zero => rfl
  | succ n ih =>
    rw [List.replicate_succ, value_cons, ih]
    rfl

/-- The low words are the number modulo a power. -/
theorem value_take (xs : List (BitVec w)) (k : Nat) :
    value (xs.take k) = value xs % 2 ^ (w * k) := by
  by_cases hk : k ≤ xs.length
  · have happ := value_append (xs.take k) (xs.drop k)
    rw [List.take_append_drop, List.length_take_of_le hk] at happ
    rw [happ, Nat.add_mul_mod_self_left]
    have hlt := value_lt (xs.take k)
    rw [List.length_take_of_le hk] at hlt
    exact (Nat.mod_eq_of_lt hlt).symm
  · have hle : xs.length ≤ k := by omega
    rw [List.take_of_length_le hle]
    have hpow : 2 ^ (w * xs.length) ≤ 2 ^ (w * k) :=
      Nat.pow_le_pow_right (by omega) (Nat.mul_le_mul_left _ hle)
    exact (Nat.mod_eq_of_lt (Nat.lt_of_lt_of_le (value_lt xs) hpow)).symm

theorem value_take_succ (xs : List (BitVec w)) (k : Nat) :
    value (xs.take (k + 1)) = value (xs.take k) + 2 ^ (w * k) * (xs.getD k 0).toNat := by
  by_cases hk : k < xs.length
  · rw [List.take_add_one, List.getElem?_eq_getElem hk, value_append, List.length_take_of_le hk.le,
      List.getD_eq_getElem?_getD, List.getElem?_eq_getElem hk]
    simp
  · rw [List.take_of_length_le (by omega), List.take_of_length_le (by omega),
      List.getD_eq_getElem?_getD, List.getElem?_eq_none (by omega)]
    simp

/-- Numbers are compared by the digit above a base first. -/
theorem add_mul_lt_iff {p x y : Nat} (hx : x < p) (hy : y < p) (m n : Nat) :
    x + p * m < y + p * n ↔ m < n ∨ m = n ∧ x < y := by
  rcases Nat.lt_trichotomy m n with h | rfl | h
  · have hle : p * m + p ≤ p * n := Nat.mul_le_mul_left p h
    exact iff_of_true (by omega) (.inl h)
  · simp
  · have hle : p * n + p ≤ p * m := Nat.mul_le_mul_left p h
    exact iff_of_false (by omega) (by omega)

/-- Numbers are equal digit by digit. -/
theorem add_mul_eq_iff {p x y : Nat} (hx : x < p) (hy : y < p) (m n : Nat) :
    x + p * m = y + p * n ↔ m = n ∧ x = y := by
  have hlt := add_mul_lt_iff hx hy m n
  have hgt := add_mul_lt_iff hy hx n m
  omega

/-- The high words are the number divided by a power. -/
theorem value_drop (xs : List (BitVec w)) (k : Nat) :
    value (xs.drop k) = value xs / 2 ^ (w * k) := by
  have happ : value xs = value (xs.take k) + 2 ^ (w * k) * value (xs.drop k) := by
    by_cases hk : k ≤ xs.length
    · have h := value_append (xs.take k) (xs.drop k)
      rwa [List.take_append_drop, List.length_take_of_le hk] at h
    · rw [List.take_of_length_le (by omega), List.drop_of_length_le (by omega)]
      simp
  have hlt : value (xs.take k) < 2 ^ (w * k) := by
    rw [value_take]
    exact Nat.mod_lt _ (Nat.two_pow_pos _)
  rw [happ, Nat.add_mul_div_left _ _ (Nat.two_pow_pos _), Nat.div_eq_of_lt hlt, Nat.zero_add]

/-- A word replaced. -/
theorem value_set (xs : List (BitVec w)) {k : Nat} (hk : k < xs.length) (x : BitVec w) :
    value (xs.set k x) + 2 ^ (w * k) * (xs.getD k 0).toNat = value xs + 2 ^ (w * k) * x.toNat := by
  induction xs generalizing k with
  | nil => exact absurd hk (Nat.not_lt_zero k)
  | cons y xs ih =>
    cases k with
    | zero =>
      simp only [List.set_cons_zero, value_cons, List.getD_cons_zero, Nat.mul_zero, Nat.pow_zero,
        Nat.one_mul]
      omega
    | succ k =>
      have hrest := ih (Nat.lt_of_succ_lt_succ hk)
      simp only [List.set_cons_succ, value_cons, List.getD_cons_succ, two_pow_mul_succ]
      calc _ = y.toNat + 2 ^ w * (value (xs.set k x) + 2 ^ (w * k) * (xs.getD k 0).toNat) := by ring
        _ = _ := by
          rw [hrest]
          ring

/-- The words of one number are the same. -/
theorem eq_of_value {xs ys : List (BitVec w)} (hl : xs.length = ys.length)
    (h : value xs = value ys) : xs = ys := by
  induction xs generalizing ys with
  | nil => exact (List.length_eq_zero_iff.mp hl.symm).symm
  | cons x xs ih =>
    cases ys with
    | nil => simp at hl
    | cons y ys =>
      rw [value_cons, value_cons] at h
      have hx := x.isLt
      have hy := y.isLt
      have hmod : x.toNat = y.toNat := by
        have := congrArg (· % 2 ^ w) h
        simpa only [Nat.add_mul_mod_self_left, Nat.mod_eq_of_lt hx, Nat.mod_eq_of_lt hy] using this
      have hrest : value xs = value ys := by
        apply Nat.eq_of_mul_eq_mul_left (Nat.two_pow_pos w)
        omega
      rw [BitVec.eq_of_toNat_eq hmod, ih (by simpa using hl) hrest]

/-- A number is zero when its words are. -/
theorem value_eq_zero {xs : List (BitVec w)} : value xs = 0 ↔ ∀ x ∈ xs, x = 0 := by
  induction xs with
  | nil => simp
  | cons x xs ih =>
    rw [value_cons, Nat.add_eq_zero_iff, List.forall_mem_cons, ← ih, Nat.mul_eq_zero]
    have hpow : ¬ 2 ^ w = 0 := (Nat.two_pow_pos w).ne'
    simp only [hpow, false_or]
    constructor
    · rintro ⟨hx, hxs⟩
      exact ⟨BitVec.eq_of_toNat_eq hx, hxs⟩
    · rintro ⟨rfl, hxs⟩
      exact ⟨rfl, hxs⟩

/-- A bit of the number is a bit of the word that holds it. -/
theorem testBit_value (hw : 0 < w) (xs : List (BitVec w)) (i : Nat) :
    (value xs).testBit i = (xs.getD (i / w) 0).getLsbD (i % w) := by
  induction xs generalizing i with
  | nil => simp
  | cons x xs ih =>
    rw [value_cons, Nat.add_comm, Nat.testBit_two_pow_mul_add _ x.isLt]
    by_cases hi : i < w
    · simp [hi, Nat.div_eq_of_lt hi, Nat.mod_eq_of_lt hi, BitVec.getLsbD]
    · obtain ⟨j, rfl⟩ : ∃ j, i = j + w := ⟨i - w, by omega⟩
      simp only [hi, if_false, Nat.add_sub_cancel, ih, Nat.add_div_right _ hw, Nat.add_mod_right,
        List.getD_cons_succ]

/-- The top bit of the last word says whether the number is in the upper half. -/
theorem msb_last {xs : List (BitVec w)} {k : Nat} (hw : 0 < w) (hlen : xs.length = k + 1) :
    (xs.getD k 0).msb = decide (2 ^ (w * (k + 1) - 1) ≤ value xs) := by
  have hlast : (xs.getD k 0).toNat = value xs / 2 ^ (w * k) := by
    rw [← value_drop, List.drop_eq_getElem_cons (by omega), List.drop_of_length_le (by omega),
      value_cons, value_nil, Nat.mul_zero, Nat.add_zero, List.getD_eq_getElem?_getD,
      List.getElem?_eq_getElem (by omega), Option.getD_some]
  have hpow : 2 ^ (w * (k + 1) - 1) = 2 ^ (w - 1) * 2 ^ (w * k) := by
    rw [← Nat.pow_add, Nat.mul_succ, Nat.add_sub_assoc hw, Nat.add_comm]
  rw [BitVec.msb_eq_decide, hlast, hpow]
  exact decide_eq_decide.mpr (Nat.le_div_iff_mul_le (Nat.two_pow_pos _))

/-- A mask of ones at the low end keeps the number modulo a power. -/
theorem toNat_and_low (x : BitVec w) {t : Nat} (ht : t ≤ w) :
    (x &&& (BitVec.allOnes w >>> (w - t))).toNat = x.toNat % 2 ^ t := by
  apply Nat.eq_of_testBit_eq
  intro i
  rw [Nat.testBit_mod_two_pow, BitVec.testBit_toNat, BitVec.testBit_toNat, BitVec.getLsbD_and,
    BitVec.getLsbD_ushiftRight, BitVec.getLsbD_allOnes]
  by_cases hi : i < t
  · simp [hi, show w - t + i < w by omega]
  · simp [hi, show ¬ w - t + i < w by omega]

/-- A mask of ones at the high end. -/
theorem toNat_high {t : Nat} (ht : t ≤ w) :
    (BitVec.allOnes w <<< t).toNat = 2 ^ w - 2 ^ t := by
  have hle : 2 ^ t ≤ 2 ^ w := Nat.pow_le_pow_right (by omega) ht
  have hone := Nat.one_le_two_pow (n := t)
  have hsplit : (2 ^ w - 1) * 2 ^ t = (2 ^ w - 2 ^ t) + 2 ^ w * (2 ^ t - 1) := by
    have hmul := Nat.le_mul_of_pos_right (2 ^ w) hone
    rw [Nat.sub_mul, Nat.mul_sub, Nat.one_mul, Nat.mul_one]
    omega
  rw [BitVec.toNat_shiftLeft, BitVec.toNat_allOnes, Nat.shiftLeft_eq, hsplit,
    Nat.add_mul_mod_self_left]
  exact Nat.mod_eq_of_lt (by omega)

/-- A mask of one bit tests that bit. -/
theorem and_bit_ne_zero (x : BitVec w) {k : Nat} (hk : k < w) :
    x &&& ((1 : BitVec w) <<< k) ≠ 0 ↔ x.getLsbD k = true := by
  have hmask : ∀ j, ((1 : BitVec w) <<< k).getLsbD j = decide (j = k) := by
    intro j
    rw [BitVec.getLsbD_shiftLeft]
    by_cases hj : j = k
    · subst hj
      simp [hk, Nat.lt_of_le_of_lt (Nat.zero_le j) hk]
    · by_cases hlt : j < k
      · simp [hj, hlt]
      · simp [hj, hlt]
        omega
  constructor
  · intro h
    by_contra hx
    apply h
    apply BitVec.eq_of_getLsbD_eq
    intro j _
    rw [BitVec.getLsbD_and, hmask]
    by_cases hj : j = k
    · rw [hj, Bool.eq_false_iff.mpr hx, Bool.false_and]
      exact BitVec.getLsbD_zero.symm
    · simp [hj]
  · intro hx h
    have hbit := congrArg (·.getLsbD k) h
    simp only [BitVec.getLsbD_and, hmask, hx, decide_true, Bool.and_true] at hbit
    exact absurd hbit (by simp)

/-- Words are complemented by subtraction from the largest number. -/
theorem value_map_not (xs : List (BitVec w)) :
    value (xs.map (~~~ ·)) + value xs + 1 = 2 ^ (w * xs.length) := by
  induction xs with
  | nil => rfl
  | cons x xs ih =>
    have hx : (~~~ x).toNat + x.toNat + 1 = 2 ^ w := by
      have := x.isLt
      rw [BitVec.toNat_not]
      omega
    rw [List.map_cons, value_cons, value_cons, List.length_cons, two_pow_mul_succ, ← ih]
    calc _ = ((~~~ x).toNat + x.toNat + 1) +
          2 ^ w * (value (xs.map (~~~ ·)) + value xs) := by ring
      _ = 2 ^ w * (value (xs.map (~~~ ·)) + value xs + 1) := by
        rw [hx]
        ring

/-! ## Passes from the low end -/

/-- A loop from the first word to the last that carries a state along. -/
def pass (f : α → σ → β × σ) : List α → σ → List β × σ
  | [], s => ([], s)
  | x :: xs, s =>
    let (y, s) := f x s
    let (ys, s) := pass f xs s
    (y :: ys, s)

@[simp] theorem pass_nil (f : α → σ → β × σ) (s : σ) : pass f [] s = ([], s) := rfl

@[simp] theorem pass_cons (f : α → σ → β × σ) (x : α) (xs : List α) (s : σ) :
    pass f (x :: xs) s =
      ((f x s).1 :: (pass f xs (f x s).2).1, (pass f xs (f x s).2).2) := rfl

@[simp] theorem length_pass (f : α → σ → β × σ) (xs : List α) (s : σ) :
    (pass f xs s).1.length = xs.length := by
  induction xs generalizing s with
  | nil => rfl
  | cons x xs ih => simp [ih]

/-- A pass whose steps keep digit and carry keeps the number and the last carry. -/
theorem sum_pass {f : α → σ → β × σ} {D : β → Nat} {F : α → Nat} {C : σ → Nat} {P : σ → Prop}
    {xs : List α}
    (h : ∀ x ∈ xs, ∀ s, P s → P (f x s).2 ∧ D (f x s).1 + 2 ^ w * C (f x s).2 = F x + C s)
    {s : σ} (hs : P s) :
    P (pass f xs s).2 ∧
      sum w D (pass f xs s).1 + 2 ^ (w * xs.length) * C (pass f xs s).2 = sum w F xs + C s := by
  induction xs generalizing s with
  | nil => simp [hs]
  | cons x xs ih =>
    obtain ⟨hp, heq⟩ := h x (by simp) s hs
    obtain ⟨hp', heq'⟩ := ih (fun y hy => h y (List.mem_cons_of_mem _ hy)) hp
    refine ⟨hp', ?_⟩
    simp only [pass_cons, sum_cons, List.length_cons, two_pow_mul_succ]
    calc _ = D (f x s).1 + 2 ^ w * (sum w D (pass f xs (f x s).2).1 +
          2 ^ (w * xs.length) * C (pass f xs (f x s).2).2) := by ring
      _ = D (f x s).1 + 2 ^ w * C (f x s).2 + 2 ^ w * sum w F xs := by
        rw [heq']
        ring
      _ = F x + 2 ^ w * sum w F xs + C s := by
        rw [heq]
        ring

/-- What every step yields, the pass yields. -/
theorem forall_mem_pass {f : α → σ → β × σ} {P : σ → Prop} {Q : β → Prop} {xs : List α}
    (h : ∀ x ∈ xs, ∀ s, P s → P (f x s).2 ∧ Q (f x s).1) {s : σ} (hs : P s) :
    ∀ y ∈ (pass f xs s).1, Q y := by
  induction xs generalizing s with
  | nil => simp
  | cons x xs ih =>
    obtain ⟨hp, hq⟩ := h x (by simp) s hs
    rw [pass_cons, List.forall_mem_cons]
    exact ⟨hq, ih (fun y hy => h y (List.mem_cons_of_mem _ hy)) hp⟩

/-- The words of a pass are the number modulo the power of the array. -/
theorem value_pass_mod {f : α → σ → BitVec w × σ} {F : α → Nat} {C : σ → Nat} {P : σ → Prop}
    (h : ∀ x s, P s → P (f x s).2 ∧ (f x s).1.toNat + 2 ^ w * C (f x s).2 = F x + C s)
    (xs : List α) {s : σ} (hs : P s) :
    value (pass f xs s).1 = (sum w F xs + C s) % 2 ^ (w * xs.length) := by
  have hlt := value_lt (pass f xs s).1
  rw [length_pass] at hlt
  rw [← (sum_pass (fun x _ => h x) hs).2, Nat.add_mul_mod_self_left]
  exact (Nat.mod_eq_of_lt hlt).symm

theorem pass_append (f : α → σ → β × σ) (xs ys : List α) (s : σ) :
    pass f (xs ++ ys) s =
      ((pass f xs s).1 ++ (pass f ys (pass f xs s).2).1, (pass f ys (pass f xs s).2).2) := by
  induction xs generalizing s with
  | nil => rfl
  | cons x xs ih => simp [ih]

theorem pass_map {γ : Type} (f : γ → σ → β × σ) (g : α → γ) (xs : List α) (s : σ) :
    pass f (xs.map g) s = pass (fun x => f (g x)) xs s := by
  induction xs generalizing s with
  | nil => rfl
  | cons x xs ih => simp only [List.map_cons, pass_cons, ih]

/-! ## Shifts within the array -/

/-- One step of a shift towards the high end. -/
def stepUp (o : Nat) (x pad : BitVec w) : BitVec w × BitVec w :=
  ((x <<< o) ||| pad, x >>> (w - o))

/-- Bits shifted in below do not overlap what was there. -/
theorem toNat_shiftLeft_or {o : Nat} (ho : o ≤ w) (x pad : BitVec w) (hpad : pad.toNat < 2 ^ o) :
    ((x <<< o) ||| pad).toNat + 2 ^ w * (x.toNat / 2 ^ (w - o)) = x.toNat * 2 ^ o + pad.toNat := by
  have hpow : 2 ^ w = 2 ^ (w - o) * 2 ^ o := by
    rw [← Nat.pow_add, Nat.sub_add_cancel ho]
  have hshl : (x <<< o).toNat = 2 ^ o * (x.toNat % 2 ^ (w - o)) := by
    rw [BitVec.toNat_shiftLeft, Nat.shiftLeft_eq, hpow, Nat.mul_mod_mul_right, Nat.mul_comm]
  rw [BitVec.toNat_or, hshl, ← Nat.two_pow_add_eq_or_of_lt hpad, hpow]
  have hdm := Nat.mod_add_div x.toNat (2 ^ (w - o))
  calc _ = (x.toNat % 2 ^ (w - o) + 2 ^ (w - o) * (x.toNat / 2 ^ (w - o))) * 2 ^ o + pad.toNat := by
        ring
    _ = x.toNat * 2 ^ o + pad.toNat := by rw [hdm]

/-- Shifting every word up, low end first, shifts the number. -/
theorem value_pass_stepUp {o : Nat} (ho : o ≤ w) (xs : List (BitVec w)) :
    value (pass (stepUp o) xs 0).1 = value xs * 2 ^ o % 2 ^ (w * xs.length) := by
  have hstep : ∀ x pad : BitVec w, pad.toNat < 2 ^ o →
      (stepUp o x pad).2.toNat < 2 ^ o ∧
        (stepUp o x pad).1.toNat + 2 ^ w * (stepUp o x pad).2.toNat =
          x.toNat * 2 ^ o + pad.toNat := by
    intro x pad hpad
    simp only [stepUp, BitVec.toNat_ushiftRight, Nat.shiftRight_eq_div_pow]
    refine ⟨?_, toNat_shiftLeft_or ho x pad hpad⟩
    rw [Nat.div_lt_iff_lt_mul (Nat.two_pow_pos _), ← Nat.pow_add]
    rw [show o + (w - o) = w by omega]
    exact x.isLt
  have h := value_pass_mod hstep xs (s := 0) (by simp)
  rw [sum_mul] at h
  simpa only [value, BitVec.toNat_zero, BitVec.ofNat_eq_ofNat, BitVec.toNat_ofNat, Nat.zero_mod,
    Nat.add_zero] using h

/-- A shift by whole words, with words of zeros below. -/
theorem value_shiftUp (xs : List (BitVec w)) {k : Nat} (hk : k ≤ xs.length) :
    value (List.replicate k 0 ++ xs.take (xs.length - k)) =
      value xs * 2 ^ (w * k) % 2 ^ (w * xs.length) := by
  rw [value_append, value_replicate_zero, List.length_replicate, value_take, Nat.zero_add]
  have hpow : 2 ^ (w * xs.length) = 2 ^ (w * k) * 2 ^ (w * (xs.length - k)) := by
    rw [← Nat.pow_add, ← Nat.mul_add, Nat.add_sub_cancel' hk]
  rw [hpow, Nat.mul_comm (value xs), Nat.mul_mod_mul_left]

/-- A shift by whole words, with words of zeros above. -/
theorem value_shiftDown (xs : List (BitVec w)) (k : Nat) :
    value (xs.drop k ++ List.replicate k 0) = value xs / 2 ^ (w * k) := by
  rw [value_append, value_replicate_zero, Nat.mul_zero, Nat.add_zero, value_drop]

/-- A loop from the last word to the first that carries a state along. -/
def passDown (f : α → σ → β × σ) : List α → σ → List β × σ
  | [], s => ([], s)
  | x :: xs, s =>
    let (ys, s) := passDown f xs s
    let (y, s) := f x s
    (y :: ys, s)

@[simp] theorem length_passDown (f : α → σ → β × σ) (xs : List α) (s : σ) :
    (passDown f xs s).1.length = xs.length := by
  induction xs with
  | nil => rfl
  | cons x xs ih => simp [passDown, ih]

/-- One step of a shift towards the low end. -/
def stepDown (o : Nat) (x pad : BitVec w) : BitVec w × BitVec w :=
  (pad ||| (x >>> o), x <<< (w - o))

/-- Shifting every word down, high end first, shifts the number. -/
theorem value_passDown_stepDown {o : Nat} (ho : o ≤ w) (xs : List (BitVec w)) :
    value (passDown (stepDown o) xs 0).1 = value xs / 2 ^ o ∧
      (passDown (stepDown o) xs 0).2.toNat = 2 ^ (w - o) * (value xs % 2 ^ o) := by
  have hpow : 2 ^ w = 2 ^ (w - o) * 2 ^ o := by
    rw [← Nat.pow_add, Nat.sub_add_cancel ho]
  induction xs with
  | nil => simp [passDown]
  | cons x xs ih =>
    obtain ⟨hv, hp⟩ := ih
    have hlt : x.toNat / 2 ^ o < 2 ^ (w - o) := by
      rw [Nat.div_lt_iff_lt_mul (Nat.two_pow_pos _), ← hpow]
      exact x.isLt
    constructor
    · simp only [passDown, stepDown, value_cons, hv, BitVec.toNat_or, hp,
        BitVec.toNat_ushiftRight, Nat.shiftRight_eq_div_pow]
      rw [← Nat.two_pow_add_eq_or_of_lt hlt]
      have hdm := Nat.mod_add_div (value xs) (2 ^ o)
      have hsplit : x.toNat + 2 ^ w * value xs =
          x.toNat + 2 ^ o * (2 ^ (w - o) * value xs) := by
        rw [hpow]
        ring
      rw [hsplit, Nat.add_mul_div_left _ _ (Nat.two_pow_pos _)]
      calc _ = x.toNat / 2 ^ o +
            2 ^ (w - o) * (value xs % 2 ^ o + 2 ^ o * (value xs / 2 ^ o)) := by
              rw [hpow]
              ring
        _ = x.toNat / 2 ^ o + 2 ^ (w - o) * value xs := by rw [hdm]
    · simp only [passDown, stepDown, value_cons]
      have hmod : (x.toNat + 2 ^ w * value xs) % 2 ^ o = x.toNat % 2 ^ o := by
        have hsplit : 2 ^ w * value xs = 2 ^ o * (2 ^ (w - o) * value xs) := by
          rw [hpow]
          ring
        rw [hsplit, Nat.add_mul_mod_self_left]
      rw [hmod, BitVec.toNat_shiftLeft, Nat.shiftLeft_eq, hpow, Nat.mul_comm x.toNat,
        Nat.mul_mod_mul_left]

end Icarus.Core.Words
