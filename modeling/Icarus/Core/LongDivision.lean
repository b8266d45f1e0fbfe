import Mathlib.Data.Nat.Bitwise
import Mathlib.Tactic.Ring

/-!
# Long division by trial digits

A digit of the quotient is tried, its multiple of the divisor is subtracted from
the window of the dividend above the position of the digit, and the divisor is
added back until the window is not negative. The window has a capacity; what
exceeds it is lost. The digits found are those of the quotient exactly if no
trial is too small and no multiple is too large.
-/

namespace Icarus.Core.LongDivision

variable {base divisor capacity window trial : Nat}

/-! ## One digit -/

/-- How often the divisor is added back. -/
def addBacks (capacity divisor window trial : Nat) : Nat :=
  (divisor * trial % capacity - window + (divisor - 1)) / divisor

/-- The window after one digit, and the digit. -/
def tryDigit (capacity divisor window trial : Nat) : Nat × Nat :=
  (window + addBacks capacity divisor window trial * divisor - divisor * trial % capacity,
    trial - addBacks capacity divisor window trial)

/-- The trial is not too small, and its multiple fits. -/
def Fits (capacity divisor window trial : Nat) : Prop :=
  window / divisor ≤ trial ∧ divisor * trial < capacity

instance (capacity divisor window trial : Nat) : Decidable (Fits capacity divisor window trial) :=
  inferInstanceAs (Decidable (_ ∧ _))

/-- The divisor is added back as often as needed, and not more often. -/
theorem addBacks_spec (capacity window trial : Nat) (hpos : 0 < divisor) :
    divisor * trial % capacity ≤ window + addBacks capacity divisor window trial * divisor ∧
      (addBacks capacity divisor window trial = 0 ∨
        window + addBacks capacity divisor window trial * divisor <
          divisor * trial % capacity + divisor) ∧
      addBacks capacity divisor window trial ≤ trial := by
  obtain ⟨diff, hdiff⟩ : ∃ diff, diff = divisor * trial % capacity := ⟨_, rfl⟩
  obtain ⟨back, hback⟩ : ∃ back, back = addBacks capacity divisor window trial := ⟨_, rfl⟩
  rw [← hback, ← hdiff]
  rw [addBacks, ← hdiff] at hback
  have hlow := Nat.div_add_mod (diff - window + (divisor - 1)) divisor
  have hmod := Nat.mod_lt (diff - window + (divisor - 1)) hpos
  rw [← hback, Nat.mul_comm] at hlow
  refine ⟨by omega, ?_, ?_⟩
  · rcases Nat.eq_zero_or_pos back with h0 | h0
    · exact .inl h0
    · right
      have hle : divisor ≤ back * divisor := Nat.le_mul_of_pos_left _ h0
      omega
  · have hle : diff ≤ divisor * trial := hdiff ▸ Nat.mod_le _ _
    rw [hback, Nat.div_le_iff_le_mul_add_pred hpos]
    omega

/-- The number of times is the only one that is enough and not too much. -/
theorem addBacks_eq (capacity window trial : Nat) {back : Nat} (hpos : 0 < divisor)
    (hge : divisor * trial % capacity ≤ window + back * divisor)
    (hlt : window + back * divisor < divisor * trial % capacity + divisor) :
    addBacks capacity divisor window trial = back := by
  obtain ⟨hge', hlast, -⟩ := addBacks_spec capacity window trial hpos
  have hle : back ≤ addBacks capacity divisor window trial := by
    by_contra hnot
    have hmul := Nat.mul_le_mul_right divisor (Nat.not_le.mp hnot)
    rw [Nat.succ_mul] at hmul
    omega
  refine Nat.le_antisymm ?_ hle
  rcases hlast with h0 | hlt'
  · omega
  · by_contra hnot
    have hmul := Nat.mul_le_mul_right divisor (Nat.not_le.mp hnot)
    rw [Nat.succ_mul] at hmul
    omega

/-- Window and digit make up the window before, but for what is lost. -/
theorem tryDigit_sum (capacity window trial : Nat) (hpos : 0 < divisor) :
    (tryDigit capacity divisor window trial).1 +
        (tryDigit capacity divisor window trial).2 * divisor =
      window + divisor * trial / capacity * capacity := by
  obtain ⟨hle, -, hback⟩ := addBacks_spec capacity window trial hpos
  have hdm := Nat.mod_add_div (divisor * trial) capacity
  have hmul := Nat.mul_le_mul_right divisor hback
  rw [tryDigit]
  dsimp only
  rw [Nat.sub_mul, Nat.mul_comm trial, Nat.mul_comm _ capacity]
  rw [Nat.mul_comm trial] at hmul
  omega

/-- The window after one digit is below the divisor, or not above the window before. -/
theorem tryDigit_lt (trial : Nat) (hpos : 0 < divisor) (hwindow : window < capacity) (hle : divisor ≤ capacity) :
    (tryDigit capacity divisor window trial).1 < capacity := by
  obtain ⟨hge, hlast, -⟩ := addBacks_spec capacity window trial hpos
  rw [tryDigit]
  dsimp only
  rcases hlast with h0 | hlt
  · rw [h0, Nat.zero_mul]
    omega
  · omega

/-- A trial that fits gives the digit of the quotient. -/
theorem tryDigit_of_fits (hpos : 0 < divisor) (h : Fits capacity divisor window trial) :
    tryDigit capacity divisor window trial = (window % divisor, window / divisor) := by
  obtain ⟨hge, hfit⟩ := h
  have hsum := tryDigit_sum capacity window trial hpos
  rw [Nat.div_eq_of_lt hfit, Nat.zero_mul, Nat.add_zero] at hsum
  have hlt : (tryDigit capacity divisor window trial).1 < divisor := by
    obtain ⟨hle, hlast, -⟩ := addBacks_spec capacity window trial hpos
    rw [Nat.mod_eq_of_lt hfit] at hle hlast
    rw [tryDigit]
    dsimp only
    rw [Nat.mod_eq_of_lt hfit]
    rcases hlast with h0 | hlt
    · rw [h0, Nat.zero_mul, Nat.add_zero]
      have hmul := Nat.mul_le_mul_left divisor hge
      have hdm := Nat.mod_add_div window divisor
      have hmod := Nat.mod_lt window hpos
      omega
    · omega
  have hunique := (Nat.div_mod_unique hpos).mpr ⟨(Nat.mul_comm _ _ ▸ hsum : _), hlt⟩
  exact Prod.ext hunique.2.symm hunique.1.symm

/-- A trial that does not fit gives another digit. -/
theorem tryDigit_ne (hpos : 0 < divisor) (hwindow : window < capacity) (hle : divisor ≤ capacity)
    (h : ¬ Fits capacity divisor window trial) :
    (tryDigit capacity divisor window trial).2 ≠ window / divisor := by
  intro heq
  by_cases hfit : divisor * trial < capacity
  · have hlt : trial < window / divisor := by
      by_contra hge
      exact h ⟨Nat.not_lt.mp hge, hfit⟩
    rw [tryDigit] at heq
    dsimp only at heq
    omega
  · have hsum := tryDigit_sum capacity window trial hpos
    have hbound := tryDigit_lt trial hpos hwindow hle
    have hlost : 1 ≤ divisor * trial / capacity := by
      rw [Nat.one_le_div_iff (by omega)]
      omega
    have hmul := Nat.mul_le_mul_right capacity hlost
    have hdm := Nat.mod_add_div window divisor
    rw [heq, Nat.mul_comm] at hsum
    omega

/-! ## All digits -/

/-- The loop over the positions of the digits, from the highest; what is left of the dividend, and
the quotient. -/
def divide (base divisor : Nat) (capacity : Nat → Nat) (trial : Nat → Nat → Nat) :
    Nat → Nat → Nat × Nat
  | 0, rest => (rest, 0)
  | pos + 1, rest =>
    let d := tryDigit (capacity pos) divisor (rest / base ^ pos) (trial pos (rest / base ^ pos))
    let r := divide base divisor capacity trial pos (d.1 * base ^ pos + rest % base ^ pos)
    (r.1, d.2 * base ^ pos + r.2)

section Loop

variable {capacity : Nat → Nat} {trial : Nat → Nat → Nat} {dividend count : Nat}

/-- The window at a position, when the digits above it are those of the quotient. -/
def windowAt (base divisor dividend pos : Nat) : Nat := dividend / base ^ pos % (divisor * base)

theorem windowAt_eq (hbase : 0 < base) (pos : Nat) :
    dividend % (divisor * base ^ (pos + 1)) / base ^ pos = windowAt base divisor dividend pos := by
  have hsplit : divisor * base ^ (pos + 1) = base ^ pos * (divisor * base) := by
    rw [pow_succ]
    ring
  rw [hsplit, Nat.mod_mul, Nat.add_mul_div_left _ _ (Nat.pow_pos hbase),
    Nat.div_eq_of_lt (Nat.mod_lt _ (Nat.pow_pos hbase)), Nat.zero_add]
  rfl

/-- The part of the dividend that is left after a digit of the quotient. -/
private theorem rest_eq (pos : Nat) : windowAt base divisor dividend pos % divisor * base ^ pos +
    dividend % (divisor * base ^ (pos + 1)) % base ^ pos = dividend % (divisor * base ^ pos) := by
  have hdvd : base ^ pos ∣ divisor * base ^ (pos + 1) :=
    Dvd.dvd.mul_left (pow_dvd_pow _ (Nat.le_succ pos)) _
  rw [Nat.mod_mod_of_dvd _ hdvd, windowAt, Nat.mod_mul_right_mod, Nat.mul_comm divisor,
    Nat.mod_mul, Nat.mul_comm, Nat.add_comm]

/-- The digit of the quotient at a position. -/
private theorem digit_eq (pos : Nat) :
    dividend / divisor % base ^ (pos + 1) =
      windowAt base divisor dividend pos / divisor * base ^ pos +
        dividend / divisor % base ^ pos := by
  rw [pow_succ, Nat.mod_mul, windowAt, Nat.mod_mul_right_div_self, Nat.div_div_eq_div_mul,
    Nat.div_div_eq_div_mul, Nat.mul_comm divisor, Nat.add_comm, Nat.mul_comm (base ^ pos) (_ % _)]

private theorem high_unique {d e x y p : Nat} (hx : x < p) (hy : y < p)
    (h : d * p + x = e * p + y) : d = e := by
  have hdiv := congrArg (· / p) h
  simpa only [Nat.add_comm (_ * p), Nat.add_mul_div_right _ _ (Nat.zero_lt_of_lt hx),
    Nat.div_eq_of_lt hx, Nat.div_eq_of_lt hy, Nat.zero_add] using hdiv

/-- The quotient found has as many digits as there are positions. -/
theorem divide_lt (divisor : Nat) (capacity : Nat → Nat) (htrial : ∀ pos w, trial pos w < base) (count rest : Nat) :
    (divide base divisor capacity trial count rest).2 < base ^ count := by
  induction count generalizing rest with
  | zero => exact Nat.one_pos
  | succ pos ih =>
    rw [divide]
    dsimp only
    have hdigit : (tryDigit (capacity pos) divisor (rest / base ^ pos)
        (trial pos (rest / base ^ pos))).2 + 1 ≤ base := by
      have hlt := htrial pos (rest / base ^ pos)
      rw [tryDigit]
      dsimp only
      omega
    have hrest := ih ((tryDigit (capacity pos) divisor (rest / base ^ pos)
      (trial pos (rest / base ^ pos))).1 * base ^ pos + rest % base ^ pos)
    have hmul := Nat.mul_le_mul_right (base ^ pos) hdigit
    rw [pow_succ, Nat.mul_comm (base ^ pos)]
    rw [Nat.add_mul, Nat.one_mul] at hmul
    omega

/-- If every trial fits the loop finds quotient and remainder. -/
theorem divide_of_fits (hbase : 0 < base) (hpos : 0 < divisor)
    (hfits : ∀ pos < count, Fits (capacity pos) divisor (windowAt base divisor dividend pos)
      (trial pos (windowAt base divisor dividend pos))) :
    divide base divisor capacity trial count (dividend % (divisor * base ^ count)) =
      (dividend % divisor, dividend / divisor % base ^ count) := by
  induction count with
  | zero => rw [divide, pow_zero, Nat.mul_one, Nat.mod_one]
  | succ pos ih =>
    rw [divide, windowAt_eq hbase]
    rw [tryDigit_of_fits hpos (hfits pos (Nat.lt_succ_self pos)), rest_eq,
      ih fun j hj => hfits j (by omega), ← digit_eq]

/-- The loop finds the quotient exactly if every trial fits. -/
theorem divide_quotient_iff (hbase : 0 < base) (hpos : 0 < divisor)
    (htrial : ∀ pos w, trial pos w < base) (hle : ∀ pos < count, divisor ≤ capacity pos)
    (hwindow : ∀ pos < count, windowAt base divisor dividend pos < capacity pos) :
    (divide base divisor capacity trial count (dividend % (divisor * base ^ count))).2 =
        dividend / divisor % base ^ count ↔
      ∀ pos < count, Fits (capacity pos) divisor (windowAt base divisor dividend pos)
        (trial pos (windowAt base divisor dividend pos)) := by
  constructor
  · intro heq
    induction count with
    | zero => exact fun pos hlt => absurd hlt (Nat.not_lt_zero pos)
    | succ top ih =>
      rw [divide, windowAt_eq hbase, digit_eq] at heq
      dsimp only at heq
      have hlow := divide_lt divisor capacity htrial top
        ((tryDigit (capacity top) divisor (windowAt base divisor dividend top)
          (trial top (windowAt base divisor dividend top))).1 * base ^ top +
            dividend % (divisor * base ^ (top + 1)) % base ^ top)
      have hmod := Nat.mod_lt (dividend / divisor) (Nat.pow_pos (n := top) hbase)
      have hdigit : (tryDigit (capacity top) divisor (windowAt base divisor dividend top)
          (trial top (windowAt base divisor dividend top))).2 =
          windowAt base divisor dividend top / divisor := high_unique hlow hmod heq
      have htop : Fits (capacity top) divisor (windowAt base divisor dividend top)
          (trial top (windowAt base divisor dividend top)) := by
        by_contra hnot
        exact tryDigit_ne hpos (hwindow top (Nat.lt_succ_self top)) (hle top (Nat.lt_succ_self top))
          hnot hdigit
      rw [tryDigit_of_fits hpos htop, rest_eq, Nat.add_left_cancel_iff] at heq
      have hbelow := ih (fun pos hlt => hle pos (by omega)) (fun pos hlt => hwindow pos (by omega)) heq
      intro pos hlt
      rcases Nat.lt_succ_iff_lt_or_eq.mp hlt with hlt | rfl
      · exact hbelow pos hlt
      · exact htop
  · intro hfits
    rw [divide_of_fits hbase hpos hfits]

/-- One digit more, which may lose something. -/
private theorem divide_succ_sum (hpos : 0 < divisor)
    (hlow : ∀ rest, (divide base divisor capacity trial count rest).1 +
      (divide base divisor capacity trial count rest).2 * divisor = rest) (rest : Nat) :
    (divide base divisor capacity trial (count + 1) rest).1 +
        (divide base divisor capacity trial (count + 1) rest).2 * divisor =
      rest + divisor * trial count (rest / base ^ count) / capacity count *
        (capacity count * base ^ count) := by
  have hsum := tryDigit_sum (capacity count) (rest / base ^ count)
    (trial count (rest / base ^ count)) hpos
  have hrest := hlow ((tryDigit (capacity count) divisor
    (rest / base ^ count) (trial count (rest / base ^ count))).1 * base ^ count +
      rest % base ^ count)
  have hdm := Nat.mod_add_div rest (base ^ count)
  rw [divide]
  dsimp only
  rw [Nat.add_mul, ← Nat.add_assoc, Nat.add_right_comm, hrest]
  calc _ = ((tryDigit (capacity count) divisor (rest / base ^ count)
          (trial count (rest / base ^ count))).1 +
        (tryDigit (capacity count) divisor (rest / base ^ count)
          (trial count (rest / base ^ count))).2 * divisor) * base ^ count +
        rest % base ^ count := by ring
    _ = rest % base ^ count + base ^ count * (rest / base ^ count) +
        divisor * trial count (rest / base ^ count) / capacity count *
          (capacity count * base ^ count) := by
      rw [hsum]
      ring
    _ = _ := by rw [hdm]

/-- If nothing can be lost quotient and rest make up the dividend. -/
theorem divide_sum (base : Nat) (hpos : 0 < divisor)
    (hfit : ∀ pos < count, ∀ w, divisor * trial pos w < capacity pos) (rest : Nat) :
    (divide base divisor capacity trial count rest).1 +
      (divide base divisor capacity trial count rest).2 * divisor = rest := by
  induction count generalizing rest with
  | zero => simp [divide]
  | succ pos ih =>
    rw [divide_succ_sum hpos (ih fun j hj => hfit j (by omega)),
      Nat.div_eq_of_lt (hfit pos (Nat.lt_succ_self pos) _), Nat.zero_mul, Nat.add_zero]

/-- The same where the first digit may lose something. -/
theorem divide_sum_top (hpos : 0 < divisor)
    (hfit : ∀ pos < count, ∀ w, divisor * trial pos w < capacity pos) (rest : Nat) :
    (divide base divisor capacity trial (count + 1) rest).1 +
        (divide base divisor capacity trial (count + 1) rest).2 * divisor =
      rest + divisor * trial count (rest / base ^ count) / capacity count *
        (capacity count * base ^ count) :=
  divide_succ_sum hpos (divide_sum base hpos hfit) rest

end Loop

end Icarus.Core.LongDivision
