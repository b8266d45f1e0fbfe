import Icarus.Core.QuadTree
import Mathlib.Order.MinMax
import Mathlib.Data.Set.Insert

/-!
# Resolution of ranges of drives

The abstract side of strength resolution: a drive is a signed strength, a value
is a range of drives. An unambiguous drive pulls the weaker ends of an ambiguous
range to itself; two ambiguous ranges join. Three ways for a set of ranges to
sit around a drive make resolution associative, and any other set has three
members whose order matters.
-/

namespace Icarus.Vvp.Resolv

open Icarus.Core.QuadTree

/-- A range of signed strengths; the single drive zero is HiZ. -/
@[ext] structure Range where
  /-- The lower end. -/
  lo : Int
  /-- The upper end. -/
  hi : Int
  deriving DecidableEq

namespace Range

/-- A drive `v` takes the place of weaker ones. -/
def sweep (v x : Int) : Int := if x.natAbs < v.natAbs then v else x

/-- Two ranges driving one net. -/
def resolve (a b : Range) : Range :=
  if a = ⟨0, 0⟩ then b
  else if b = ⟨0, 0⟩ then a
  else if a.lo = a.hi ∧ b.lo = b.hi then
    if a.lo.natAbs < b.lo.natAbs then b
    else if a.lo.natAbs = b.lo.natAbs then ⟨min a.lo b.lo, max a.hi b.hi⟩
    else a
  else if a.lo = a.hi then ⟨sweep a.lo b.lo, sweep a.lo b.hi⟩
  else if b.lo = b.hi then ⟨sweep b.lo a.lo, sweep b.lo a.hi⟩
  else ⟨min a.lo b.lo, max a.hi b.hi⟩

/-! ## The four kinds of pairs -/

@[simp] theorem resolve_hiz (b : Range) : resolve ⟨0, 0⟩ b = b := by simp [resolve]

@[simp] theorem resolve_hiz_right (a : Range) : resolve a ⟨0, 0⟩ = a := by
  by_cases h : a = ⟨0, 0⟩ <;> simp [resolve, h]

theorem resolve_drive_drive {v w : Int} (hv : v ≠ 0) (hw : w ≠ 0) :
    resolve ⟨v, v⟩ ⟨w, w⟩ =
      if v.natAbs < w.natAbs then ⟨w, w⟩
      else if v.natAbs = w.natAbs then ⟨min v w, max v w⟩
      else ⟨v, v⟩ := by
  simp [resolve, hv, hw]

theorem resolve_drive_range {v l h : Int} (hv : v ≠ 0) (hlt : l < h) :
    resolve ⟨v, v⟩ ⟨l, h⟩ = ⟨sweep v l, sweep v h⟩ := by
  have hne : l ≠ h := by omega
  have hz : ¬ (l = 0 ∧ h = 0) := by omega
  simp [resolve, hv, hne, hz]

theorem resolve_range_drive {v l h : Int} (hv : v ≠ 0) (hlt : l < h) :
    resolve ⟨l, h⟩ ⟨v, v⟩ = ⟨sweep v l, sweep v h⟩ := by
  have hne : l ≠ h := by omega
  have hz : ¬ (l = 0 ∧ h = 0) := by omega
  simp [resolve, hv, hne, hz]

theorem resolve_range_range {l h l' h' : Int} (hlt : l < h) (hlt' : l' < h') :
    resolve ⟨l, h⟩ ⟨l', h'⟩ = ⟨min l l', max h h'⟩ := by
  have hne : l ≠ h := by omega
  have hne' : l' ≠ h' := by omega
  have hz : ¬ (l = 0 ∧ h = 0) := by omega
  have hz' : ¬ (l' = 0 ∧ h' = 0) := by omega
  simp [resolve, hne, hne', hz, hz']

/-- The order of two drivers does not matter. -/
theorem resolve_comm (a b : Range) : resolve a b = resolve b a := by
  by_cases ha : a = ⟨0, 0⟩
  · rw [ha, resolve_hiz, resolve_hiz_right]
  · by_cases hb : b = ⟨0, 0⟩
    · rw [hb, resolve_hiz, resolve_hiz_right]
    · by_cases hda : a.lo = a.hi <;> by_cases hdb : b.lo = b.hi
      · simp only [resolve, ha, hb, hda, hdb, and_self, if_true, if_false, min_comm, max_comm]
        by_cases hlt : a.hi.natAbs < b.hi.natAbs
        · have hgt : ¬ b.hi.natAbs < a.hi.natAbs := by omega
          have hne : ¬ b.hi.natAbs = a.hi.natAbs := by omega
          simp only [hlt, hgt, hne, if_true, if_false]
        · by_cases heq : a.hi.natAbs = b.hi.natAbs
          · simp only [heq, lt_irrefl, if_true, if_false]
          · have hgt : b.hi.natAbs < a.hi.natAbs := by omega
            simp only [hlt, heq, hgt, if_true, if_false]
      · simp only [resolve, ha, hb, hda, hdb, and_false, false_and, if_true, if_false]
      · simp only [resolve, ha, hb, hda, hdb, and_false, false_and, if_true, if_false]
      · simp only [resolve, ha, hb, hda, hdb, and_self, if_false, min_comm, max_comm]

/-! ## How a range sits around a drive -/

/-- Both ends are at the drive or weaker than it. -/
def Inside (v : Int) (a : Range) : Prop :=
  if v < 0 then v ≤ a.lo ∧ a.hi < -v else -v < a.lo ∧ a.hi ≤ v

/-- The range starts short of the opposite drive and reaches it. -/
def Crosses (v : Int) (a : Range) : Prop :=
  if v < 0 then a.lo < -v ∧ -v ≤ a.hi else -v < a.hi ∧ a.lo ≤ -v

/-- The range lies on the side of the drive and is nowhere weaker. -/
def Beyond (v : Int) (a : Range) : Prop :=
  if v < 0 then a.hi ≤ v else v ≤ a.lo

/-- Both ends are at least as strong as the drive. -/
def Outside (v : Int) (a : Range) : Prop :=
  (a.lo ≤ -v.natAbs ∧ v.natAbs ≤ a.hi) ∨ a.hi ≤ -v.natAbs ∨ v.natAbs ≤ a.lo

/-- The ways ambiguous ranges may sit around a drive together. -/
inductive Mode
  | within | aside | outside
  deriving DecidableEq

/-- A range sits around a drive in one of the ways. -/
def Sits : Mode → Int → Range → Prop
  | .within, v, a => Inside v a ∨ Crosses v a
  | .aside, v, a => Crosses v a ∨ Beyond v a
  | .outside, v, a => Outside v a

/-- One end is weaker than the drive and would be pulled away from a stronger end. -/
def Split (v : Int) (a : Range) : Prop :=
  if v < 0 then a.lo < v ∧ v < a.hi ∧ a.hi < -v else v < a.hi ∧ -v < a.lo ∧ a.lo < v

/-- No range that sits around a drive in one of the ways is split by it. -/
theorem Sits.not_split {m : Mode} {v : Int} {a : Range} (h : Sits m v a)
    (hlt : a.lo < a.hi) : ¬ Split v a := by
  unfold Split
  cases m with
  | outside =>
    simp only [Sits, Outside] at h
    split_ifs <;> omega
  | within | aside =>
    simp only [Sits, Inside, Crosses, Beyond] at h
    split_ifs at h ⊢ <;> omega

/-- The join of two ranges sits around a drive as they do. -/
theorem Sits.join {m : Mode} {v : Int} {a b : Range} (ha : Sits m v a) (hb : Sits m v b)
    (hla : a.lo < a.hi) (hlb : b.lo < b.hi) :
    Sits m v ⟨min a.lo b.lo, max a.hi b.hi⟩ := by
  cases m with
  | outside =>
    simp only [Sits, Outside] at ha hb ⊢
    omega
  | within | aside =>
    simp only [Sits, Inside, Crosses, Beyond] at ha hb ⊢
    split_ifs at ha hb ⊢ <;> omega

/-- A swept range is the sweeping drive or sits around another drive as it did. -/
theorem Sits.swept {m : Mode} {v w : Int} {a : Range} (h : Sits m v a)
    (hlt : a.lo < a.hi) (hs : ¬ Split w a) (hopp : v = -w → m = .within) :
    (sweep w a.lo = w ∧ sweep w a.hi = w) ∨
      (sweep w a.lo < sweep w a.hi ∧
        Sits m v ⟨sweep w a.lo, sweep w a.hi⟩) := by
  unfold Split at hs
  cases m with
  | outside =>
    have hne : v ≠ -w := fun he => by cases hopp he
    simp only [Sits, Outside, sweep] at h ⊢
    split_ifs at hs ⊢ <;> omega
  | within =>
    simp only [Sits, Inside, Crosses, sweep] at h ⊢
    split_ifs at h hs ⊢ <;> omega
  | aside =>
    have hne : v ≠ -w := fun he => by cases hopp he
    simp only [Sits, Crosses, Beyond, sweep] at h ⊢
    split_ifs at h hs ⊢ <;> omega

/-! ## Associativity -/

/-- Sweeping keeps the order of drives. -/
theorem sweep_le_sweep (v : Int) {x y : Int} (hxy : x ≤ y) : sweep v x ≤ sweep v y := by
  unfold sweep
  split_ifs <;> omega

/-- A range swept away entirely leaves no trace next to a range of its kind. -/
private theorem sweep_absorbs {m : Mode} {v : Int} {a b : Range} (ha : Sits m v a)
    (hb : Sits m v b) (hla : a.lo < a.hi) (hlb : b.lo < b.hi) (hlo : sweep v b.lo = v)
    (hhi : sweep v b.hi = v) :
    sweep v a.lo ≤ v ∧ v ≤ sweep v a.hi := by
  cases m with
  | outside =>
    simp only [Sits, Outside, sweep] at hb hlo hhi
    split_ifs at hlo hhi <;> omega
  | within =>
    simp only [Sits, Inside, Crosses, sweep] at ha ⊢
    split_ifs at ha ⊢ <;> omega
  | aside =>
    simp only [Sits, Crosses, Beyond, sweep] at hb hlo hhi
    split_ifs at hb hlo hhi <;> omega

/-- Next to a range that spans both drives of a strength, weaker ends do not count. -/
private theorem join_of_spans {v x y l h : Int} (hl : l ≤ -v.natAbs) (hh : v.natAbs ≤ h) :
    min (sweep v x) l = min x l ∧ max (sweep v y) h = max y h := by
  unfold sweep
  constructor <;> split_ifs <;> omega

/-- Next to a range that is not swept away, an end counts whether it is swept or not. -/
private theorem join_sweep {m : Mode} {v : Int} {a b : Range} (ha : Sits m v a)
    (hb : Sits m v b) (hla : a.lo < a.hi) (hlb : b.lo < b.hi)
    (hlt : sweep v b.lo < sweep v b.hi) :
    min (sweep v a.lo) (sweep v b.lo) = min a.lo (sweep v b.lo) ∧
      max (sweep v a.hi) (sweep v b.hi) = max a.hi (sweep v b.hi) := by
  have hcross : Crosses v b → sweep v b.lo ≤ -v.natAbs ∧ v.natAbs ≤ sweep v b.hi := by
    intro hc
    simp only [Crosses, sweep] at hc ⊢
    split_ifs at hc ⊢ <;> omega
  cases m with
  | outside =>
    have hends : sweep v a.lo = a.lo ∧ sweep v a.hi = a.hi := by
      simp only [Sits, Outside, sweep] at ha ⊢
      omega
    rw [hends.1, hends.2]
    exact ⟨rfl, rfl⟩
  | within =>
    rcases hb with hin | hc
    · have heq : sweep v b.lo = v ∧ sweep v b.hi = v := by
        simp only [Inside, sweep] at hin ⊢
        split_ifs at hin ⊢ <;> omega
      omega
    · exact join_of_spans (hcross hc).1 (hcross hc).2
  | aside =>
    rcases hb with hc | hbeyond
    · exact join_of_spans (hcross hc).1 (hcross hc).2
    · have hends : sweep v b.lo = b.lo ∧ sweep v b.hi = b.hi := by
        simp only [Beyond, sweep] at hbeyond ⊢
        split_ifs at hbeyond ⊢ <;> omega
      rw [hends.1, hends.2]
      simp only [Sits, Crosses, Beyond, sweep] at ha hbeyond ⊢
      split_ifs at ha hbeyond ⊢ <;> omega

/-- Two ranges that sit around a drive alike may join before or after one is swept. -/
theorem Sits.left_comm_range {m : Mode} {v : Int} {a b : Range} (ha : Sits m v a) (hb : Sits m v b)
    (hv : v ≠ 0) (hla : a.lo < a.hi) (hlb : b.lo < b.hi) :
    resolve a (resolve ⟨v, v⟩ b) = resolve ⟨v, v⟩ (resolve a b) := by
  have hjoin : min a.lo b.lo < max a.hi b.hi := by omega
  have hmono : Monotone (sweep v) := fun _ _ => sweep_le_sweep v
  rw [resolve_range_range hla hlb, resolve_drive_range hv hjoin, resolve_drive_range hv hlb,
    hmono.map_min, hmono.map_max]
  rcases hb.swept hlb (hb.not_split hlb) (fun he => absurd he (by omega)) with
    ⟨hlo, hhi⟩ | ⟨hlt, _⟩
  · obtain ⟨h₁, h₂⟩ := sweep_absorbs ha hb hla hlb hlo hhi
    rw [hlo, hhi, min_eq_left h₁, max_eq_left h₂, resolve_range_drive hv hla]
  · obtain ⟨h₁, h₂⟩ := join_sweep ha hb hla hlb hlt
    rw [h₁, h₂, resolve_range_range hla hlt]

theorem resolve_drive_of_lt {v w : Int} (h : v.natAbs < w.natAbs) :
    resolve ⟨v, v⟩ ⟨w, w⟩ = ⟨w, w⟩ := by
  by_cases hv : v = 0
  · rw [hv, resolve_hiz]
  · rw [resolve_drive_drive hv (by omega)]
    simp only [h, if_true]

theorem resolve_drive_of_gt {v w : Int} (h : w.natAbs < v.natAbs) :
    resolve ⟨v, v⟩ ⟨w, w⟩ = ⟨v, v⟩ := by
  rw [resolve_comm, resolve_drive_of_lt h]

@[simp] theorem resolve_drive_self (v : Int) : resolve ⟨v, v⟩ ⟨v, v⟩ = ⟨v, v⟩ := by
  by_cases hv : v = 0
  · rw [hv, resolve_hiz]
  · rw [resolve_drive_drive hv hv]
    simp

/-- Opposite drives of one strength are unknown. -/
theorem resolve_drive_neg {v : Int} (hv : v ≠ 0) :
    resolve ⟨v, v⟩ ⟨-v, -v⟩ = ⟨-v.natAbs, v.natAbs⟩ := by
  rw [resolve_drive_drive hv (by omega)]
  simp only [Int.natAbs_neg, lt_irrefl, if_true, if_false]
  ext
  · simp only
    omega
  · simp only
    omega

/-- Sweeping with a weaker drive afterwards changes nothing. -/
private theorem sweep_sweep_of_le {v w : Int} (h : v.natAbs ≤ w.natAbs) (x : Int) :
    sweep v (sweep w x) = sweep w x := by
  unfold sweep
  split_ifs <;> omega

/-- Sweeping with a weaker drive before changes nothing. -/
private theorem sweep_sweep_of_ge {v w : Int} (h : w.natAbs < v.natAbs) (x : Int) :
    sweep v (sweep w x) = sweep v x := by
  unfold sweep
  split_ifs <;> omega

/-- Two drives act on a range one after the other as their resolution does. -/
theorem Sits.assoc_drives {m m' : Mode} {v w : Int} {a : Range} (ha : Sits m v a)
    (ha' : Sits m' w a) (hv : v ≠ 0) (hw : w ≠ 0) (hlt : a.lo < a.hi)
    (hopp : v = -w → m = .within ∧ m' = .within) :
    resolve ⟨v, v⟩ (resolve ⟨w, w⟩ a) = resolve (resolve ⟨v, v⟩ ⟨w, w⟩) a := by
  have hsw := ha.swept hlt (ha'.not_split hlt) (fun he => (hopp he).1)
  rw [resolve_drive_range hw hlt]
  rcases lt_trichotomy v.natAbs w.natAbs with hlt' | heq | hgt
  · rw [resolve_drive_of_lt hlt', resolve_drive_range hw hlt]
    rcases hsw with ⟨hlo, hhi⟩ | ⟨hr, _⟩
    · rw [hlo, hhi, resolve_drive_of_lt hlt']
    · rw [resolve_drive_range hv hr, sweep_sweep_of_le hlt'.le, sweep_sweep_of_le hlt'.le]
  · rcases Int.natAbs_eq_natAbs_iff.mp heq with rfl | hneg
    · rw [resolve_drive_self, resolve_drive_range hv hlt]
      rcases hsw with ⟨hlo, hhi⟩ | ⟨hr, _⟩
      · rw [hlo, hhi, resolve_drive_self]
      · rw [resolve_drive_range hv hr, sweep_sweep_of_le (le_refl _),
          sweep_sweep_of_le (le_refl _)]
    · obtain ⟨rfl, rfl⟩ := hopp hneg
      obtain rfl : w = -v := by omega
      have hx : (-v.natAbs : Int) < v.natAbs := by omega
      rw [resolve_drive_neg hv, resolve_range_range hx hlt]
      have hends : (sweep (-v) a.lo = -v ∧ sweep (-v) a.hi = -v →
            min (-v.natAbs : Int) a.lo = -v.natAbs ∧ max (v.natAbs : Int) a.hi = v.natAbs) ∧
          (sweep (-v) a.lo < sweep (-v) a.hi →
            min (-v.natAbs : Int) a.lo = sweep (-v) a.lo ∧
            max (v.natAbs : Int) a.hi = sweep (-v) a.hi) := by
        simp only [Sits, Inside, Crosses, sweep] at ha ha' ⊢
        split_ifs at ha ha' ⊢ <;> omega
      rcases hsw with ⟨hlo, hhi⟩ | ⟨hr, _⟩
      · obtain ⟨h₁, h₂⟩ := hends.1 ⟨hlo, hhi⟩
        rw [hlo, hhi, h₁, h₂, resolve_drive_neg hv]
      · obtain ⟨h₁, h₂⟩ := hends.2 hr
        have hle : v.natAbs ≤ (-v).natAbs := by omega
        rw [resolve_drive_range hv hr, sweep_sweep_of_le hle, sweep_sweep_of_le hle, h₁, h₂]
  · rw [resolve_drive_of_gt hgt, resolve_drive_range hv hlt]
    rcases hsw with ⟨hlo, hhi⟩ | ⟨hr, _⟩
    · have hlo' := sweep_sweep_of_ge hgt a.lo
      have hhi' := sweep_sweep_of_ge hgt a.hi
      have hsv : sweep v w = v := by simp [sweep, hgt]
      rw [hlo, hsv] at hlo'
      rw [hhi, hsv] at hhi'
      rw [hlo, hhi, ← hlo', ← hhi', resolve_drive_of_gt hgt]
    · rw [resolve_drive_range hv hr, sweep_sweep_of_ge hgt, sweep_sweep_of_ge hgt]

/-- An unknown value gives way to stronger drives only. -/
private theorem resolve_unknown_drive {s v : Int} (hs : 0 < s) (hv : v ≠ 0) :
    resolve ⟨-s, s⟩ ⟨v, v⟩ = if s < v.natAbs then ⟨v, v⟩ else ⟨-s, s⟩ := by
  rw [resolve_range_drive hv (by omega)]
  unfold sweep
  split_ifs <;> first | rfl | omega

/-- Three drives resolve alike in every order. -/
private theorem resolve_drives_assoc {v w x : Int} (hv : v ≠ 0) (hw : w ≠ 0) (hx : x ≠ 0) :
    resolve (resolve ⟨v, v⟩ ⟨w, w⟩) ⟨x, x⟩ = resolve ⟨v, v⟩ (resolve ⟨w, w⟩ ⟨x, x⟩) := by
  have hcases : ∀ {a b : Int}, a ≠ 0 → b ≠ 0 →
      a.natAbs < b.natAbs ∨ a = b ∨ a = -b ∨ b.natAbs < a.natAbs := by
    intro a b _ _
    omega
  have hunk : ∀ {a b : Int}, a ≠ 0 → a = -b →
      resolve ⟨a, a⟩ ⟨b, b⟩ = ⟨-a.natAbs, a.natAbs⟩ := by
    intro a b ha hab
    obtain rfl : b = -a := by omega
    exact resolve_drive_neg ha
  have hun : ∀ {a b : Int}, a ≠ 0 → b ≠ 0 → resolve ⟨-a.natAbs, a.natAbs⟩ ⟨b, b⟩ =
      if a.natAbs < b.natAbs then ⟨b, b⟩ else ⟨-a.natAbs, a.natAbs⟩ := by
    intro a b ha hb
    rw [resolve_unknown_drive (by omega) hb]
    simp only [Int.ofNat_lt]
  rcases hcases hv hw with h₁ | rfl | h₁ | h₁
  · rcases hcases hw hx with h₂ | rfl | h₂ | h₂
    · rw [resolve_drive_of_lt h₁, resolve_drive_of_lt h₂, resolve_drive_of_lt (h₁.trans h₂)]
    · rw [resolve_drive_of_lt h₁, resolve_drive_self, resolve_drive_of_lt h₁]
    · rw [resolve_drive_of_lt h₁, hunk hw h₂, resolve_comm ⟨v, v⟩, hun hw hv]
      simp only [show ¬ w.natAbs < v.natAbs by omega, if_false]
    · rw [resolve_drive_of_lt h₁, resolve_drive_of_gt h₂, resolve_drive_of_lt h₁]
  · rcases hcases hv hx with h₂ | rfl | h₂ | h₂
    · rw [resolve_drive_self, resolve_drive_of_lt h₂, resolve_drive_of_lt h₂]
    · simp only [resolve_drive_self]
    · rw [resolve_drive_self, hunk hv h₂, resolve_comm ⟨v, v⟩, hun hv hv]
      simp only [lt_irrefl, if_false]
    · rw [resolve_drive_self, resolve_drive_of_gt h₂, resolve_drive_self]
  · have habs : v.natAbs = w.natAbs := by omega
    rcases hcases hw hx with h₂ | rfl | h₂ | h₂
    · rw [hunk hv h₁, hun hv hx, resolve_drive_of_lt h₂, resolve_drive_of_lt (habs ▸ h₂)]
      simp only [habs, h₂, if_true]
    · rw [hunk hv h₁, hun hv hw, resolve_drive_self, hunk hv h₁]
      simp only [habs, lt_irrefl, if_false]
    · rw [hunk hv h₁, hun hv hx, hunk hw h₂, resolve_comm ⟨v, v⟩, hun hw hv]
      have habs' : w.natAbs = x.natAbs := by omega
      simp only [habs, habs', lt_irrefl, if_false]
    · rw [hunk hv h₁, hun hv hx, resolve_drive_of_gt h₂, hunk hv h₁]
      simp only [show ¬ v.natAbs < x.natAbs by omega, if_false]
  · rcases hcases hw hx with h₂ | rfl | h₂ | h₂
    · rw [resolve_drive_of_gt h₁, resolve_drive_of_lt h₂]
    · rw [resolve_drive_of_gt h₁, resolve_drive_self, resolve_drive_of_gt h₁]
    · have hlt : x.natAbs < v.natAbs := by omega
      rw [resolve_drive_of_gt h₁, hunk hw h₂, resolve_drive_of_gt hlt, resolve_comm ⟨v, v⟩,
        hun hw hv]
      simp only [h₁, if_true]
    · rw [resolve_drive_of_gt h₁, resolve_drive_of_gt h₂, resolve_drive_of_gt h₁,
        resolve_drive_of_gt (h₂.trans h₁)]

/-! ## Sets of values -/

/-- A set of drives and the way ranges sit around each of them. Opposite drives of one
strength resolve to a range, which has to be welcome around every stronger drive. -/
structure Surroundings (D : Set Int) (mode : Int → Mode) : Prop where
  /-- HiZ is no drive. -/
  nonzero : ∀ v ∈ D, v ≠ 0
  /-- Where both drives of a strength occur, ranges sit within. -/
  opposite : ∀ v ∈ D, -v ∈ D → ∀ w ∈ D, v.natAbs ≤ w.natAbs → mode w = .within

/-- HiZ, the drives, and the ranges that sit around all drives as required. -/
def members (D : Set Int) (mode : Int → Mode) : Set Range :=
  {a | a = ⟨0, 0⟩ ∨ (∃ v ∈ D, a = ⟨v, v⟩) ∨ a.lo < a.hi ∧ ∀ v ∈ D, Sits (mode v) v a}

section Members

variable {D : Set Int} {mode : Int → Mode} (hD : Surroundings D mode)
include hD

private theorem mem_drive_drive {v w : Int} (hv : v ∈ D) (hw : w ∈ D) :
    resolve ⟨v, v⟩ ⟨w, w⟩ ∈ members D mode := by
  rcases lt_trichotomy v.natAbs w.natAbs with hlt | heq | hgt
  · rw [resolve_drive_of_lt hlt]
    exact Or.inr (Or.inl ⟨w, hw, rfl⟩)
  · rcases Int.natAbs_eq_natAbs_iff.mp heq with rfl | hneg
    · rw [resolve_drive_self]
      exact Or.inr (Or.inl ⟨v, hv, rfl⟩)
    · obtain rfl : w = -v := by omega
      have hv0 := hD.nonzero v hv
      rw [resolve_drive_neg hv0]
      refine Or.inr (Or.inr ⟨by simp only; omega, ?_⟩)
      intro x hx
      by_cases hle : v.natAbs ≤ x.natAbs
      · rw [hD.opposite v hv hw x hx hle]
        simp only [Sits, Inside, Crosses]
        split_ifs <;> omega
      · have hcross : Crosses x ⟨-v.natAbs, v.natAbs⟩ := by
          simp only [Crosses]
          split_ifs <;> omega
        cases mode x with
        | within => exact Or.inr hcross
        | aside => exact Or.inl hcross
        | outside => exact Or.inl (by simp only; omega)
  · rw [resolve_drive_of_gt hgt]
    exact Or.inr (Or.inl ⟨v, hv, rfl⟩)

private theorem mem_drive_range {v : Int} {a : Range} (hv : v ∈ D) (hlt : a.lo < a.hi)
    (ha : ∀ v ∈ D, Sits (mode v) v a) : resolve ⟨v, v⟩ a ∈ members D mode := by
  have hv0 := hD.nonzero v hv
  have hns := (ha v hv).not_split hlt
  have hopp : ∀ x ∈ D, x = -v → mode x = .within := fun x hx hxv =>
    hD.opposite v hv (hxv ▸ hx) x hx (by omega)
  rw [resolve_drive_range hv0 hlt]
  by_cases hends : sweep v a.lo = v ∧ sweep v a.hi = v
  · rw [hends.1, hends.2]
    exact Or.inr (Or.inl ⟨v, hv, rfl⟩)
  · have hsw : ∀ x ∈ D, sweep v a.lo < sweep v a.hi ∧ Sits (mode x) x ⟨sweep v a.lo, sweep v a.hi⟩ :=
      fun x hx => ((ha x hx).swept hlt hns (hopp x hx)).resolve_left hends
    exact Or.inr (Or.inr ⟨(hsw v hv).1, fun x hx => (hsw x hx).2⟩)

omit hD in
private theorem mem_range_range {a b : Range} (hla : a.lo < a.hi) (hlb : b.lo < b.hi)
    (ha : ∀ v ∈ D, Sits (mode v) v a) (hb : ∀ v ∈ D, Sits (mode v) v b) :
    resolve a b ∈ members D mode := by
  rw [resolve_range_range hla hlb]
  refine Or.inr (Or.inr ⟨by simp only; omega, ?_⟩)
  intro v hv
  exact (ha v hv).join (hb v hv) hla hlb

private theorem assoc_drives_range {v w : Int} {a : Range} (hv : v ∈ D) (hw : w ∈ D)
    (hla : a.lo < a.hi) (ha : ∀ v ∈ D, Sits (mode v) v a) :
    resolve ⟨v, v⟩ (resolve ⟨w, w⟩ a) = resolve (resolve ⟨v, v⟩ ⟨w, w⟩) a := by
  refine (ha v hv).assoc_drives (ha w hw) (hD.nonzero v hv) (hD.nonzero w hw) hla ?_
  rintro rfl
  have hneg : - -w ∈ D := by simpa using hw
  exact ⟨hD.opposite _ hv hneg _ hv (le_refl _), hD.opposite _ hv hneg w hw (by omega)⟩

private theorem assoc_drive_ranges {v : Int} {a b : Range} (hv : v ∈ D) (hla : a.lo < a.hi)
    (ha : ∀ v ∈ D, Sits (mode v) v a) (hlb : b.lo < b.hi) (hb : ∀ v ∈ D, Sits (mode v) v b) :
    resolve a (resolve ⟨v, v⟩ b) = resolve ⟨v, v⟩ (resolve a b) :=
  (ha v hv).left_comm_range (hb v hv) (hD.nonzero v hv) hla hlb

private theorem members_assoc {a b c : Range} (ha : a ∈ members D mode)
    (hb : b ∈ members D mode) (hc : c ∈ members D mode) :
    resolve (resolve a b) c = resolve a (resolve b c) := by
  rcases ha with rfl | ⟨v, hv, rfl⟩ | ⟨hla, ha⟩
  · simp
  · rcases hb with rfl | ⟨w, hw, rfl⟩ | ⟨hlb, hb⟩
    · simp
    · rcases hc with rfl | ⟨x, hx, rfl⟩ | ⟨hlc, hc⟩
      · simp
      · exact resolve_drives_assoc (hD.nonzero v hv) (hD.nonzero w hw) (hD.nonzero x hx)
      · exact (assoc_drives_range hD hv hw hlc hc).symm
    · rcases hc with rfl | ⟨x, hx, rfl⟩ | ⟨hlc, hc⟩
      · simp
      · rw [resolve_comm _ ⟨x, x⟩, assoc_drives_range hD hx hv hlb hb, resolve_comm ⟨x, x⟩,
          ← assoc_drives_range hD hv hx hlb hb, resolve_comm b]
      · rw [resolve_comm _ c, assoc_drive_ranges hD hv hlc hc hlb hb, resolve_comm c]
  · rcases hb with rfl | ⟨w, hw, rfl⟩ | ⟨hlb, hb⟩
    · simp
    · rcases hc with rfl | ⟨x, hx, rfl⟩ | ⟨hlc, hc⟩
      · simp
      · rw [resolve_comm _ ⟨x, x⟩, resolve_comm a, assoc_drives_range hD hx hw hla ha,
          resolve_comm ⟨x, x⟩, resolve_comm a]
      · rw [resolve_comm _ c, resolve_comm a, assoc_drive_ranges hD hw hlc hc hla ha,
          assoc_drive_ranges hD hw hla ha hlc hc, resolve_comm c]
    · rcases hc with rfl | ⟨x, hx, rfl⟩ | ⟨hlc, hc⟩
      · simp
      · rw [resolve_comm _ ⟨x, x⟩, ← assoc_drive_ranges hD hx hla ha hlb hb, resolve_comm b]
      · rw [resolve_range_range hla hlb, resolve_range_range hlb hlc,
          resolve_range_range (by omega) hlc, resolve_range_range hla (by omega), min_assoc,
          max_assoc]

/-- On such a set of values resolution is commutative and associative. -/
theorem Surroundings.resolves : Resolves resolve (members D mode) where
  closed a ha b hb := by
    rcases ha with rfl | ⟨v, hv, rfl⟩ | ⟨hla, ha⟩
    · simpa using hb
    · rcases hb with rfl | ⟨w, hw, rfl⟩ | ⟨hlb, hb⟩
      · rw [resolve_hiz_right]
        exact Or.inr (Or.inl ⟨v, hv, rfl⟩)
      · exact mem_drive_drive hD hv hw
      · exact mem_drive_range hD hv hlb hb
    · rcases hb with rfl | ⟨w, hw, rfl⟩ | ⟨hlb, hb⟩
      · rw [resolve_hiz_right]
        exact Or.inr (Or.inr ⟨hla, ha⟩)
      · rw [resolve_comm]
        exact mem_drive_range hD hw hla ha
      · exact mem_range_range hla hlb ha hb
  comm a _ b _ := resolve_comm a b
  assoc _ ha _ hb _ hc := members_assoc hD ha hb hc

end Members

/-! ## Where the order matters -/

/-- Three values whose resolution depends on the order of the last two. -/
def OrderMatters (S : Set Range) : Prop :=
  ∃ a ∈ S, ∃ b ∈ S, ∃ c ∈ S, resolve (resolve a b) c ≠ resolve (resolve a c) b

/-- The range lies on the opposite side of the drive and is nowhere weaker. -/
def Opposes (v : Int) (a : Range) : Prop :=
  if v < 0 then -v ≤ a.lo else a.hi ≤ -v

private theorem kinds (v : Int) (a : Range) :
    Inside v a ∨ Crosses v a ∨ Beyond v a ∨ Opposes v a ∨ Split v a := by
  unfold Inside Crosses Beyond Opposes Split
  split_ifs <;> omega

private theorem resolve_unswept {v : Int} {a : Range} (hv : v ≠ 0) (hlt : a.lo < a.hi)
    (h : Beyond v a ∨ Opposes v a) : resolve ⟨v, v⟩ a = a := by
  rw [resolve_drive_range hv hlt]
  unfold Beyond Opposes at h
  unfold sweep
  ext
  · simp only
    split_ifs at h ⊢ <;> omega
  · simp only
    split_ifs at h ⊢ <;> omega

private theorem order_of_split {v : Int} {a : Range} (hv : v ≠ 0) (hlt : a.lo < a.hi)
    (h : Split v a) :
    resolve (resolve a ⟨v, v⟩) a ≠ resolve (resolve a a) ⟨v, v⟩ := by
  have hends : (sweep v a.lo = a.lo ∧ sweep v a.hi = v ∧ a.lo < v ∧ v < a.hi) ∨
      (sweep v a.lo = v ∧ sweep v a.hi = a.hi ∧ v < a.hi ∧ a.lo < v) := by
    unfold Split at h
    unfold sweep
    split_ifs at h ⊢ <;> omega
  have hlt' : sweep v a.lo < sweep v a.hi := by omega
  rw [resolve_range_drive hv hlt, resolve_range_range hlt' hlt, resolve_range_range hlt hlt,
    min_self, max_self, resolve_range_drive hv hlt]
  intro he
  have hlo := congrArg Range.lo he
  have hhi := congrArg Range.hi he
  simp only at hlo hhi
  omega

private theorem order_of_inside {v : Int} {a b : Range} (hv : v ≠ 0) (hla : a.lo < a.hi)
    (hlb : b.lo < b.hi) (ha : Inside v a) (hb : Beyond v b ∨ Opposes v b) :
    resolve (resolve ⟨v, v⟩ a) b ≠ resolve (resolve ⟨v, v⟩ b) a := by
  have hends : sweep v a.lo = v ∧ sweep v a.hi = v := by
    unfold Inside at ha
    unfold sweep
    split_ifs at ha ⊢ <;> omega
  rw [resolve_drive_range hv hla, hends.1, hends.2, resolve_unswept hv hlb hb,
    resolve_range_range hlb hla]
  intro he
  have hlo := congrArg Range.lo he
  have hhi := congrArg Range.hi he
  unfold Inside at ha
  unfold Beyond Opposes at hb
  simp only at hlo hhi
  split_ifs at ha hb <;> omega

private theorem order_of_crosses {v : Int} {a b : Range} (hv : v ≠ 0) (hla : a.lo < a.hi)
    (hlb : b.lo < b.hi) (ha : Crosses v a) (hna : ¬ Outside v a) (hb : Opposes v b) :
    resolve (resolve ⟨v, v⟩ a) b ≠ resolve (resolve ⟨v, v⟩ b) a := by
  have hends : (sweep v a.lo = v ∧ v < a.lo ∧ a.lo < b.lo ∧ v < sweep v a.hi) ∨
      (sweep v a.hi = v ∧ a.hi < v ∧ b.hi < a.hi ∧ sweep v a.lo < v) := by
    unfold Crosses at ha
    unfold Outside at hna
    unfold Opposes at hb
    unfold sweep
    split_ifs at ha hb ⊢ <;> omega
  have hlt : sweep v a.lo < sweep v a.hi := by omega
  rw [resolve_drive_range hv hla, resolve_range_range hlt hlb,
    resolve_unswept hv hlb (Or.inr hb), resolve_range_range hlb hla]
  intro he
  have hlo := congrArg Range.lo he
  have hhi := congrArg Range.hi he
  simp only at hlo hhi
  omega

private theorem order_of_opposite {v : Int} {a : Range} (hv : v ≠ 0) (hlt : a.lo < a.hi)
    (h : Beyond v a ∨ Opposes v a) :
    resolve (resolve ⟨v, v⟩ ⟨-v, -v⟩) a ≠ resolve (resolve ⟨v, v⟩ a) ⟨-v, -v⟩ := by
  have hneg : Beyond (-v) a ∨ Opposes (-v) a := by
    unfold Beyond Opposes at h ⊢
    split_ifs at h ⊢ <;> omega
  have hx : (-v.natAbs : Int) < v.natAbs := by omega
  rw [resolve_drive_neg hv, resolve_unswept hv hlt h, resolve_comm a,
    resolve_unswept (by omega) hlt hneg, resolve_range_range hx hlt]
  intro he
  have hlo := congrArg Range.lo he
  have hhi := congrArg Range.hi he
  unfold Beyond Opposes at h
  simp only at hlo hhi
  split_ifs at h <;> omega

/-- Ranges that do not all sit around a drive in one of the ways make the order matter. -/
theorem orderMatters_of_not_sits {S : Set Range} {v : Int} (hv : v ≠ 0) (hS : ⟨v, v⟩ ∈ S)
    (h : ∀ m, ∃ a ∈ S, a.lo < a.hi ∧ ¬ Sits m v a) : OrderMatters S := by
  have hsplit : ∀ a ∈ S, a.lo < a.hi → Split v a → OrderMatters S := fun a ha hla hs =>
    ⟨a, ha, _, hS, a, ha, order_of_split hv hla hs⟩
  obtain ⟨a, ha, hla, hwithin⟩ := h .within
  obtain ⟨b, hb, hlb, haside⟩ := h .aside
  obtain ⟨c, hc, hlc, houtside⟩ := h .outside
  have hfar : Beyond v a ∨ Opposes v a ∨ Split v a := by
    rcases kinds v a with hk | hk | hk
    · exact absurd (Or.inl hk) hwithin
    · exact absurd (Or.inr hk) hwithin
    · exact hk
  have hinside : ∀ x ∈ S, x.lo < x.hi → Inside v x → OrderMatters S := by
    intro x hx hlx hin
    rcases hfar with hk | hk | hk
    · exact ⟨_, hS, x, hx, a, ha, order_of_inside hv hlx hla hin (Or.inl hk)⟩
    · exact ⟨_, hS, x, hx, a, ha, order_of_inside hv hlx hla hin (Or.inr hk)⟩
    · exact hsplit a ha hla hk
  have hnear : Inside v b ∨ Opposes v b ∨ Split v b := by
    rcases kinds v b with hk | hk | hk | hk
    · exact Or.inl hk
    · exact absurd (Or.inl hk) haside
    · exact absurd (Or.inr hk) haside
    · exact Or.inr hk
  rcases hnear with hk | hk | hk
  · exact hinside b hb hlb hk
  · rcases kinds v c with hk' | hk' | hk' | hk' | hk'
    · exact hinside c hc hlc hk'
    · exact ⟨_, hS, c, hc, b, hb, order_of_crosses hv hlc hlb hk' houtside hk⟩
    · refine absurd ?_ houtside
      unfold Beyond at hk'
      simp only [Sits, Outside]
      split_ifs at hk' <;> omega
    · refine absurd ?_ houtside
      unfold Opposes at hk'
      simp only [Sits, Outside]
      split_ifs at hk' <;> omega
    · exact hsplit c hc hlc hk'
  · exact hsplit b hb hlb hk

/-- Next to two opposite drives a range that does not sit within makes the order matter. -/
theorem orderMatters_of_opposite {S : Set Range} {v : Int} (hv : v ≠ 0) (hS : ⟨v, v⟩ ∈ S)
    (hS' : ⟨-v, -v⟩ ∈ S) {a : Range} (ha : a ∈ S) (hlt : a.lo < a.hi)
    (h : ¬ Sits .within v a) : OrderMatters S := by
  rcases kinds v a with hk | hk | hk | hk | hk
  · exact absurd (Or.inl hk) h
  · exact absurd (Or.inr hk) h
  · exact ⟨_, hS, _, hS', a, ha, order_of_opposite hv hlt (Or.inl hk)⟩
  · exact ⟨_, hS, _, hS', a, ha, order_of_opposite hv hlt (Or.inr hk)⟩
  · exact ⟨a, ha, _, hS, a, ha, order_of_split hv hlt hk⟩

end Range

end Icarus.Vvp.Resolv
