import Icarus.Netlist.NexusSet

/-!
# Runs of calls on sets

Calls on named sets, beside the sets of bits that they stand for. As long as no
two different parts of the sets that a call looks at share bits, the sets of bits
follow.
-/

namespace Icarus.Netlist

open Icarus.Core

/-- The calls on sets. -/
inductive SetCall (ι N : Type)
  /-- `add` of a part to a set. -/
  | add (i : ι) (that : N) (base wid : BitVec 32)
  /-- `add` of a set to a set. -/
  | addSet (i j : ι)
  /-- `rem` of a set from a set. -/
  | rem (i j : ι)
  /-- `contains`: whether a set contains another. -/
  | contains (i j : ι)
  /-- `intersect`. -/
  | intersect (i j : ι)

namespace SetCall

variable {ι N : Type} [DecidableEq ι] [DecidableEq N]

/-- The sets after a call. -/
def sets (sets : ι → NexusSet N) : SetCall ι N → ι → NexusSet N
  | add i that base wid => Function.update sets i ((sets i).add that base wid)
  | addSet i j => Netlist.addSet sets i j
  | rem i j => remSet sets i j
  | contains _ _ => sets
  | intersect _ _ => sets

/-- The answer of a question; other calls give none. -/
def answer (sets : ι → NexusSet N) : SetCall ι N → Option Bool
  | contains i j => some ((sets i).contains (sets j))
  | intersect i j => some ((sets i).intersect (sets j))
  | _ => none

/-- A call as a step. -/
def step (s : ι → NexusSet N) (c : SetCall ι N) : Option (ι → NexusSet N) := some (c.sets s)

/-! ## Sets of bits -/

/-- The sets of bits after a call. -/
def bits (A : ι → Set (N × Nat)) : SetCall ι N → ι → Set (N × Nat)
  | add i that base wid => Function.update A i (A i ∪ Elem.pairs ⟨that, base, wid⟩)
  | addSet i j => Function.update A i (A i ∪ A j)
  | rem i j => Function.update A i (A i \ A j)
  | contains _ _ => A
  | intersect _ _ => A

/-- An answer is that of the sets of bits. -/
def Answers (A : ι → Set (N × Nat)) (answer : Bool) : SetCall ι N → Prop
  | contains i j => answer = true ↔ A j ⊆ A i
  | intersect i j => answer = true ↔ (A i ∩ A j).Nonempty
  | _ => True

/-- A call does on the sets what it should on the bits that they cover. -/
def Right (s : ι → NexusSet N) (c : SetCall ι N) : Prop :=
  (fun i => (c.sets s i).pairs) = c.bits (fun i => (s i).pairs) ∧
    ∀ b ∈ c.answer s, c.Answers (fun i => (s i).pairs) b

/-- The parts of the sets of a call do not overlap so that it matters. -/
def Clear (s : ι → NexusSet N) : SetCall ι N → Prop
  | add _ _ _ _ => True
  | addSet _ _ => True
  | rem i j =>
    if i = j then ∀ e ∈ everySecond (s i).items, e.wid = 0
    else ∀ e ∈ (s i).items, e ∈ (s j).items ∨ Disjoint e.pairs (s j).pairs
  | contains i j =>
    (∀ e ∈ (s i).items, e.Fits) ∧ (∀ e ∈ (s j).items, e.Fits) ∧
      ((s j).pairs ⊆ (s i).pairs → ∀ e ∈ (s j).items, ∃ that ∈ (s i).items, e.Within that)
  | intersect i j =>
    (((s i).pairs ∩ (s j).pairs).Nonempty → ∃ e ∈ (s i).items, e ∈ (s j).items) ∧
      ∀ e ∈ (s i).items, e ∈ (s j).items → e.wid = 0 → ((s i).pairs ∩ (s j).pairs).Nonempty

/-- The part that is added fits. -/
def Fits : SetCall ι N → Prop
  | add _ that base wid => Elem.Fits ⟨that, base, wid⟩
  | _ => True

/-! ## One call -/

section Step

variable {s : ι → NexusSet N} {c : SetCall ι N} {i j : ι} {t u v : NexusSet N}

end Step

/-! ## Runs -/

section Run

variable {s : ι → NexusSet N} {calls : List (SetCall ι N)}

end Run

end SetCall

end Icarus.Netlist
