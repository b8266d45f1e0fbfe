import Icarus.Core.Circular
import Icarus.Vpi.Queue.Base
import Mathlib.Algebra.Order.BigOperators.Group.List

/-!
# Queues and their histories

What a queue is for: a bounded list of jobs, from which the first or the last is
taken, and a record of the calls from which the statistics are defined. The array
with its head and its counters follows the list and the record; only a sum of head
and length that 32 bits do not hold, or a counter that is full, stops it.
-/

namespace Icarus.Vpi.Queue

open Icarus.Core

/-! ## The list and the record -/

/-- A call at a time. -/
inductive Call
  /-- `$q_add`. -/
  | add (cTime : BitVec 64) (job inform : Vecval)
  /-- `$q_remove`. -/
  | remove (cTime : BitVec 64)

/-- The time of a call. -/
def Call.time : Call → BitVec 64
  | .add cTime _ _ => cTime
  | .remove cTime => cTime

/-- What a call tells. -/
inductive Answer
  /-- Whether the queue was full. -/
  | added (full : Bool)
  /-- The job and its inform, unless the queue was empty. -/
  | removed (job : Option (Vecval × Vecval))
  deriving DecidableEq

/-- The jobs that wait, the one added first at the front, and what was recorded. -/
structure History where
  /-- The jobs that wait. -/
  queue : List Elem
  /-- The times of the jobs added. -/
  adds : List (BitVec 64)
  /-- How long the jobs removed have waited. -/
  waits : List Nat
  /-- The lengths that the list has had. -/
  lengths : List Nat

/-- Nothing is added yet. -/
def History.start : History := ⟨[], [], [], [0]⟩

/-- The job that leaves next, and the jobs that stay. -/
def QueueType.next : QueueType → List Elem → Option (Elem × List Elem)
  | _, [] => none
  | .fifo, e :: rest => some (e, rest)
  | .lifo, e :: rest => some ((e :: rest).getLast (List.cons_ne_nil e rest), (e :: rest).dropLast)

/-- A job comes to the end of the list. -/
def History.added (h : History) (e : Elem) : History :=
  { queue := h.queue ++ [e], adds := h.adds ++ [e.time], waits := h.waits
    lengths := h.lengths ++ [h.queue.length + 1] }

/-- A job leaves the list, and others stay. -/
def History.removed (h : History) (cTime : BitVec 64) (e : Elem) (rest : List Elem) : History :=
  { queue := rest, adds := h.adds, waits := h.waits ++ [cTime.toNat - e.time.toNat]
    lengths := h.lengths ++ [rest.length] }

/-- A call on a bounded list: a job is refused exactly if the list is full, and none leaves exactly
if it is empty. -/
def History.step (type : QueueType) (length : Nat) (h : History) : Call → Answer × History
  | .add cTime job inform =>
    if h.queue.length = length then (.added true, h)
    else (.added false, h.added ⟨cTime, job, inform⟩)
  | .remove cTime =>
    match type.next h.queue with
    | none => (.removed none, h)
    | some (e, rest) => (.removed (some (e.job, e.inform)), h.removed cTime e rest)

/-! ## The statistics -/

/-- The largest length. -/
def History.maxLength (h : History) : Nat := h.lengths.foldl max 0

theorem History.maxLength_added (h : History) (e : Elem) :
    (h.added e).maxLength = max h.maxLength (h.queue.length + 1) := by
  rw [maxLength, added, List.foldl_append]
  rfl

theorem History.maxLength_removed (h : History) (cTime : BitVec 64) (e : Elem)
    (rest : List Elem) : (h.removed cTime e rest).maxLength = max h.maxLength rest.length := by
  rw [maxLength, removed, List.foldl_append]
  rfl

/-- How long the jobs in the list have waited. -/
def History.pending (h : History) (cTime : BitVec 64) : List Nat :=
  h.queue.map fun e => cTime.toNat - e.time.toNat

/-- The times between the jobs added. -/
def History.gaps (h : History) : List Nat :=
  List.zipWith (fun earlier later => later.toNat - earlier.toNat) h.adds h.adds.tail

/-- The mean of some times, without its fraction. -/
def mean (times : List Nat) : Nat := times.sum / times.length

/-! ## The array follows the list -/

/-- Where the first job of the list is. -/
def headOf (type : QueueType) (length : Nat) (h : History) : Nat :=
  match type with
  | .fifo => h.waits.length % length
  | .lifo => 0

/-- The array holds the list and the counters the record. -/
structure Tracks (type : QueueType) (length : Nat) (b : Base) (h : History) (now : BitVec 64) :
    Prop where
  /-- The type stays. -/
  type_eq : b.type = type
  /-- The length stays. -/
  length_eq : b.length = length
  /-- There is a cell. -/
  pos : 0 < length
  /-- The length is a `PLI_INT32`. -/
  bound : length < 2 ^ 31
  /-- The head. -/
  head : b.head = headOf type length h
  /-- The number of elements. -/
  elems : b.elems = h.queue.length
  /-- There are no more than cells. -/
  le : h.queue.length ≤ length
  /-- The elements. -/
  cells : Circular.contents b.queue length (headOf type length h) h.queue.length =
    h.queue.map some
  /-- The largest length. -/
  maxLen : b.maxLen = h.maxLength
  /-- It is between the length of the list and that of the array. -/
  peak : h.queue.length ≤ h.maxLength ∧ h.maxLength ≤ length
  /-- The number of jobs added. -/
  adds : b.numberOfAdds.toNat = h.adds.length
  /-- When the first was added. -/
  first : ∀ t ∈ h.adds.head?, b.firstAddTime = t
  /-- When the last was added. -/
  latest : ∀ t ∈ h.adds.getLast?, b.latestAddTime = t
  /-- The times do not decrease. -/
  sorted : (h.adds ++ [now]).Pairwise (· ≤ ·)
  /-- Neither do those of the jobs in the list. -/
  times : (h.queue.map Elem.time ++ [now]).Pairwise (· ≤ ·)
  /-- The jobs added were removed or wait. -/
  count : h.waits.length + h.queue.length = h.adds.length
  /-- A wait is a difference of times. -/
  waits : ∀ w ∈ h.waits, w < 2 ^ 64
  /-- The sum of the waits. -/
  total : wideNumber b.waitTimeHigh b.waitTimeLow = h.waits.sum
  /-- The shortest wait. -/
  shortest : h.waits = [] ∧ b.shortestWaitTime = BitVec.allOnes 64 ∨
    b.shortestWaitTime.toNat ∈ h.waits ∧ ∀ w ∈ h.waits, b.shortestWaitTime.toNat ≤ w
  /-- Whether there is one. -/
  known : b.haveShortest = !h.waits.isEmpty

/-- What stops a call: the sum of head and length, or a full counter. -/
def Base.Room (b : Base) : Call → Prop
  | .add _ _ _ => b.elems < b.length →
    (b.type = .fifo → b.head + b.elems < 2 ^ 31) ∧ b.numberOfAdds < BitVec.allOnes 64
  | .remove _ => True

instance (b : Base) : DecidablePred b.Room
  | .add _ _ _ => inferInstanceAs (Decidable (_ → _ ∧ _))
  | .remove _ => inferInstanceAs (Decidable True)

/-- A call on the array. -/
def Base.step (b : Base) : Call → Option (Answer × Base)
  | .add cTime job inform => (b.addToQueue cTime job inform).map fun r => (.added r.1, r.2)
  | .remove cTime => (b.removeFromQueue cTime).map fun r => (.removed r.1, r.2)

section Tracks

variable {type : QueueType} {length : Nat} {b b' : Base} {h : History} {now cTime : BitVec 64}

/-- An array as it is created. -/
theorem Tracks.start (type : QueueType) (hpos : 0 < length) (hbound : length < 2 ^ 31)
    (now : BitVec 64) : Tracks type length (createQueue type length) History.start now where
  type_eq := rfl
  length_eq := rfl
  pos := hpos
  bound := hbound
  head := by cases type <;> simp [createQueue, headOf, History.start]
  elems := rfl
  le := Nat.zero_le _
  cells := rfl
  maxLen := rfl
  peak := ⟨Nat.le_refl _, Nat.zero_le _⟩
  adds := rfl
  first := by simp [History.start]
  latest := by simp [History.start]
  sorted := List.pairwise_singleton _ _
  times := List.pairwise_singleton _ _
  count := rfl
  waits := by simp [History.start]
  total := by simp [createQueue, wideNumber, History.start]
  shortest := .inl ⟨rfl, rfl⟩
  known := rfl

/-- The head is a cell. -/
theorem Tracks.headOf_lt (hT : Tracks type length b h now) : headOf type length h < length := by
  cases type with
  | fifo => exact Nat.mod_lt _ hT.pos
  | lifo => exact hT.pos

/-- A list of times that ends later. -/
private theorem pairwise_later {times : List (BitVec 64)} (h : (times ++ [now]).Pairwise (· ≤ ·))
    (hle : now ≤ cTime) : (times ++ [cTime]).Pairwise (· ≤ ·) := by
  rw [List.pairwise_append] at h ⊢
  obtain ⟨hbefore, -, hlast⟩ := h
  refine ⟨hbefore, List.pairwise_singleton _ _, fun t ht u hu => ?_⟩
  rw [List.mem_singleton] at hu
  exact hu ▸ BitVec.le_trans (hlast t ht now List.mem_cons_self) hle

/-- A list of times that goes on. -/
private theorem pairwise_again {times : List (BitVec 64)}
    (h : (times ++ [cTime]).Pairwise (· ≤ ·)) :
    (times ++ [cTime] ++ [cTime]).Pairwise (· ≤ ·) := by
  rw [List.pairwise_append]
  refine ⟨h, List.pairwise_singleton _ _, fun t ht u hu => ?_⟩
  rw [List.mem_singleton] at hu
  rcases List.mem_append.mp ht with ht | ht
  · exact hu ▸ (List.pairwise_append.mp h).2.2 t ht cTime List.mem_cons_self
  · exact (List.mem_singleton.mp ht).trans hu.symm ▸ BitVec.le_refl _

/-- Time passes. -/
theorem Tracks.later (hT : Tracks type length b h now) (hle : now ≤ cTime) :
    Tracks type length b h cTime :=
  { hT with
    sorted := pairwise_later hT.sorted hle
    times := pairwise_later hT.times hle }

/-- The cell behind the list is the one that is written. -/
theorem Tracks.addLoc_eq (hT : Tracks type length b h now) (hlt : h.queue.length < length) :
    b.addLoc.bind b.cell = if type = .fifo → b.head + b.elems < 2 ^ 31 then
      some (Circular.index length (headOf type length h) h.queue.length) else none := by
  have hhead := hT.headOf_lt
  have hbound := hT.bound
  have hindex := Circular.index_lt hhead hlt
  have hcell : b.cell (Circular.index length (headOf type length h) h.queue.length : Nat) =
      some (Circular.index length (headOf type length h) h.queue.length) := by
    rw [Base.cell, if_pos ⟨Int.natCast_nonneg _, by rw [hT.length_eq]; omega⟩, Int.toNat_natCast]
  rw [Base.addLoc, hT.type_eq]
  cases type with
  | lifo =>
    have hzero : b.head = 0 := hT.head
    have hplace : b.elems = (Circular.index length (headOf .lifo length h) h.queue.length : Nat) := by
      rw [hT.elems, headOf, Circular.index_zero_left hlt]
    dsimp only
    rw [if_pos hzero, if_pos (fun hfifo => absurd hfifo (by decide)), Option.bind_some, hplace, hcell]
  | fifo =>
    dsimp only
    by_cases hsum : b.head + b.elems < 2 ^ 31
    · have hlow : -2 ^ 31 ≤ b.head + b.elems := by
        rw [hT.head, hT.elems]
        omega
      have hplace : (if b.head + b.elems ≥ b.length then int32 (b.head + b.elems - b.length)
          else some (b.head + b.elems)) =
          some ((Circular.index length (headOf .fifo length h) h.queue.length : Nat) : Int) := by
        rw [hT.head, hT.elems, hT.length_eq, Circular.index]
        split_ifs with h₁ h₂ h₂
        · rw [int32_eq (by omega) (by omega)]
          congr 1
          omega
        · omega
        · omega
        · rfl
      rw [int32_eq hlow hsum, Option.bind_some, hplace, if_pos fun _ => hsum, Option.bind_some, hcell]
    · rw [int32, if_neg fun hin => hsum hin.2, if_neg fun himp => hsum (himp rfl), Option.bind_none,
        Option.bind_none]

/-- The array after a job is added. -/
def Base.added (b : Base) (cell : Nat) (e : Elem) : Base :=
  { b with
    elems := b.elems + 1
    queue := Function.update b.queue cell (some e)
    maxLen := max b.maxLen (b.elems + 1)
    numberOfAdds := b.numberOfAdds + 1
    firstAddTime := if b.numberOfAdds + 1 = 1 then e.time else b.firstAddTime
    latestAddTime := e.time }

/-- A queue that is not full takes a job if nothing stops it. -/
theorem Tracks.addToQueue_eq (hT : Tracks type length b h now) (hlt : h.queue.length < length)
    (cTime : BitVec 64) (job inform : Vecval) : b.addToQueue cTime job inform =
      if b.Room (.add cTime job inform) then
        some (false, b.added (Circular.index length (headOf type length h) h.queue.length)
          ⟨cTime, job, inform⟩)
      else none := by
  have hbound := hT.bound
  have helems : b.elems < b.length := by
    rw [hT.elems, hT.length_eq]
    omega
  have hroom : b.Room (.add cTime job inform) ↔
      (type = .fifo → b.head + b.elems < 2 ^ 31) ∧ b.numberOfAdds < BitVec.allOnes 64 := by
    rw [← hT.type_eq]
    exact ⟨fun hr => hr helems, fun hr _ => hr⟩
  have hmax : b.addMaxLen = some (max b.maxLen (b.elems + 1)) := by
    have hpeak := hT.peak
    rw [Base.addMaxLen, hT.maxLen, hT.elems]
    split_ifs with hsame
    · rw [int32_eq (by omega) (by omega), hsame]
      congr 1
      omega
    · congr 1
      omega
  have hsucc : int32 (b.elems + 1) = some (b.elems + 1) := by
    rw [hT.elems]
    exact int32_eq (by omega) (by omega)
  rw [Base.addToQueue, if_neg (by omega), if_neg (by omega), hsucc, hmax, hT.addLoc_eq hlt]
  simp only [Option.bind_eq_bind, Option.bind_some]
  by_cases hsum : type = .fifo → b.head + b.elems < 2 ^ 31
  · rw [if_pos hsum, Option.bind_some]
    by_cases hcount : b.numberOfAdds < BitVec.allOnes 64
    · rw [if_pos hcount, if_pos (hroom.mpr ⟨hsum, hcount⟩)]
      rfl
    · rw [if_neg hcount, if_neg fun hr => hcount (hroom.mp hr).2]
  · rw [if_neg hsum, if_neg fun hr => hsum (hroom.mp hr).1, Option.bind_none]

/-- A job is added to the list. -/
theorem Tracks.added {e : Elem} (hT : Tracks type length b h e.time)
    (hlt : h.queue.length < length) (hcount : b.numberOfAdds < BitVec.allOnes 64) :
    Tracks type length
      (b.added (Circular.index length (headOf type length h) h.queue.length) e) (h.added e)
      e.time := by
  have hadds : (b.numberOfAdds + 1).toNat = b.numberOfAdds.toNat + 1 := by
    have hone : (1 : BitVec 64).toNat = 1 := rfl
    rw [BitVec.lt_def, BitVec.toNat_allOnes] at hcount
    rw [BitVec.toNat_add, hone]
    omega
  have hqueue : (h.added e).queue = h.queue ++ [e] := rfl
  have hlist : (h.added e).adds = h.adds ++ [e.time] := rfl
  have hlength : (h.added e).queue.length = h.queue.length + 1 := by
    rw [hqueue, List.length_append, List.length_singleton]
  refine
    { type_eq := hT.type_eq, length_eq := hT.length_eq, pos := hT.pos, bound := hT.bound
      head := hT.head
      elems := ?_, le := ?_, cells := ?_, maxLen := ?_, peak := ?_, adds := ?_, first := ?_
      latest := ?_
      sorted := pairwise_again hT.sorted, times := ?_, count := ?_
      waits := hT.waits, total := hT.total, shortest := hT.shortest, known := hT.known }
  · rw [hlength, Base.added, hT.elems, Nat.cast_succ]
  · rw [hlength]
    exact hlt
  · rw [hlength, hqueue, List.map_append, ← hT.cells]
    exact Circular.contents_update _ hlt
  · rw [History.maxLength_added, Base.added, hT.maxLen, hT.elems]
    dsimp only
    omega
  · have hpeak := hT.peak
    rw [History.maxLength_added, hlength]
    omega
  · rw [hlist, List.length_append, List.length_singleton, ← hT.adds]
    exact hadds
  · have hlen := hT.adds
    intro t ht
    rw [Base.added]
    rw [hlist] at ht
    cases hsome : h.adds with
    | nil =>
      rw [hsome] at ht hlen
      have hone : b.numberOfAdds + 1 = 1 := BitVec.eq_of_toNat_eq (by rw [hadds, hlen]; rfl)
      rw [if_pos hone]
      exact Option.some_inj.mp ht
    | cons first rest =>
      rw [hsome] at ht hlen
      have hmore : ¬ b.numberOfAdds + 1 = 1 := by
        intro hone
        rw [hone, hlen, List.length_cons] at hadds
        exact absurd hadds (by simp)
      rw [if_neg hmore]
      exact hT.first t (by rw [hsome]; exact ht)
  · intro t ht
    rw [hlist, List.getLast?_append, List.getLast?_singleton, Option.some_or] at ht
    exact Option.some_inj.mp ht
  · rw [hqueue, List.map_append]
    exact pairwise_again hT.times
  · have hsum := hT.count
    have hwaits : (h.added e).waits = h.waits := rfl
    rw [hlength, hlist, List.length_append, List.length_singleton, hwaits]
    omega

/-- The first job leaves. -/
theorem QueueType.next_fifo {jobs rest : List Elem} {e : Elem} :
    QueueType.fifo.next jobs = some (e, rest) ↔ jobs = e :: rest := by
  cases jobs <;> simp [QueueType.next]

/-- The last job leaves. -/
theorem QueueType.next_lifo {jobs rest : List Elem} {e : Elem} :
    QueueType.lifo.next jobs = some (e, rest) ↔ jobs = rest ++ [e] := by
  cases jobs with
  | nil => simp [QueueType.next]
  | cons first others =>
    rw [QueueType.next, Option.some_inj, Prod.mk.injEq]
    constructor
    · rintro ⟨rfl, rfl⟩
      exact (List.dropLast_append_getLast _).symm
    · intro h
      simp [h]

/-- No job leaves an empty list. -/
theorem QueueType.next_eq_none {jobs : List Elem} : type.next jobs = none ↔ jobs = [] := by
  cases jobs <;> cases type <;> simp [QueueType.next]

/-- The list without the job that leaves. -/
theorem QueueType.next_perm {jobs rest : List Elem} {e : Elem} (h : type.next jobs = some (e, rest)) :
    jobs.length = rest.length + 1 ∧ e ∈ jobs ∧ rest.Sublist jobs := by
  cases type with
  | fifo =>
    rw [QueueType.next_fifo.mp h]
    exact ⟨rfl, List.mem_cons_self, List.sublist_cons_self e rest⟩
  | lifo =>
    rw [QueueType.next_lifo.mp h]
    exact ⟨List.length_append, List.mem_append_right _ List.mem_cons_self,
      List.sublist_append_left rest [e]⟩

/-- A cell of the array is read. -/
theorem Tracks.load_eq (hT : Tracks type length b h now) {loc : Nat} (hloc : loc < length) :
    b.load loc = b.queue loc := by
  rw [Base.load, Base.cell, if_pos ⟨Int.natCast_nonneg _, by rw [hT.length_eq]; omega⟩,
    Int.toNat_natCast, Option.bind_some]

/-- The cell that is read holds the job that leaves, and the others hold those that stay. -/
theorem Tracks.removeLoc_eq {e : Elem} {rest : List Elem} (hT : Tracks type length b h now)
    (hnext : type.next h.queue = some (e, rest)) (cTime : BitVec 64) :
    ∃ loc : Nat, b.removeLoc (b.elems - 1) =
        some ((loc : Int), (headOf type length (h.removed cTime e rest) : Int)) ∧
      b.load loc = some e ∧
      Circular.contents b.queue length (headOf type length (h.removed cTime e rest))
        rest.length = rest.map some := by
  obtain ⟨hlen, -, -⟩ := QueueType.next_perm hnext
  have hle := hT.le
  have hbound := hT.bound
  have hhead := hT.headOf_lt
  have hcells := hT.cells
  rw [hlen] at hcells hle
  have hload : ∀ loc : Nat, loc < length → b.load loc = b.queue loc := fun loc => hT.load_eq
  cases type with
  | fifo =>
    rw [QueueType.next_fifo.mp hnext, List.map_cons, Circular.contents_cons hhead (by omega)] at hcells
    have hsplit := List.cons_eq_cons.mp hcells
    have hmove : headOf .fifo length (h.removed cTime e rest) =
        Circular.advance length (headOf .fifo length h) := by
      rw [headOf, headOf, Circular.advance_mod hT.pos, History.removed, List.length_append]
      rfl
    refine ⟨headOf .fifo length h, ?_, (hload _ hhead).trans hsplit.1, by rw [hmove]; exact hsplit.2⟩
    rw [Base.removeLoc, hT.type_eq, hmove]
    dsimp only
    rw [hT.head, int32_eq (by omega) (by omega), Option.bind_some, hT.length_eq, Circular.advance]
    congr 2
    split_ifs with h₁ h₂ h₂
    · rfl
    · omega
    · omega
    · exact (Nat.cast_succ _).symm
  | lifo =>
    have hsame : headOf .lifo length (h.removed cTime e rest) = 0 := rfl
    have hzero : headOf .lifo length h = 0 := rfl
    rw [QueueType.next_lifo.mp hnext, List.map_append, hzero, Circular.contents_succ] at hcells
    obtain ⟨hrest, hlast⟩ := List.append_inj hcells (by simp)
    rw [Circular.index_zero_left (by omega)] at hlast
    refine ⟨rest.length, ?_, (hload _ (by omega)).trans (List.cons_eq_cons.mp hlast).1, ?_⟩
    · rw [Base.removeLoc, hT.type_eq]
      dsimp only
      have hnone : b.head = 0 := hT.head
      rw [if_pos hnone, hnone, hsame, hT.elems, hlen]
      congr 2
      omega
    · rw [hsame]
      exact hrest

/-- A sum of times is bounded by their number. -/
theorem sum_times_le {times : List Nat} (h : ∀ w ∈ times, w < 2 ^ 64) :
    times.sum ≤ times.length * (2 ^ 64 - 1) := by
  have hle := List.sum_le_card_nsmul times (2 ^ 64 - 1) fun w hw => by
    have hlt := h w hw
    omega
  rwa [Nat.nsmul_eq_mul] at hle

/-- Nothing is removed from an empty queue. -/
theorem Tracks.removeFromQueue_empty (hT : Tracks type length b h now) (hnil : h.queue = [])
    (cTime : BitVec 64) : b.removeFromQueue cTime = some (none, b) := by
  have helems : b.elems = 0 := by
    rw [hT.elems, hnil]
    rfl
  rw [Base.removeFromQueue, helems]
  rfl

/-- The array after a job is removed. -/
def Base.removed (b : Base) (head : Int) (wait : BitVec 64) (sum : BitVec 64 × BitVec 64) : Base :=
  { b with
    elems := b.elems - 1
    head := head
    shortestWaitTime := if wait < b.shortestWaitTime then wait else b.shortestWaitTime
    haveShortest := true
    waitTimeHigh := sum.1
    waitTimeLow := sum.2 }

/-- The shortest wait is still the shortest. -/
private theorem Tracks.shortest_removed (hT : Tracks type length b h now) (wait : BitVec 64) :
    (if wait < b.shortestWaitTime then wait else b.shortestWaitTime).toNat ∈
        h.waits ++ [wait.toNat] ∧
      ∀ w ∈ h.waits ++ [wait.toNat],
        (if wait < b.shortestWaitTime then wait else b.shortestWaitTime).toNat ≤ w := by
  have hmax := wait.isLt
  simp only [List.mem_append, List.mem_singleton]
  split_ifs with hlt <;> rw [BitVec.lt_def] at hlt <;>
    rcases hT.shortest with ⟨hnil, hall⟩ | ⟨hmem, hleast⟩
  · rw [hnil]
    refine ⟨.inr rfl, fun w hw => ?_⟩
    rcases hw with hw | rfl
    · exact absurd hw List.not_mem_nil
    · exact Nat.le_refl _
  · refine ⟨.inr rfl, fun w hw => ?_⟩
    rcases hw with hw | rfl
    · exact Nat.le_trans hlt.le (hleast w hw)
    · exact Nat.le_refl _
  · rw [hall, BitVec.toNat_allOnes] at hlt ⊢
    rw [hnil]
    refine ⟨.inr (by omega), fun w hw => ?_⟩
    rcases hw with hw | rfl
    · exact absurd hw List.not_mem_nil
    · omega
  · refine ⟨.inl hmem, fun w hw => ?_⟩
    rcases hw with hw | rfl
    · exact hleast w hw
    · omega

/-- The job that leaves the list is removed from a queue that is not empty. -/
theorem Tracks.removeFromQueue_eq {e : Elem} {rest : List Elem}
    (hT : Tracks type length b h cTime) (hnext : type.next h.queue = some (e, rest)) :
    ∃ b', b.removeFromQueue cTime = some (some (e.job, e.inform), b') ∧
      Tracks type length b' (h.removed cTime e rest) cTime := by
  obtain ⟨hlen, hmem, hsub⟩ := QueueType.next_perm hnext
  obtain ⟨loc, hloc, hload, hcells⟩ := hT.removeLoc_eq hnext cTime
  have hbound := hT.bound
  have hle := hT.le
  have htime : e.time ≤ cTime :=
    (List.pairwise_append.mp hT.times).2.2 _ (List.mem_map_of_mem hmem) _ List.mem_cons_self
  have hwait : (cTime - e.time).toNat = cTime.toNat - e.time.toNat := BitVec.toNat_sub_of_le htime
  obtain ⟨sum, hsum, htotal⟩ := @addToWaitTime_spec b.waitTimeHigh b.waitTimeLow (cTime - e.time)
    (by
      have hwaits := sum_times_le hT.waits
      have hlt := (cTime - e.time).isLt
      have hcount := hT.count
      have hadds := hT.adds
      have hmax := b.numberOfAdds.isLt
      have hmul := Nat.mul_le_mul_right (2 ^ 64 - 1) (show h.waits.length ≤ 2 ^ 64 - 1 by omega)
      rw [hT.total]
      omega)
  rw [hT.total, hwait] at htotal
  refine ⟨b.removed (headOf type length (h.removed cTime e rest)) (cTime - e.time) sum, ?_, ?_⟩
  · rw [Base.removeFromQueue, hT.elems, int32_eq (by omega) (by omega)]
    rw [hT.elems] at hloc
    simp only [Option.bind_eq_bind, Option.bind_some]
    rw [if_neg (by omega), if_neg (by omega), hloc]
    simp only [Option.bind_some]
    rw [hload, Option.bind_some, if_neg (BitVec.not_lt.mpr htime), hsum, Base.removed, hT.elems]
    rfl
  · have hwaits : (h.removed cTime e rest).waits = h.waits ++ [(cTime - e.time).toNat] := by
      rw [hwait]
      rfl
    refine
      { type_eq := hT.type_eq, length_eq := hT.length_eq, pos := hT.pos, bound := hT.bound
        head := rfl, elems := ?_, le := ?_, cells := hcells, maxLen := ?_, peak := ?_
        adds := hT.adds, first := hT.first, latest := hT.latest, sorted := hT.sorted, times := ?_
        count := ?_, waits := ?_, total := ?_, shortest := ?_, known := ?_ }
    · rw [Base.removed, hT.elems, hlen, Nat.cast_succ]
      exact Int.add_sub_cancel _ _
    · have hqueue : (h.removed cTime e rest).queue = rest := rfl
      rw [hqueue]
      omega
    · have hpeak := hT.peak
      rw [History.maxLength_removed, Base.removed, hT.maxLen]
      congr 1
      omega
    · have hpeak := hT.peak
      rw [History.maxLength_removed]
      have hqueue : (h.removed cTime e rest).queue = rest := rfl
      rw [hqueue]
      omega
    · exact hT.times.sublist ((hsub.map Elem.time).append_right [cTime])
    · have hcount := hT.count
      have hadds : (h.removed cTime e rest).adds = h.adds := rfl
      have hqueue : (h.removed cTime e rest).queue = rest := rfl
      rw [hwaits, hadds, hqueue, List.length_append, List.length_singleton]
      omega
    · rw [hwaits]
      intro w hw
      rcases List.mem_append.mp hw with hw | hw
      · exact hT.waits w hw
      · rw [List.mem_singleton.mp hw]
        exact (cTime - e.time).isLt
    · rw [hwaits, List.sum_append, List.sum_singleton, hwait]
      exact htotal
    · rw [hwaits]
      exact .inr (hT.shortest_removed (cTime - e.time))
    · rw [hwaits, Base.removed]
      simp

end Tracks

end Icarus.Vpi.Queue
