import Icarus.Core.Loop
import Icarus.Core.Runs
import Mathlib.Algebra.GroupWithZero.Nat
import Mathlib.Data.List.InsertIdx

/-!
# Bounded queues

The queues of reals, of strings and of vectors have the same operations. Each is handed the bound,
which is 0 for a queue without one, and compares the size with it in its own way: some ask whether
there is room, others whether the queue is exactly full.
-/

namespace Icarus.Vvp

open Icarus.Core

/-- What `copy_elems` copies. -/
inductive CopySource (Elem : Type)
  /-- The queue itself. -/
  | self
  /-- Another queue or dynamic array, by what `get_word` gives for its elements. -/
  | other (elems : List Elem)

/-- The elements of what is copied, while the queue is changed. -/
def CopySource.elems {Elem : Type} (queue : List Elem) : CopySource Elem → List Elem
  | .self => queue
  | .other elems => elems

namespace BoundedQueue

variable {Elem : Type}

/-- `set_word`. -/
def setWord (queue : List Elem) (adr : Nat) (value : Elem) : List Elem :=
  if adr < queue.length then queue.set adr value else queue

/-- The elements with one more at the end, if there is room. -/
def pushIfRoom (queue : List Elem) (value : Elem) (maxSize : Nat) : List Elem :=
  if maxSize = 0 ∨ queue.length < maxSize then queue ++ [value] else queue

/-- The elements without the last, if the queue is full. -/
def popIfFull (queue : List Elem) (maxSize : Nat) : List Elem :=
  if maxSize ≠ 0 ∧ queue.length = maxSize then queue.dropLast else queue

/-- `set_word_max`. -/
def setWordMax (queue : List Elem) (adr : Nat) (value : Elem) (maxSize : Nat) : List Elem :=
  if adr = queue.length then pushIfRoom queue value maxSize else setWord queue adr value

/-- `insert`. -/
def insert (queue : List Elem) (idx : Nat) (value : Elem) (maxSize : Nat) : List Elem :=
  if idx > queue.length then queue
  else if idx = queue.length then pushIfRoom queue value maxSize
  else (popIfFull queue maxSize).insertIdx idx value

/-- `push_back`. -/
def pushBack (queue : List Elem) (value : Elem) (maxSize : Nat) : List Elem :=
  pushIfRoom queue value maxSize

/-- `push_front`. -/
def pushFront (queue : List Elem) (value : Elem) (maxSize : Nat) : List Elem :=
  value :: popIfFull queue maxSize

/-- `pop_back`; nothing for an empty queue. -/
def popBack (queue : List Elem) : Option (List Elem) :=
  if queue = [] then none else some queue.dropLast

/-- `pop_front`; nothing for an empty queue. -/
def popFront (queue : List Elem) : Option (List Elem) :=
  if queue = [] then none else some queue.tail

/-- `erase`; nothing where its assertion fails. -/
def erase (queue : List Elem) (idx : Nat) : Option (List Elem) :=
  if queue.length > idx then some (queue.eraseIdx idx) else none

/-- `erase_tail`; nothing where its assertion fails. -/
def eraseTail (queue : List Elem) (idx : Nat) : Option (List Elem) :=
  if queue.length ≥ idx then some (if queue.length > idx then queue.take idx else queue) else none

/-- One turn of the loop of `copy_elements`. -/
def copyWord (src : CopySource Elem) (maxSize : Nat) (queue : List Elem) (idx : Nat) :
    Option (List Elem) :=
  (src.elems queue)[idx]?.map fun value => setWordMax queue idx value maxSize

/-- The `copy_size` of `copy_elements`, an `unsigned`. -/
def copySize (srcSize maxSize : Nat) : Nat :=
  if srcSize < maxSize ∨ maxSize = 0 then srcSize % 2 ^ 32 else maxSize

/-- `copy_elems`. -/
def copyElems (queue : List Elem) (src : CopySource Elem) (maxSize : Nat) : Option (List Elem) :=
  let size := copySize (src.elems queue).length maxSize
  (if size < queue.length then eraseTail queue size else some queue).bind fun queue =>
    (List.range size).foldlM (copyWord src maxSize) queue

end BoundedQueue

/-- A call of an operation of a queue. -/
inductive QueueCall (Elem : Type)
  | pushBack (value : Elem)
  | pushFront (value : Elem)
  | insert (idx : BitVec 32) (value : Elem)
  | setWordMax (adr : BitVec 32) (value : Elem)
  | popBack
  | popFront
  | erase (idx : BitVec 32)
  | eraseTail (idx : BitVec 32)
  | copyElems (src : CopySource Elem)

namespace QueueCall

variable {Elem : Type}

/-- A call with a bound. -/
def step (maxSize : BitVec 32) (queue : List Elem) : QueueCall Elem → Option (List Elem)
  | pushBack value => some (BoundedQueue.pushBack queue value maxSize.toNat)
  | pushFront value => some (BoundedQueue.pushFront queue value maxSize.toNat)
  | insert idx value => some (BoundedQueue.insert queue idx.toNat value maxSize.toNat)
  | setWordMax adr value => some (BoundedQueue.setWordMax queue adr.toNat value maxSize.toNat)
  | popBack => BoundedQueue.popBack queue
  | popFront => BoundedQueue.popFront queue
  | erase idx => BoundedQueue.erase queue idx.toNat
  | eraseTail idx => BoundedQueue.eraseTail queue idx.toNat
  | copyElems src => BoundedQueue.copyElems queue src maxSize.toNat

end QueueCall

/-! ## The list that is meant -/

/-- The first elements of a list, as many as a bound admits. -/
def bounded {Elem : Type} (maxSize : Nat) (l : List Elem) : List Elem :=
  if maxSize = 0 then l else l.take maxSize

/-- A call on a list: what does not fit the bound is lost from the end. A list without the element
that is asked for admits no call. -/
def QueueCall.listStep {Elem : Type} (maxSize : BitVec 32) (l : List Elem) :
    QueueCall Elem → Option (List Elem)
  | pushBack value => some (bounded maxSize.toNat (l ++ [value]))
  | pushFront value => some (bounded maxSize.toNat (value :: l))
  | insert idx value => some (bounded maxSize.toNat (l.insertIdx idx.toNat value))
  | setWordMax adr value =>
    some (if adr.toNat = l.length then bounded maxSize.toNat (l ++ [value])
      else l.set adr.toNat value)
  | popBack => if l = [] then none else some l.dropLast
  | popFront => if l = [] then none else some l.tail
  | erase idx => if idx.toNat < l.length then some (l.eraseIdx idx.toNat) else none
  | eraseTail idx => if idx.toNat ≤ l.length then some (l.take idx.toNat) else none
  | copyElems src => some (bounded maxSize.toNat (src.elems l))

/-- The bound is kept. -/
def KeepsBound {Elem : Type} (maxSize : Nat) (l : List Elem) : Prop :=
  maxSize ≠ 0 → l.length ≤ maxSize

/-- Into a queue without a bound no more elements are copied than an `unsigned` counts. -/
def QueueCall.Counts {Elem : Type} (maxSize : BitVec 32) (queue : List Elem) :
    QueueCall Elem → Prop
  | copyElems src => maxSize = 0 → (src.elems queue).length < 2 ^ 32
  | _ => True

/-! ## One operation -/

namespace BoundedQueue

variable {Elem : Type} {queue : List Elem} {maxSize : Nat}

theorem length_bounded (maxSize : Nat) (l : List Elem) :
    KeepsBound maxSize (bounded maxSize l) := by
  intro hmax
  rw [bounded, if_neg hmax, List.length_take]
  exact Nat.min_le_left ..

theorem bounded_of_within (h : KeepsBound maxSize queue) : bounded maxSize queue = queue := by
  rw [bounded]
  split_ifs with hmax
  · rfl
  · exact List.take_of_length_le (h hmax)

theorem pushIfRoom_eq (h : KeepsBound maxSize queue) (value : Elem) :
    pushIfRoom queue value maxSize = bounded maxSize (queue ++ [value]) := by
  rw [pushIfRoom, bounded]
  by_cases hmax : maxSize = 0
  · rw [if_pos (.inl hmax), if_pos hmax]
  · have hle := h hmax
    rw [if_neg hmax]
    by_cases hroom : queue.length < maxSize
    · rw [if_pos (.inr hroom), List.take_of_length_le (by simp; omega)]
    · rw [if_neg (by omega), List.take_append_of_le_length (by omega),
        List.take_of_length_le (by omega)]

theorem popIfFull_eq (h : KeepsBound maxSize queue) :
    popIfFull queue maxSize = if maxSize = 0 then queue else queue.take (maxSize - 1) := by
  rw [popIfFull]
  by_cases hmax : maxSize = 0
  · rw [if_neg fun hfull => hfull.1 hmax, if_pos hmax]
  · have hle := h hmax
    rw [if_neg hmax]
    by_cases hfull : queue.length = maxSize
    · rw [if_pos ⟨hmax, hfull⟩, List.dropLast_eq_take, hfull]
    · rw [if_neg fun hboth => hfull hboth.2, List.take_of_length_le (by omega)]

theorem pushFront_eq (h : KeepsBound maxSize queue) (value : Elem) :
    pushFront queue value maxSize = bounded maxSize (value :: queue) := by
  rw [pushFront, popIfFull_eq h, bounded]
  by_cases hmax : maxSize = 0
  · rw [if_pos hmax, if_pos hmax]
  · obtain ⟨k, rfl⟩ := Nat.exists_eq_succ_of_ne_zero hmax
    rw [if_neg hmax, if_neg hmax, Nat.succ_sub_one, List.take_succ_cons]

/-- An element put into the first elements is one more of the first elements. -/
theorem insertIdx_take (l : List Elem) (value : Elem) {idx k : Nat} (hidx : idx ≤ k) :
    (l.take k).insertIdx idx value = (l.insertIdx idx value).take (k + 1) := by
  induction idx generalizing l k with
  | zero => rw [List.insertIdx_zero, List.insertIdx_zero, List.take_succ_cons]
  | succ idx ih =>
    obtain ⟨k, rfl⟩ := Nat.exists_eq_succ_of_ne_zero (Nat.ne_zero_of_lt hidx)
    cases l with
    | nil => simp
    | cons a l =>
      rw [List.take_succ_cons, List.insertIdx_succ_cons, List.insertIdx_succ_cons,
        List.take_succ_cons, ih l (Nat.le_of_succ_le_succ hidx)]

theorem insert_eq (h : KeepsBound maxSize queue) (idx : Nat) (value : Elem) :
    insert queue idx value maxSize = bounded maxSize (queue.insertIdx idx value) := by
  rw [insert]
  split_ifs with hpast hend
  · rw [List.insertIdx_of_length_lt hpast, bounded_of_within h]
  · rw [pushIfRoom_eq h, hend, List.insertIdx_length_self]
  · rw [popIfFull_eq h, bounded]
    by_cases hmax : maxSize = 0
    · rw [if_pos hmax, if_pos hmax]
    · have hle := h hmax
      obtain ⟨k, rfl⟩ := Nat.exists_eq_succ_of_ne_zero hmax
      rw [if_neg hmax, if_neg hmax, Nat.succ_sub_one, insertIdx_take _ _ (by omega)]

theorem setWordMax_eq (h : KeepsBound maxSize queue) (adr : Nat) (value : Elem) :
    setWordMax queue adr value maxSize =
      if adr = queue.length then bounded maxSize (queue ++ [value]) else queue.set adr value := by
  rw [setWordMax, setWord, pushIfRoom_eq h]
  split_ifs with hend hlt
  · rfl
  · rfl
  · rw [List.set_eq_of_length_le (Nat.not_lt.mp hlt)]

/-! ## Copies -/

theorem copySize_eq {srcSize : Nat} {maxSize : BitVec 32} (h : maxSize = 0 → srcSize < 2 ^ 32) :
    copySize srcSize maxSize.toNat =
      if maxSize.toNat = 0 then srcSize else min srcSize maxSize.toNat := by
  have hlt := maxSize.isLt
  have hzero : maxSize = 0 ↔ maxSize.toNat = 0 := by
    rw [← BitVec.toNat_inj]
    rfl
  rw [copySize]
  split_ifs with hless hmax hmax
  · rw [Nat.mod_eq_of_lt (h (hzero.mpr hmax))]
  · rw [Nat.mod_eq_of_lt (by omega), Nat.min_eq_left (by omega)]
  · omega
  · rw [Nat.min_eq_right (by omega)]

/-- The elements copied so far, before those of the queue that are still to be overwritten. -/
theorem copyWord_other {elems : List Elem} {size idx : Nat} (hidx : idx < size)
    (hsize : size ≤ elems.length) (hbound : maxSize = 0 ∨ size ≤ maxSize)
    (hqueue : queue.length ≤ size) :
    copyWord (.other elems) maxSize (elems.take idx ++ queue.drop idx) idx =
      some (elems.take (idx + 1) ++ queue.drop (idx + 1)) := by
  have hlen : (elems.take idx).length = idx := by
    rw [List.length_take]
    omega
  have htake : elems.take (idx + 1) = elems.take idx ++ [elems[idx]] := by
    rw [List.take_append_getElem]
  rw [copyWord, CopySource.elems, List.getElem?_eq_getElem (by omega), Option.map_some, setWordMax]
  rw [htake]
  by_cases hlt : idx < queue.length
  · rw [if_neg (by simp; omega), setWord, if_pos (by simp; omega),
      List.set_append_right _ _ (by omega), hlen, Nat.sub_self, List.drop_eq_getElem_cons hlt,
      List.set_cons_zero, List.append_assoc, List.singleton_append]
  · have hdrop : queue.drop idx = [] := List.drop_eq_nil_of_le (by omega)
    have hdrop' : queue.drop (idx + 1) = [] := List.drop_eq_nil_of_le (by omega)
    rw [hdrop, hdrop', List.append_nil, List.append_nil, if_pos hlen.symm, pushIfRoom,
      if_pos (by omega)]

/-- An element that is written over itself. -/
theorem copyWord_self {idx : Nat} (hidx : idx < queue.length) :
    copyWord .self maxSize queue idx = some queue := by
  rw [copyWord, CopySource.elems, List.getElem?_eq_getElem hidx, Option.map_some, setWordMax,
    if_neg (by omega), setWord, if_pos hidx, List.set_getElem_self]

theorem copyElems_eq {maxSize : BitVec 32} (src : CopySource Elem)
    (hcounts : maxSize = 0 → (src.elems queue).length < 2 ^ 32) :
    copyElems queue src maxSize.toNat = some (bounded maxSize.toNat (src.elems queue)) := by
  have hsize := copySize_eq hcounts
  have hbounded : bounded maxSize.toNat (src.elems queue) =
      (src.elems queue).take (copySize (src.elems queue).length maxSize.toNat) := by
    rw [hsize, bounded]
    split_ifs
    · rw [List.take_length]
    · rw [List.take_eq_take_min, Nat.min_comm]
  have hle : copySize (src.elems queue).length maxSize.toNat ≤ (src.elems queue).length := by
    rw [hsize]
    split_ifs
    · exact Nat.le_refl _
    · exact Nat.min_le_left ..
  have hroom : maxSize.toNat = 0 ∨
      copySize (src.elems queue).length maxSize.toNat ≤ maxSize.toNat := by
    rw [hsize]
    split_ifs with hmax
    · exact .inl hmax
    · exact .inr (Nat.min_le_right ..)
  rw [copyElems, hbounded]
  generalize copySize (src.elems queue).length maxSize.toNat = size at hle hroom
  have herase : (if size < queue.length then eraseTail queue size else some queue) =
      some (queue.take size) := by
    split_ifs with hlt
    · rw [eraseTail, if_pos (Nat.le_of_lt hlt), if_pos hlt]
    · rw [List.take_of_length_le (Nat.not_lt.mp hlt)]
  rw [herase, Option.bind_some]
  cases src with
  | self =>
    exact Loop.foldlM_range (fun _ => queue.take size) fun i hi =>
      copyWord_self (by rw [List.length_take]; exact Nat.lt_min.mpr ⟨hi, Nat.lt_of_lt_of_le hi hle⟩)
  | other elems =>
    have hcopy := Loop.foldlM_range (fun i => elems.take i ++ (queue.take size).drop i)
      fun i hi => copyWord_other hi hle hroom (List.length_take_le ..)
    rw [List.take_zero, List.nil_append, List.drop_zero] at hcopy
    rw [hcopy, List.drop_eq_nil_of_le (List.length_take_le ..), List.append_nil]
    rfl

end BoundedQueue

/-! ## The results -/

namespace QueueCall

variable {Elem : Type} {maxSize : BitVec 32} {queue queue' : List Elem} {call : QueueCall Elem}

/-- A call on a queue that keeps the bound is a call on the list. -/
theorem step_eq (h : KeepsBound maxSize.toNat queue) (hcounts : call.Counts maxSize queue) :
    call.step maxSize queue = call.listStep maxSize queue := by
  cases call with
  | pushBack value => exact congrArg some (BoundedQueue.pushIfRoom_eq h value)
  | pushFront value => exact congrArg some (BoundedQueue.pushFront_eq h value)
  | insert idx value => exact congrArg some (BoundedQueue.insert_eq h idx.toNat value)
  | setWordMax adr value => exact congrArg some (BoundedQueue.setWordMax_eq h adr.toNat value)
  | popBack => rfl
  | popFront => rfl
  | erase idx => rfl
  | eraseTail idx =>
    rw [step, listStep, BoundedQueue.eraseTail]
    by_cases hle : idx.toNat ≤ queue.length
    · rw [if_pos hle, if_pos hle]
      split_ifs with hlt
      · rfl
      · rw [List.take_of_length_le (Nat.not_lt.mp hlt)]
    · rw [if_neg hle, if_neg hle]
  | copyElems src => exact BoundedQueue.copyElems_eq src hcounts

theorem KeepsBound.mono {max : Nat} {l l' : List Elem} (h : KeepsBound max l)
    (hle : l'.length ≤ l.length) : KeepsBound max l' := fun hmax => Nat.le_trans hle (h hmax)

/-- A call on a list keeps the bound. -/
theorem listStep_keepsBound (h : KeepsBound maxSize.toNat queue)
    (hstep : call.listStep maxSize queue = some queue') : KeepsBound maxSize.toNat queue' := by
  cases call with
  | pushBack value =>
    cases hstep
    exact BoundedQueue.length_bounded _ _
  | pushFront value =>
    cases hstep
    exact BoundedQueue.length_bounded _ _
  | insert idx value =>
    cases hstep
    exact BoundedQueue.length_bounded _ _
  | setWordMax adr value =>
    cases hstep
    split_ifs
    · exact BoundedQueue.length_bounded _ _
    · exact KeepsBound.mono h (Nat.le_of_eq (List.length_set ..))
  | popBack =>
    obtain ⟨-, heq⟩ := Option.ite_none_left_eq_some.mp hstep
    cases heq
    exact KeepsBound.mono h (by simp)
  | popFront =>
    obtain ⟨-, heq⟩ := Option.ite_none_left_eq_some.mp hstep
    cases heq
    exact KeepsBound.mono h (by simp)
  | erase idx =>
    obtain ⟨-, heq⟩ := Option.ite_none_right_eq_some.mp hstep
    cases heq
    exact KeepsBound.mono h (List.length_eraseIdx_le ..)
  | eraseTail idx =>
    obtain ⟨-, heq⟩ := Option.ite_none_right_eq_some.mp hstep
    cases heq
    exact KeepsBound.mono h (List.length_take_le' ..)
  | copyElems src =>
    cases hstep
    exact BoundedQueue.length_bounded _ _

end QueueCall

/-- A queue is the list at every time and keeps the bound, in every run in which no copy into a
queue without a bound has more elements than an `unsigned` counts. -/
theorem queue_right {Elem : Type} (maxSize : BitVec 32) {calls : List (QueueCall Elem)}
    (hcounts : Runs.Meets (QueueCall.step maxSize) (QueueCall.Counts maxSize) [] calls) :
    Runs.run (QueueCall.step maxSize) [] calls = Runs.run (QueueCall.listStep maxSize) [] calls ∧
      ∀ queue, Runs.run (QueueCall.step maxSize) [] calls = some queue →
        maxSize ≠ 0 → queue.length ≤ maxSize.toNat := by
  have hinit : KeepsBound maxSize.toNat ([] : List Elem) := fun _ => Nat.zero_le _
  have hstep : ∀ queue (call : QueueCall Elem) queue', KeepsBound maxSize.toNat queue →
      call.Counts maxSize queue → call.step maxSize queue = some queue' →
        KeepsBound maxSize.toNat queue' := by
    intro queue call queue' hwithin hcall hstep
    rw [QueueCall.step_eq hwithin hcall] at hstep
    exact QueueCall.listStep_keepsBound hwithin hstep
  refine ⟨Runs.run_congr (fun _ _ => QueueCall.step_eq) hstep hinit hcounts, ?_⟩
  intro queue hrun hmax
  apply Runs.invariant_of_meets hstep hinit hcounts hrun
  intro hzero
  exact hmax (BitVec.eq_of_toNat_eq hzero)

/-- A queue with a bound of 2 that is filled from both ends and copied over itself. -/
theorem queue_right_two :
    Runs.run (QueueCall.step 2) [] [.pushBack 1, .pushBack 2, .pushFront 0, .copyElems .self] =
      Runs.run (QueueCall.listStep 2) []
        [.pushBack 1, .pushBack 2, .pushFront 0, .copyElems .self] ∧
    ∀ queue : List Nat, Runs.run (QueueCall.step 2) []
        [.pushBack 1, .pushBack 2, .pushFront 0, .copyElems .self] = some queue →
      (2 : BitVec 32) ≠ 0 → queue.length ≤ (2 : BitVec 32).toNat := by
  apply queue_right
  refine ⟨trivial, fun _ _ => ⟨trivial, fun _ _ => ⟨trivial, fun _ _ => ⟨?_, fun _ _ => trivial⟩⟩⟩⟩
  exact fun hmax => absurd hmax (by decide)

/-- Of 2^32 elements none is copied into a queue without a bound. -/
theorem not_queue_right : ¬ ∀ calls : List (QueueCall Unit),
    Runs.run (QueueCall.step 0) [] calls = Runs.run (QueueCall.listStep 0) [] calls := by
  intro h
  have hrun := h [.copyElems (.other (List.replicate (2 ^ 32) ()))]
  have hsize : BoundedQueue.copySize (List.replicate (2 ^ 32) ()).length 0 = 0 := by
    rw [List.length_replicate]
    rfl
  have hcode : QueueCall.step 0 [] (.copyElems (.other (List.replicate (2 ^ 32) ()))) =
      some [] := by
    rw [QueueCall.step, BoundedQueue.copyElems, CopySource.elems]
    exact congrArg
      (fun n => (if n < 0 then BoundedQueue.eraseTail [] n else some []).bind fun queue =>
        (List.range n).foldlM
          (BoundedQueue.copyWord (.other (List.replicate (2 ^ 32) ())) 0) queue) hsize
  rw [Runs.run_cons, Runs.run_cons, hcode, QueueCall.listStep, Option.bind_some,
    Option.bind_some, Runs.run_nil, Runs.run_nil, Option.some.injEq] at hrun
  have hlen := congrArg List.length hrun
  have hzero : (0 : BitVec 32).toNat = 0 := rfl
  rw [CopySource.elems, bounded, if_pos hzero, List.length_replicate] at hlen
  exact absurd hlen (by decide)

end Icarus.Vvp
