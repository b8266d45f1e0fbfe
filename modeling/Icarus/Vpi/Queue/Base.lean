import Icarus.Vpi.Queue.Average

/-!
# The queues of `$q_add` and `$q_remove`

A queue is an array of jobs with a head and a number of elements, in first-in or
last-in order, beside the statistics that are kept for it. The fields of type
`PLI_INT32` are integers; a sum that 32 bits do not hold is undefined, as is an
index that the array does not have or a cell that was never set.
-/

namespace Icarus.Vpi.Queue

/-- The two queue types. -/
inductive QueueType
  /-- `IVL_QUEUE_FIFO`. -/
  | fifo
  /-- `IVL_QUEUE_LIFO`. -/
  | lifo
  deriving DecidableEq

/-- `s_vpi_vecval`. -/
structure Vecval where
  /-- `aval`. -/
  aval : BitVec 32
  /-- `bval`. -/
  bval : BitVec 32
  deriving DecidableEq

/-- `s_ivl_queue_elem`. -/
structure Elem where
  /-- `time`: when the element was added. -/
  time : BitVec 64
  /-- `job`. -/
  job : Vecval
  /-- `inform`. -/
  inform : Vecval
  deriving DecidableEq

/-- `s_ivl_queue_base`. -/
structure Base where
  /-- `shortest_wait_time`. -/
  shortestWaitTime : BitVec 64
  /-- `first_add_time`. -/
  firstAddTime : BitVec 64
  /-- `latest_add_time`. -/
  latestAddTime : BitVec 64
  /-- `wait_time_high`. -/
  waitTimeHigh : BitVec 64
  /-- `wait_time_low`. -/
  waitTimeLow : BitVec 64
  /-- `number_of_adds`. -/
  numberOfAdds : BitVec 64
  /-- `queue`; a cell that was never set has no value. -/
  queue : Nat → Option Elem
  /-- `length`. -/
  length : Int
  /-- `type`. -/
  type : QueueType
  /-- `head`. -/
  head : Int
  /-- `elems`. -/
  elems : Int
  /-- `max_len`. -/
  maxLen : Int
  /-- `have_shortest_statistic`. -/
  haveShortest : Bool

/-- A result of type `PLI_INT32`. -/
def int32 (n : Int) : Option Int := if -2 ^ 31 ≤ n ∧ n < 2 ^ 31 then some n else none

theorem int32_eq {n : Int} (hlow : -2 ^ 31 ≤ n) (hhigh : n < 2 ^ 31) : int32 n = some n :=
  if_pos ⟨hlow, hhigh⟩

/-- The place of an index in the array. -/
def Base.cell (b : Base) (loc : Int) : Option Nat :=
  if 0 ≤ loc ∧ loc < b.length then some loc.toNat else none

/-- The element at an index. -/
def Base.load (b : Base) (loc : Int) : Option Elem := (b.cell loc).bind b.queue

/-- `create_queue`, when there is memory. -/
def createQueue (type : QueueType) (length : Int) : Base :=
  { shortestWaitTime := BitVec.allOnes 64, firstAddTime := 0, latestAddTime := 0
    waitTimeHigh := 0, waitTimeLow := 0, numberOfAdds := 0, queue := fun _ => none
    length := length, type := type, head := 0, elems := 0, maxLen := 0, haveShortest := false }

/-! ## Adding and removing -/

/-- Where `add_to_queue` puts an element. -/
def Base.addLoc (b : Base) : Option Int :=
  match b.type with
  | .lifo => if b.head = 0 then some b.elems else none
  | .fifo => (int32 (b.head + b.elems)).bind fun loc =>
    if loc ≥ b.length then int32 (loc - b.length) else some loc

/-- The largest length, incremented if needed. -/
def Base.addMaxLen (b : Base) : Option Int :=
  if b.maxLen = b.elems then int32 (b.maxLen + 1) else some b.maxLen

/-- `add_to_queue` at a time; true is told where the queue is full. It fails where an assertion
does. -/
def Base.addToQueue (b : Base) (cTime : BitVec 64) (job inform : Vecval) : Option (Bool × Base) :=
  if b.length < b.elems then none
  else if b.elems = b.length then some (true, b)
  else do
    let elems ← int32 (b.elems + 1)
    let cell ← b.addLoc.bind b.cell
    let maxLen ← b.addMaxLen
    if b.numberOfAdds < BitVec.allOnes 64 then
      let numberOfAdds := b.numberOfAdds + 1
      some (false, { b with
        elems := elems
        queue := Function.update b.queue cell (some ⟨cTime, job, inform⟩)
        maxLen := maxLen
        numberOfAdds := numberOfAdds
        firstAddTime := if numberOfAdds = 1 then cTime else b.firstAddTime
        latestAddTime := cTime })
    else none

/-- Where `remove_from_queue` takes an element, and the head after it. -/
def Base.removeLoc (b : Base) (elems : Int) : Option (Int × Int) :=
  match b.type with
  | .lifo => if b.head = 0 then some (elems, b.head) else none
  | .fifo => (int32 (b.head + 1)).bind fun next =>
    some (b.head, if next = b.length then 0 else next)

/-- `remove_from_queue` at a time; no element is told where the queue is empty. It fails where an
assertion does. -/
def Base.removeFromQueue (b : Base) (cTime : BitVec 64) :
    Option (Option (Vecval × Vecval) × Base) := do
  let elems ← int32 (b.elems - 1)
  if elems < -1 then none
  else if elems < 0 then some (none, b)
  else
    let (loc, head) ← b.removeLoc elems
    let elem ← b.load loc
    if cTime < elem.time then none
    else
      let wait := cTime - elem.time
      let (high, low) ← addToWaitTime b.waitTimeHigh b.waitTimeLow wait
      some (some (elem.job, elem.inform), { b with
        elems := elems
        head := head
        shortestWaitTime := if wait < b.shortestWaitTime then wait else b.shortestWaitTime
        haveShortest := true
        waitTimeHigh := high
        waitTimeLow := low })

/-! ## The statistics -/

/-- `get_current_queue_length`. -/
def Base.getCurrentQueueLength (b : Base) : Int := b.elems

/-- `get_maximum_queue_length`. -/
def Base.getMaximumQueueLength (b : Base) : Int := b.maxLen

/-- `get_longest_queue_time`. -/
def Base.getLongestQueueTime (b : Base) (cTime : BitVec 64) : Option (BitVec 64) :=
  (b.load b.head).bind fun elem => if cTime < elem.time then none else some (cTime - elem.time)

/-- `have_interarrival_statistic`. -/
def Base.haveInterarrivalStatistic (b : Base) : Bool := b.numberOfAdds ≥ 2

/-- `get_mean_interarrival_time`. -/
def Base.getMeanInterarrivalTime (b : Base) : Option (BitVec 64) :=
  if b.numberOfAdds - 1 = 0 then none
  else some ((b.latestAddTime - b.firstAddTime) / (b.numberOfAdds - 1))

/-- `have_shortest_wait_statistic`. -/
def Base.haveShortestWaitStatistic (b : Base) : Bool := b.haveShortest

/-- `get_shortest_wait_time`. -/
def Base.getShortestWaitTime (b : Base) : BitVec 64 := b.shortestWaitTime

/-- `have_average_wait_statistic`. -/
def Base.haveAverageWaitStatistic (b : Base) : Bool := b.numberOfAdds ≥ 1

/-- The loop of `get_average_wait_time`: the waits of so many elements are added. -/
def Base.addWaits (b : Base) (cTime : BitVec 64) :
    Nat → Int → BitVec 64 × BitVec 64 → Option (BitVec 64 × BitVec 64)
  | 0, _, sum => some sum
  | count + 1, loc, sum => do
    let elem ← b.load loc
    if cTime < elem.time then none
    else
      let sum ← addToWaitTime sum.1 sum.2 (cTime - elem.time)
      let loc ← int32 (loc + 1)
      b.addWaits cTime count (if loc = b.length then 0 else loc) sum

/-- The two words that `get_average_wait_time` divides. -/
def Base.totalWaitTime (b : Base) (cTime : BitVec 64) : Option (BitVec 64 × BitVec 64) :=
  b.addWaits cTime b.elems.toNat b.head (b.waitTimeHigh, b.waitTimeLow)

/-- `get_average_wait_time`. -/
def Base.getAverageWaitTime (b : Base) (cTime : BitVec 64) : Option (BitVec 64) :=
  (b.totalWaitTime cTime).bind fun sum => calcAverageWaitTime sum.1 sum.2 b.numberOfAdds

end Icarus.Vpi.Queue
