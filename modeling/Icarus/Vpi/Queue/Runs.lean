import Icarus.Vpi.Queue.History
import Icarus.Core.Runs

/-!
# Statistics of a queue

What the statistical codes of `$q_exam` read from the counters is what is defined
from the record of the calls. The total of the waits never comes near the number
of jobs in its high word, so the average is a word.
-/

namespace Icarus.Vpi.Queue

open Icarus.Core

variable {type : QueueType} {length : Nat} {b : Base} {h : History} {now cTime : BitVec 64}

/-! ## Times between jobs -/

/-- The gaps between times that do not decrease add up to the time from the first to the last. -/
private theorem sum_gaps {last : BitVec 64} (times : List (BitVec 64)) (t : BitVec 64)
    (hsorted : (t :: times).Pairwise (· ≤ ·)) (hlast : (t :: times).getLast? = some last) :
    t ≤ last ∧
      (List.zipWith (fun earlier later : BitVec 64 => later.toNat - earlier.toNat) (t :: times)
        times).sum = last.toNat - t.toNat := by
  induction times generalizing t with
  | nil =>
    obtain rfl : t = last := Option.some_inj.mp hlast
    rw [List.zipWith_nil_right, List.sum_nil, Nat.sub_self]
    exact ⟨BitVec.le_refl t, rfl⟩
  | cons u times ih =>
    have hle : t ≤ u := List.rel_of_pairwise_cons hsorted List.mem_cons_self
    rw [List.getLast?_cons_cons] at hlast
    obtain ⟨hle', hsum⟩ := ih u (List.Pairwise.of_cons hsorted) hlast
    rw [List.zipWith_cons_cons, List.sum_cons, hsum]
    refine ⟨BitVec.le_trans hle hle', ?_⟩
    rw [BitVec.le_def] at hle hle'
    omega

/-- Whether there is a mean time between jobs. -/
theorem Tracks.haveInterarrivalStatistic_iff (hT : Tracks type length b h now) :
    b.haveInterarrivalStatistic = true ↔ 2 ≤ h.adds.length := by
  have htwo : (2 : BitVec 64).toNat = 2 := rfl
  rw [Base.haveInterarrivalStatistic, decide_eq_true_iff, ge_iff_le, BitVec.le_def, hT.adds, htwo]

/-- The mean time between jobs. -/
theorem Tracks.getMeanInterarrivalTime_eq (hT : Tracks type length b h now)
    (htwo : 2 ≤ h.adds.length) :
    ∃ t, b.getMeanInterarrivalTime = some t ∧ t.toNat = mean h.gaps := by
  have hadds := hT.adds
  have hone : (1 : BitVec 64).toNat = 1 := rfl
  have hcount : (b.numberOfAdds - 1).toNat = h.adds.length - 1 := by
    rw [BitVec.toNat_sub_of_le (by rw [BitVec.le_def]; omega), hadds, hone]
  have hne : b.numberOfAdds - 1 ≠ 0 := by
    intro hzero
    have hnat := congrArg BitVec.toNat hzero
    rw [hcount, show (0 : BitVec 64).toNat = 0 from rfl] at hnat
    omega
  obtain ⟨t, times, hlist⟩ : ∃ t times, h.adds = t :: times := by
    cases hlist : h.adds with
    | nil =>
      rw [hlist] at htwo
      exact absurd htwo (by simp)
    | cons t times => exact ⟨t, times, rfl⟩
  have hfirst := hT.first t (by rw [hlist]; rfl)
  have hlast := List.getLast?_cons (a := t) (l := times)
  have hlatest := hT.latest _ (by rw [hlist]; exact hlast)
  have hsorted := (List.pairwise_append.mp hT.sorted).1
  rw [hlist] at hsorted
  obtain ⟨hle, hsum⟩ := sum_gaps times t hsorted hlast
  refine ⟨_, if_neg hne, ?_⟩
  rw [BitVec.toNat_udiv, hcount, hfirst, hlatest, BitVec.toNat_sub_of_le hle, ← hsum, mean,
    History.gaps, hlist, List.tail_cons, List.length_zipWith, List.length_cons,
    Nat.min_eq_right (Nat.le_succ _), Nat.add_sub_cancel]

/-! ## Waits -/

/-- Whether there is a shortest wait. -/
theorem Tracks.haveShortestWaitStatistic_iff (hT : Tracks type length b h now) :
    b.haveShortestWaitStatistic = true ↔ h.waits ≠ [] := by
  rw [Base.haveShortestWaitStatistic, hT.known]
  simp

/-- The shortest wait. -/
theorem Tracks.getShortestWaitTime_eq (hT : Tracks type length b h now) (hne : h.waits ≠ []) :
    h.waits.min? = some b.getShortestWaitTime.toNat := by
  rcases hT.shortest with ⟨hnil, -⟩ | hleast
  · exact absurd hnil hne
  · exact List.min?_eq_some_iff.mpr hleast

/-- The longest wait of the jobs in the list is that of the first. -/
theorem Tracks.getLongestQueueTime_eq (hT : Tracks type length b h now) (hne : h.queue ≠ []) :
    ∃ t, b.getLongestQueueTime now = some t ∧ (h.pending now).max? = some t.toNat := by
  obtain ⟨e, rest, hjobs⟩ := List.exists_cons_of_ne_nil hne
  have hcells := hT.cells
  have htimes := hT.times
  have hle := hT.le
  rw [hjobs] at hcells htimes hle
  rw [List.length_cons] at hcells hle
  rw [List.map_cons, Circular.contents_cons hT.headOf_lt (by omega)] at hcells
  rw [List.map_cons, List.cons_append] at htimes
  have hload : b.load b.head = some e := by
    rw [hT.head, hT.load_eq hT.headOf_lt]
    exact (List.cons_eq_cons.mp hcells).1
  have hfirst : ∀ t ∈ rest.map Elem.time ++ [now], e.time ≤ t :=
    fun t ht => List.rel_of_pairwise_cons htimes ht
  have htime : e.time ≤ now := hfirst now (List.mem_append_right _ List.mem_cons_self)
  refine ⟨now - e.time, ?_, ?_⟩
  · rw [Base.getLongestQueueTime, hload, Option.bind_some, if_neg (BitVec.not_lt.mpr htime)]
  · rw [History.pending, hjobs, List.map_cons, BitVec.toNat_sub_of_le htime,
      List.max?_eq_some_iff]
    refine ⟨List.mem_cons_self, fun w hw => ?_⟩
    rcases List.mem_cons.mp hw with rfl | hw
    · exact Nat.le_refl _
    · obtain ⟨e', hmem, rfl⟩ := List.mem_map.mp hw
      have hlater := hfirst e'.time (List.mem_append_left _ (List.mem_map_of_mem hmem))
      rw [BitVec.le_def] at hlater
      omega

/-- The loop adds the waits of the jobs from a cell on. -/
private theorem Tracks.addWaits_eq (hT : Tracks type length b h now) {jobs : List Elem}
    {head : Nat} (sum : BitVec 64 × BitVec 64) (hhead : head < length)
    (hle : jobs.length ≤ length)
    (hcells : Circular.contents b.queue length head jobs.length = jobs.map some)
    (htimes : ∀ e ∈ jobs, e.time ≤ now)
    (hfits : wideNumber sum.1 sum.2 +
      (jobs.map fun e => now.toNat - e.time.toNat).sum < 2 ^ 128) :
    ∃ total, b.addWaits now jobs.length head sum = some total ∧
      wideNumber total.1 total.2 = wideNumber sum.1 sum.2 +
        (jobs.map fun e => now.toNat - e.time.toNat).sum := by
  induction jobs generalizing head sum with
  | nil => exact ⟨sum, rfl, by rw [List.map_nil, List.sum_nil, Nat.add_zero]⟩
  | cons e rest ih =>
    have htime : e.time ≤ now := htimes e List.mem_cons_self
    have hbound := hT.bound
    rw [List.length_cons] at hle
    rw [List.map_cons, List.length_cons, Circular.contents_cons hhead (by omega)] at hcells
    obtain ⟨hfirst, hrest⟩ := List.cons_eq_cons.mp hcells
    rw [List.map_cons, List.sum_cons] at hfits ⊢
    have hwait : (now - e.time).toNat = now.toNat - e.time.toNat := BitVec.toNat_sub_of_le htime
    obtain ⟨sum', hsum', hnumber⟩ := @addToWaitTime_spec sum.1 sum.2 (now - e.time) (by omega)
    rw [hwait] at hnumber
    obtain ⟨total, htotal, hresult⟩ := ih sum' (Circular.advance_lt hhead) (by omega) hrest
      (fun e' he' => htimes e' (List.mem_cons_of_mem e he')) (by omega)
    have hnext : (if (head : Int) + 1 = b.length then 0 else (head : Int) + 1) =
        (Circular.advance length head : Nat) := by
      rw [hT.length_eq, Circular.advance]
      split_ifs <;> omega
    refine ⟨total, ?_, by omega⟩
    rw [List.length_cons, Base.addWaits, hT.load_eq hhead, hfirst]
    simp only [Option.bind_eq_bind, Option.bind_some]
    rw [if_neg (BitVec.not_lt.mpr htime), hsum', Option.bind_some, int32_eq (by omega) (by omega),
      Option.bind_some, hnext, htotal]

/-- The total of the waits, and its high word. -/
theorem Tracks.totalWaitTime_eq (hT : Tracks type length b h now) :
    ∃ sum, b.totalWaitTime now = some sum ∧
      wideNumber sum.1 sum.2 = (h.waits ++ h.pending now).sum ∧
      (sum.1 = 0 ∨ sum.1 < b.numberOfAdds) := by
  have htimes : ∀ e ∈ h.queue, e.time ≤ now := fun e he =>
    (List.pairwise_append.mp hT.times).2.2 _ (List.mem_map_of_mem he) _ List.mem_cons_self
  have hsum : (h.waits ++ h.pending now).sum ≤ h.adds.length * (2 ^ 64 - 1) := by
    have hlen : (h.waits ++ h.pending now).length = h.adds.length := by
      rw [List.length_append, History.pending, List.length_map, hT.count]
    rw [← hlen]
    refine sum_times_le fun w hw => ?_
    rcases List.mem_append.mp hw with hw | hw
    · exact hT.waits w hw
    · obtain ⟨e, -, rfl⟩ := List.mem_map.mp hw
      have hlt := now.isLt
      omega
  have hadds := hT.adds
  have hmax := b.numberOfAdds.isLt
  rw [List.sum_append] at hsum ⊢
  obtain ⟨sum, hrun, hnumber⟩ := hT.addWaits_eq (b.waitTimeHigh, b.waitTimeLow)
    hT.headOf_lt hT.le hT.cells htimes (by
      rw [hT.total]
      rw [History.pending] at hsum
      omega)
  rw [hT.total] at hnumber
  refine ⟨sum, ?_, hnumber, ?_⟩
  · rw [Base.totalWaitTime, hT.elems, Int.toNat_natCast, hT.head, hrun]
  · rw [History.pending] at hsum
    rw [← hnumber, wideNumber] at hsum
    rcases Nat.eq_zero_or_pos sum.1.toNat with hzero | hpos
    · exact .inl (BitVec.eq_of_toNat_eq hzero)
    · right
      rw [BitVec.lt_def]
      omega

/-- Whether there is an average wait. -/
theorem Tracks.haveAverageWaitStatistic_iff (hT : Tracks type length b h now) :
    b.haveAverageWaitStatistic = true ↔ h.adds ≠ [] := by
  have hone : (1 : BitVec 64).toNat = 1 := rfl
  rw [Base.haveAverageWaitStatistic, decide_eq_true_iff, ge_iff_le, BitVec.le_def, hT.adds, hone,
    Nat.succ_le_iff, List.length_pos_iff]

/-- The average wait; jobs that wait count with the time they have waited. -/
theorem Tracks.getAverageWaitTime_eq (hT : Tracks type length b h now) (hne : h.adds ≠ []) :
    ∃ t, b.getAverageWaitTime now = some t ∧ t.toNat = mean (h.waits ++ h.pending now) := by
  obtain ⟨sum, hrun, hnumber, hhigh⟩ := hT.totalWaitTime_eq
  have hpos := List.length_pos_iff.mpr hne
  have hlt : sum.1 < b.numberOfAdds := by
    rcases hhigh with hzero | hlt
    · rw [hzero, BitVec.lt_def, hT.adds]
      exact hpos
    · exact hlt
  obtain ⟨t, ht, hresult⟩ := @calcAverageWaitTime_eq sum.1 sum.2 _ hlt
  refine ⟨t, by rw [Base.getAverageWaitTime, hrun, Option.bind_some, ht], ?_⟩
  rw [hresult, hnumber, hT.adds, mean, List.length_append, History.pending, List.length_map, hT.count]

/-! ## All statistics -/

/-- What the statistical codes of `$q_exam` read is what the record defines. -/
structure Base.Reports (b : Base) (h : History) (cTime : BitVec 64) : Prop where
  /-- `IVL_QUEUE_LENGTH`. -/
  current : b.getCurrentQueueLength = h.queue.length
  /-- `IVL_QUEUE_MAX_LENGTH`. -/
  maximum : b.getMaximumQueueLength = h.maxLength
  /-- Whether there is a shortest wait. -/
  haveShortest : b.haveShortestWaitStatistic = true ↔ h.waits ≠ []
  /-- `IVL_QUEUE_SHORTEST`. -/
  shortest : h.waits ≠ [] → h.waits.min? = some b.getShortestWaitTime.toNat
  /-- `IVL_QUEUE_LONGEST`. -/
  longest : h.queue ≠ [] → ∃ t, b.getLongestQueueTime cTime = some t ∧
    (h.pending cTime).max? = some t.toNat
  /-- Whether there is a mean time between jobs. -/
  haveInterarrival : b.haveInterarrivalStatistic = true ↔ 2 ≤ h.adds.length
  /-- `IVL_QUEUE_MEAN`. -/
  interarrival : 2 ≤ h.adds.length → ∃ t, b.getMeanInterarrivalTime = some t ∧
    t.toNat = mean h.gaps
  /-- Whether there is an average wait. -/
  haveAverage : b.haveAverageWaitStatistic = true ↔ h.adds ≠ []
  /-- `IVL_QUEUE_AVERAGE`. -/
  average : h.adds ≠ [] → ∃ t, b.getAverageWaitTime cTime = some t ∧
    t.toNat = mean (h.waits ++ h.pending cTime)

/-- The statistics of an array that follows the list. -/
theorem Tracks.reports (hT : Tracks type length b h now) : b.Reports h now where
  current := hT.elems
  maximum := hT.maxLen
  haveShortest := hT.haveShortestWaitStatistic_iff
  shortest := hT.getShortestWaitTime_eq
  longest := hT.getLongestQueueTime_eq
  haveInterarrival := hT.haveInterarrivalStatistic_iff
  interarrival := hT.getMeanInterarrivalTime_eq
  haveAverage := hT.haveAverageWaitStatistic_iff
  average := hT.getAverageWaitTime_eq

/-! ## Runs of a queue

Every run of a queue gives the answers of the bounded list, as long as no sum of
head and length and no counter stops it, and the statistics are those of the
record. -/

/-! ## Steps and runs -/

/-- A call gives the answer of the list, if nothing stops it, and otherwise stops. -/
theorem Tracks.step (hT : Tracks type length b h now) {c : Call} (hle : now ≤ c.time) :
    (b.Room c → ∃ b', b.step c = some ((h.step type length c).1, b') ∧
      Tracks type length b' (h.step type length c).2 c.time) ∧
    (¬ b.Room c → b.step c = none) := by
  have hnow := hT.later hle
  cases c with
  | add cTime job inform =>
    by_cases hfull : h.queue.length = length
    · have helems : b.elems = b.length := by rw [hT.elems, hT.length_eq, hfull]
      have hrun : b.addToQueue cTime job inform = some (true, b) := by
        rw [Base.addToQueue, if_neg (by omega), if_pos helems]
      constructor
      · intro _
        refine ⟨b, ?_, ?_⟩
        · rw [Base.step, hrun, History.step, if_pos hfull]
          rfl
        · rw [History.step, if_pos hfull]
          exact hnow
      · intro hroom
        exact absurd (fun hlt => absurd helems (Int.ne_of_lt hlt)) hroom
    · have hlt : h.queue.length < length := Nat.lt_of_le_of_ne hT.le hfull
      have hrun := hT.addToQueue_eq hlt cTime job inform
      constructor
      · intro hroom
        rw [if_pos hroom] at hrun
        have helems : b.elems < b.length := by
          rw [hT.elems, hT.length_eq]
          omega
        refine ⟨b.added (Circular.index length (headOf type length h) h.queue.length)
          ⟨cTime, job, inform⟩, ?_, ?_⟩
        · rw [Base.step, hrun, History.step, if_neg hfull]
          rfl
        · rw [History.step, if_neg hfull]
          exact Tracks.added (e := ⟨cTime, job, inform⟩) hnow hlt (hroom helems).2
      · intro hroom
        rw [if_neg hroom] at hrun
        rw [Base.step, hrun]
        rfl
  | remove cTime =>
    refine ⟨fun _ => ?_, fun hroom => absurd trivial hroom⟩
    cases hnext : type.next h.queue with
    | none =>
      refine ⟨b, ?_, ?_⟩
      · rw [Base.step, hT.removeFromQueue_empty (QueueType.next_eq_none.mp hnext), History.step, hnext]
        rfl
      · rw [History.step, hnext]
        exact hnow
    | some left =>
      obtain ⟨b', hrun, hT'⟩ := hnow.removeFromQueue_eq hnext
      have htime : (Call.remove cTime).time = cTime := rfl
      rw [htime] at hrun
      refine ⟨b', ?_, ?_⟩
      · rw [Base.step, hrun, History.step, hnext]
        rfl
      · rw [History.step, hnext]
        exact hT'

/-- A call on the array, with the answers before it. -/
def answerStep (s : List Answer × Base) (c : Call) : Option (List Answer × Base) :=
  (s.2.step c).map fun r => (s.1 ++ [r.1], r.2)

/-- A call on the list, with the answers before it. -/
def History.answerStep (type : QueueType) (length : Nat) (t : List Answer × History) (c : Call) :
    List Answer × History :=
  (t.1 ++ [(t.2.step type length c).1], (t.2.step type length c).2)

/-- Calls on the list, with their answers. -/
def History.run (type : QueueType) (length : Nat) (t : List Answer × History) (calls : List Call) :
    List Answer × History :=
  calls.foldl (History.answerStep type length) t

/-- The calls of two lists, one after the other. -/
theorem History.run_append (t : List Answer × History) (calls more : List Call) :
    History.run type length t (calls ++ more) =
      History.run type length (History.run type length t calls) more :=
  List.foldl_append

/-- A run of the array gives the answers of the list; it is not stopped if no call is. -/
theorem Tracks.run {calls : List Call} {answers : List Answer} (hT : Tracks type length b h now)
    (hsorted : (now :: calls.map Call.time ++ [cTime]).Pairwise (· ≤ ·)) :
    (∀ s, Runs.run answerStep (answers, b) calls = some s →
      s.1 = (History.run type length (answers, h) calls).1 ∧
        Tracks type length s.2 (History.run type length (answers, h) calls).2 cTime) ∧
    (Runs.Meets answerStep (fun s c => s.2.Room c) (answers, b) calls →
      ∃ s, Runs.run answerStep (answers, b) calls = some s) := by
  induction calls generalizing answers b h now with
  | nil =>
    refine ⟨fun s hs => ?_, fun _ => ⟨_, rfl⟩⟩
    rw [Runs.run_nil, Option.some_inj] at hs
    rw [← hs]
    exact ⟨rfl, hT.later (List.rel_of_pairwise_cons hsorted List.mem_cons_self)⟩
  | cons c calls ih =>
    have hle : now ≤ c.time := List.rel_of_pairwise_cons hsorted List.mem_cons_self
    have hrest := List.Pairwise.of_cons hsorted
    obtain ⟨hgo, hstop⟩ := hT.step hle
    rw [Runs.run_cons]
    by_cases hroom : b.Room c
    · obtain ⟨b', hstep, hT'⟩ := hgo hroom
      have hanswer : answerStep (answers, b) c =
          some (answers ++ [(h.step type length c).1], b') := by
        rw [answerStep, hstep]
        rfl
      obtain ⟨hfollow, hmeets⟩ := @ih b' _ c.time (answers ++ [(h.step type length c).1]) hT' hrest
      rw [hanswer, Option.bind_some]
      exact ⟨hfollow, fun hP => hmeets (hP.2 _ hanswer)⟩
    · have hnone : answerStep (answers, b) c = none := by
        rw [answerStep, hstop hroom]
        rfl
      rw [hnone, Option.bind_none]
      exact ⟨fun s hs => absurd hs (by simp), fun hP => absurd hP.1 hroom⟩

/-- A run of a new queue. -/
theorem run_createQueue (type : QueueType) (hpos : 0 < length) (hbound : length < 2 ^ 31)
    {calls : List Call} (hsorted : (calls.map Call.time ++ [cTime]).Pairwise (· ≤ ·)) :
    (∀ s, Runs.run answerStep ([], createQueue type length) calls = some s →
      s.1 = (History.run type length ([], History.start) calls).1 ∧
        Tracks type length s.2 (History.run type length ([], History.start) calls).2 cTime) ∧
    (Runs.Meets answerStep (fun s c => s.2.Room c) ([], createQueue type length) calls →
      ∃ s, Runs.run answerStep ([], createQueue type length) calls = some s) := by
  refine (Tracks.start type hpos hbound 0).run ?_
  rw [List.cons_append, List.pairwise_cons]
  exact ⟨fun t _ => BitVec.le_def.mpr (Nat.zero_le _), hsorted⟩

/-! ## The average -/

/-- The average is the quotient for every total whose high word is below the number of items, and
the total of a queue is such a total after every run. -/
theorem averageWaitTime_total :
    (∀ high low total : BitVec 64, total ≠ 0 → high < total →
      ∃ result, calcAverageWaitTime high low total = some result ∧
        result.toNat = (high.toNat * 2 ^ 64 + low.toNat) / total.toNat) ∧
    ∀ (type : QueueType) (length : Nat) (calls : List Call) (cTime : BitVec 64)
      (s : List Answer × Base), 0 < length → length < 2 ^ 31 →
      (calls.map Call.time ++ [cTime]).Pairwise (· ≤ ·) →
      Runs.run answerStep ([], createQueue type length) calls = some s →
      ∃ sum, s.2.totalWaitTime cTime = some sum ∧ (sum.1 = 0 ∨ sum.1 < s.2.numberOfAdds) := by
  refine ⟨fun high low total _ hlt => calcAverageWaitTime_eq hlt,
    fun type length calls cTime s hpos hbound hsorted hrun => ?_⟩
  obtain ⟨hfollow, -⟩ := run_createQueue type hpos hbound hsorted
  obtain ⟨sum, hsum, -, hhigh⟩ := (hfollow s hrun).2.totalWaitTime_eq
  exact ⟨sum, hsum, hhigh⟩

/-- A total above half of what a word holds, and a job that waits. -/
theorem averageWaitTime_total_large :
    (∃ result, calcAverageWaitTime 5 7 0x8000000000000001 = some result ∧
      result.toNat = (5 * 2 ^ 64 + 7) / 0x8000000000000001) ∧
    ∃ s, Runs.run answerStep ([], createQueue .fifo (2 : Nat)) [.add 3 ⟨5, 0⟩ ⟨6, 0⟩] = some s ∧
      ∃ sum, s.2.totalWaitTime 9 = some sum ∧ (sum.1 = 0 ∨ sum.1 < s.2.numberOfAdds) :=
  ⟨averageWaitTime_total.1 5 7 0x8000000000000001 (by decide) (by decide),
    _, rfl, averageWaitTime_total.2 .fifo 2 [.add 3 ⟨5, 0⟩ ⟨6, 0⟩] 9 _ (by decide) (by decide)
      (by decide) rfl⟩

/-! ## The queue -/

/-- Every run in which nothing stops a call gives the answers of the bounded list, and after it the
statistics are those of the record. -/
theorem queue_follows_list (type : QueueType) {length : Nat} (hpos : 0 < length)
    (hbound : length < 2 ^ 31) {calls : List Call} {cTime : BitVec 64}
    (hsorted : (calls.map Call.time ++ [cTime]).Pairwise (· ≤ ·))
    (hroom : Runs.Meets answerStep (fun s c => s.2.Room c) ([], createQueue type length) calls) :
    ∃ answers b h, Runs.run answerStep ([], createQueue type length) calls = some (answers, b) ∧
      History.run type length ([], History.start) calls = (answers, h) ∧
      b.Reports h cTime := by
  obtain ⟨hfollow, hmeets⟩ := run_createQueue type hpos hbound hsorted
  obtain ⟨s, hrun⟩ := hmeets hroom
  obtain ⟨hanswers, hT⟩ := hfollow s hrun
  exact ⟨s.1, s.2, _, hrun, Prod.ext hanswers.symm rfl, hT.reports⟩

/-- Two jobs come, one leaves, and another comes. -/
theorem queue_follows_list_fifo : ∃ answers b h,
    Runs.run answerStep ([], createQueue .fifo (2 : Nat))
        [.add 1 ⟨5, 0⟩ ⟨6, 0⟩, .add 3 ⟨7, 0⟩ ⟨8, 0⟩, .remove 4, .add 9 ⟨5, 0⟩ ⟨6, 0⟩] =
      some (answers, b) ∧
    History.run .fifo 2 ([], History.start)
        [.add 1 ⟨5, 0⟩ ⟨6, 0⟩, .add 3 ⟨7, 0⟩ ⟨8, 0⟩, .remove 4, .add 9 ⟨5, 0⟩ ⟨6, 0⟩] =
      (answers, h) ∧
    b.Reports h 12 :=
  queue_follows_list .fifo (by decide) (by decide) (by decide) (by decide)

/-! ### Where the sum of head and length is too large -/

/-- Jobs come to a list that has place for them. -/
private theorem run_adds (cTime : BitVec 64) (job inform : Vecval) (n : Nat)
    (t : List Answer × History) (hplace : t.2.queue.length + n ≤ length) :
    (History.run type length t (List.replicate n (.add cTime job inform))).2.queue.length =
        t.2.queue.length + n ∧
      (History.run type length t (List.replicate n (.add cTime job inform))).2.waits =
        t.2.waits := by
  induction n generalizing t with
  | zero => exact ⟨rfl, rfl⟩
  | succ n ih =>
    have hstep : History.answerStep type length t (.add cTime job inform) =
        (t.1 ++ [.added false], t.2.added ⟨cTime, job, inform⟩) := by
      rw [History.answerStep, History.step, if_neg (by omega)]
    have hlen : (t.2.added ⟨cTime, job, inform⟩).queue.length = t.2.queue.length + 1 :=
      List.length_append
    obtain ⟨hqueue, hwaits⟩ := ih (t.1 ++ [.added false], t.2.added ⟨cTime, job, inform⟩) (by
      dsimp only
      omega)
    rw [List.replicate_succ, History.run, List.foldl_cons, hstep, ← History.run]
    exact ⟨by rw [hqueue, hlen]; omega, hwaits⟩

/-- Jobs leave a list that has them. -/
private theorem run_removes (cTime : BitVec 64) (n : Nat) (t : List Answer × History)
    (hjobs : n ≤ t.2.queue.length) :
    (History.run type length t (List.replicate n (.remove cTime))).2.queue.length + n =
        t.2.queue.length ∧
      (History.run type length t (List.replicate n (.remove cTime))).2.waits.length =
        t.2.waits.length + n := by
  induction n generalizing t with
  | zero => exact ⟨rfl, rfl⟩
  | succ n ih =>
    obtain ⟨⟨e, rest⟩, hnext⟩ : ∃ left, type.next t.2.queue = some left := by
      apply Option.ne_none_iff_exists'.mp
      rw [Ne, QueueType.next_eq_none, ← List.length_eq_zero_iff]
      omega
    obtain ⟨hlen, -, -⟩ := QueueType.next_perm hnext
    have hstep : History.answerStep type length t (.remove cTime) =
        (t.1 ++ [.removed (some (e.job, e.inform))], t.2.removed cTime e rest) := by
      rw [History.answerStep, History.step, hnext]
    have hwait : (t.2.removed cTime e rest).waits.length = t.2.waits.length + 1 :=
      List.length_append
    have hrest : (t.2.removed cTime e rest).queue = rest := rfl
    obtain ⟨hqueue, hwaits⟩ := ih (t.1 ++ [.removed (some (e.job, e.inform))],
      t.2.removed cTime e rest) (by
        dsimp only
        rw [hrest]
        omega)
    dsimp only at hqueue hwaits
    rw [List.replicate_succ, History.run, List.foldl_cons, hstep, ← History.run]
    rw [hrest] at hqueue
    exact ⟨by omega, by rw [hwaits, hwait]; omega⟩

/-- Jobs come, leave and come again until head and length are as large as half the array. -/
private def laps (count : Nat) : List Call :=
  List.replicate count (.add 0 ⟨0, 0⟩ ⟨0, 0⟩) ++ List.replicate count (.remove 0) ++
    List.replicate count (.add 0 ⟨0, 0⟩ ⟨0, 0⟩)

private theorem run_laps {count : Nat} (hplace : count ≤ length) :
    (History.run type length ([], History.start) (laps count)).2.queue.length = count ∧
      (History.run type length ([], History.start) (laps count)).2.waits.length = count := by
  obtain ⟨t₁, ht₁⟩ : ∃ t₁, t₁ = History.run type length ([], History.start)
    (List.replicate count (.add 0 ⟨0, 0⟩ ⟨0, 0⟩)) := ⟨_, rfl⟩
  obtain ⟨t₂, ht₂⟩ : ∃ t₂, t₂ = History.run type length t₁
    (List.replicate count (.remove 0)) := ⟨_, rfl⟩
  have hstart : History.start.queue.length = 0 := rfl
  have hnone : History.start.waits.length = 0 := rfl
  obtain ⟨hqueue₁, hwaits₁⟩ := @run_adds type length 0 ⟨0, 0⟩ ⟨0, 0⟩ count ([], History.start) (by
    dsimp only
    omega)
  rw [← ht₁] at hqueue₁ hwaits₁
  dsimp only at hqueue₁ hwaits₁
  obtain ⟨hqueue₂, hwaits₂⟩ := @run_removes type length 0 count t₁ (by omega)
  rw [← ht₂] at hqueue₂ hwaits₂
  obtain ⟨hqueue, hwaits⟩ := @run_adds type length 0 ⟨0, 0⟩ ⟨0, 0⟩ count t₂ (by omega)
  have hall : History.run type length ([], History.start) (laps count) = History.run type length t₂
      (List.replicate count (.add 0 ⟨0, 0⟩ ⟨0, 0⟩)) := by
    rw [laps, History.run_append, History.run_append, ← ht₁, ← ht₂]
  rw [hall, hwaits]
  rw [hwaits₁, hnone] at hwaits₂
  exact ⟨by omega, by omega⟩

/-- A queue of more than half the cells that `PLI_INT32` counts stops at a job although it is not
full. -/
theorem not_queue_follows_list : ¬ ∀ (type : QueueType) (length : Nat) (calls : List Call)
    (cTime : BitVec 64), 0 < length → length < 2 ^ 31 →
    (calls.map Call.time ++ [cTime]).Pairwise (· ≤ ·) →
    ∃ answers b h, Runs.run answerStep ([], createQueue type length) calls = some (answers, b) ∧
      History.run type length ([], History.start) calls = (answers, h) ∧ b.Reports h cTime := by
  intro hall
  obtain ⟨count, hcount⟩ : ∃ count, count = 2 ^ 30 := ⟨_, rfl⟩
  have htimes : ∀ calls : List Call, (∀ c ∈ calls, c.time = 0) →
      (calls.map Call.time ++ [(0 : BitVec 64)]).Pairwise (· ≤ ·) := by
    intro calls hzero
    refine List.Pairwise.imp_of_mem (R := fun _ _ => True) (fun {s t} hs _ _ => ?_)
      (List.pairwise_of_forall fun _ _ => trivial)
    have hs0 : s = 0 := by
      rcases List.mem_append.mp hs with hs | hs
      · obtain ⟨c, hc, rfl⟩ := List.mem_map.mp hs
        exact hzero c hc
      · exact List.mem_singleton.mp hs
    rw [hs0, BitVec.le_def]
    exact Nat.zero_le _
  have hlaps : ∀ c ∈ laps count, c.time = 0 := by
    intro c hc
    rw [laps, List.mem_append, List.mem_append] at hc
    rcases hc with (hc | hc) | hc <;> rw [List.eq_of_mem_replicate hc] <;> rfl
  -- the calls are the laps and a job that has a place
  obtain ⟨answers, b, h, hrun, -⟩ := hall .fifo (count + 1)
    (laps count ++ [.add 0 ⟨0, 0⟩ ⟨0, 0⟩]) 0 (by omega) (by omega) (htimes _ (by
      intro c hc
      rcases List.mem_append.mp hc with hc | hc
      · exact hlaps c hc
      · rw [List.mem_singleton.mp hc]
        rfl))
  rw [Runs.run, List.foldlM_append] at hrun
  obtain ⟨s, hs, hlast⟩ := Option.bind_eq_some_iff.mp hrun
  obtain ⟨hfollow, -⟩ := @run_createQueue (count + 1) 0 .fifo (by omega) (by omega) _
    (htimes _ hlaps)
  obtain ⟨-, hT⟩ := hfollow s hs
  obtain ⟨hqueue, hwaits⟩ := @run_laps .fifo (count + 1) count (by omega)
  have hroom : ¬ s.2.Room (.add 0 ⟨0, 0⟩ ⟨0, 0⟩) := by
    intro hr
    have hhead := hT.head
    rw [headOf, hwaits, Nat.mod_eq_of_lt (Nat.lt_succ_self count)] at hhead
    have hless := (hr (by rw [hT.elems, hT.length_eq, hqueue]; omega)).1 hT.type_eq
    rw [hhead, hT.elems, hqueue, hcount] at hless
    exact absurd hless (by decide)
  have hnone : answerStep s (.add 0 ⟨0, 0⟩ ⟨0, 0⟩) = none := by
    rw [answerStep, (hT.step (c := .add 0 ⟨0, 0⟩ ⟨0, 0⟩) (BitVec.le_refl _)).2 hroom]
    rfl
  rw [List.foldlM_cons, hnone] at hlast
  exact absurd hlast (by simp)

end Icarus.Vpi.Queue
