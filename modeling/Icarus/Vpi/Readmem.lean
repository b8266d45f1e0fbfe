import Icarus.Vpi.MemWord
import Icarus.Vpi.ReadmemLex
import Mathlib.Tactic.Ring

/-!
# `$readmem` and `$writemem`

The tasks that read and write the words of a memory between a start and a finish address. Addresses
are native integers, which wrap. A file that was written is read back as the same words, under the
same arguments.
-/

namespace Icarus.Vpi

open Icarus.Vvp

/-! ## Memories -/

/-- The range of a native integer. -/
def IsInt (n : Int) : Prop := -2 ^ 31 ≤ n ∧ n < 2 ^ 31

/-- A native integer after an overflow. -/
def wrap (n : Int) : Int := (n + 2 ^ 31) % 2 ^ 32 - 2 ^ 31

/-- A memory: its bounds and the words of its addresses. The number of words is an unsigned. -/
structure Memory where
  leftAddr : Int
  rightAddr : Int
  width : Nat
  word : Int → Vector4
  left_isInt : IsInt leftAddr
  right_isInt : IsInt rightAddr
  width_pos : 0 < width
  length_word : ∀ addr, (word addr).length = width
  count_lt : max leftAddr rightAddr - min leftAddr rightAddr + 1 < 2 ^ 32

/-- The same memory with other words. -/
def Memory.withWords (mem : Memory) (word : Int → Vector4)
    (h : ∀ addr, (word addr).length = mem.width) : Memory :=
  { mem with word := word, length_word := h }

/-- The addresses that a task is asked for. -/
structure MemParams where
  startAddr : Int
  stopAddr : Int
  addrIncr : Int
  minAddr : Int
  maxAddr : Int

/-- An address that is out of the bounds of the memory. -/
inductive AddressError
  | start
  | finish
  deriving DecidableEq

/-- `process_params`, with the values of the optional start and finish addresses; the warning about
the direction of the memory is left out. -/
def processParams (leftAddr rightAddr : Int) (startItem stopItem : Option Int) :
    Except AddressError MemParams :=
  let startAddr :=
    match startItem with
    | none => if leftAddr < rightAddr then leftAddr else rightAddr
    | some start => start
  let stopAddr :=
    match startItem, stopItem with
    | some _, some stop => stop
    | _, _ => if leftAddr < rightAddr then rightAddr else leftAddr
  let addrIncr :=
    match startItem, stopItem with
    | some _, some _ => if startAddr < stopAddr then 1 else -1
    | _, _ => 1
  let minAddr := if startAddr < stopAddr then startAddr else stopAddr
  let maxAddr := if startAddr < stopAddr then stopAddr else startAddr
  if leftAddr < rightAddr then
    if startAddr < leftAddr ∨ startAddr > rightAddr then .error .start
    else if stopAddr < leftAddr ∨ stopAddr > rightAddr then .error .finish
    else .ok ⟨startAddr, stopAddr, addrIncr, minAddr, maxAddr⟩
  else if startAddr < rightAddr ∨ startAddr > leftAddr then .error .start
  else if stopAddr < rightAddr ∨ stopAddr > leftAddr then .error .finish
  else .ok ⟨startAddr, stopAddr, addrIncr, minAddr, maxAddr⟩

/-! ## Writing -/

/-- `%08x`. -/
def hex8 (n : Nat) : List Char :=
  ((List.range 8).map fun idx => hexChars.getD (n / 16 ^ idx % 16) '0').reverse

/-- The comment before each sixteen words. -/
def countLine (cnt : Nat) : List Char :=
  if cnt % 16 = 0 then '/' :: '/' :: (' ' :: '0' :: 'x' :: hex8 cnt ++ ['\n']) else []

/-- The text of a word. -/
def wordStr : StartState → Vector4 → List Char
  | .bin => binStr
  | .hex => hexStr

/-- The loop of `sys_writemem_calltf`; an address that the memory does not have fails an assertion.
After as many turns as there are integers the addresses repeat. -/
def writeLoop (mem : Memory) (format : StartState) (p : MemParams) :
    Nat → Int → Nat → Option (List Char)
  | 0, _, _ => none
  | turns + 1, addr, cnt =>
    if addr ≠ wrap (p.stopAddr + p.addrIncr) then
      if min mem.leftAddr mem.rightAddr ≤ addr ∧ addr ≤ max mem.leftAddr mem.rightAddr then
        (writeLoop mem format p turns (wrap (addr + p.addrIncr)) (cnt + 1)).map fun rest =>
          countLine cnt ++ (wordStr format (mem.word addr) ++ '\n' :: rest)
      else none
    else some []

/-- `sys_writemem_calltf`: the text of the file, if it is written. -/
def writemem (mem : Memory) (format : StartState) (startItem stopItem : Option Int) :
    Option (List Char) :=
  match processParams mem.leftAddr mem.rightAddr startItem stopItem with
  | .error _ => none
  | .ok p => writeLoop mem format p (2 ^ 32) p.startAddr 0

/-! ## Reading -/

/-- `make_addr`; a value that is too large saturates before it is cut. -/
def makeAddr (digits : List Char) : BitVec 32 :=
  BitVec.ofNat 32
    (min (digits.foldl (fun n c => 16 * n + (hexPlanes c).1.toNat) 0) (2 ^ 64 - 1))

/-- `make_bin_value` or `make_hex_value`. -/
def makeWord (format : StartState) (width : Nat) (text : List Char) : Vector4 :=
  match format with
  | .bin => (makeBinValue width text).word width
  | .hex => (makeHexValue width text).word width

/-- The loop of `sys_readmem_calltf`, over what the lexor returns; a word or an address that is out
of range and an invalid character end it. -/
def readLoop (format : StartState) (width : Nat) (p : MemParams) :
    List MemToken → Int → (Int → Vector4) → Int → Vector4
  | [], _, word => word
  | .address digits :: tokens, _, word =>
    let addr := (makeAddr digits).toInt
    if addr < p.minAddr ∨ addr > p.maxAddr then word
    else readLoop format width p tokens addr word
  | .word text :: tokens, addr, word =>
    if addr ≥ p.minAddr ∧ addr ≤ p.maxAddr then
      readLoop format width p tokens (wrap (addr + p.addrIncr)) fun a =>
        if a = addr then makeWord format width text else word a
    else word
  | .error _ :: _, _, word => word

/-- `sys_readmem_calltf`: the words of the memory afterwards. -/
def readmem (mem : Memory) (format : StartState) (startItem stopItem : Option Int)
    (file : List Char) : Int → Vector4 :=
  match processParams mem.leftAddr mem.rightAddr startItem stopItem with
  | .error _ => mem.word
  | .ok p =>
    readLoop format mem.width p (readmemlex format false file) p.startAddr mem.word

/-! ## Ranges of addresses -/

/-- The lowest and the highest address that the arguments ask for. -/
def Memory.span (mem : Memory) (startItem stopItem : Option Int) : Int × Int :=
  match startItem, stopItem with
  | none, _ => (min mem.leftAddr mem.rightAddr, max mem.leftAddr mem.rightAddr)
  | some start, none => (start, max mem.leftAddr mem.rightAddr)
  | some start, some stop => (min start stop, max start stop)

/-- The address is in the range of the memory. -/
def Memory.Has (mem : Memory) (addr : Int) : Prop :=
  min mem.leftAddr mem.rightAddr ≤ addr ∧ addr ≤ max mem.leftAddr mem.rightAddr

/-- The parameters of addresses that are in range. -/
structure MemParams.Valid (p : MemParams) (mem : Memory) : Prop where
  min_has : mem.Has p.minAddr
  max_has : mem.Has p.maxAddr
  ends : p.addrIncr = 1 ∧ p.startAddr = p.minAddr ∧ p.stopAddr = p.maxAddr ∨
    p.addrIncr = -1 ∧ p.startAddr = p.maxAddr ∧ p.stopAddr = p.minAddr
  le : p.minAddr ≤ p.maxAddr

/-- The check of the bounds, once start and finish are known. -/
theorem Memory.Has.check {mem : Memory} {startAddr stopAddr : Int} (hstart : mem.Has startAddr)
    (hstop : mem.Has stopAddr) (p : MemParams) :
    (if mem.leftAddr < mem.rightAddr then
      if startAddr < mem.leftAddr ∨ startAddr > mem.rightAddr then
        Except.error AddressError.start
      else if stopAddr < mem.leftAddr ∨ stopAddr > mem.rightAddr then .error .finish
      else .ok p
    else if startAddr < mem.rightAddr ∨ startAddr > mem.leftAddr then .error .start
    else if stopAddr < mem.rightAddr ∨ stopAddr > mem.leftAddr then .error .finish
    else .ok p) = .ok p := by
  unfold Memory.Has at hstart hstop
  split_ifs
  · omega
  · omega
  · rfl
  · omega
  · omega
  · rfl

/-- Addresses in range are accepted, and give the range that is asked for. -/
theorem processParams_spec {mem : Memory} {startItem stopItem : Option Int}
    (hstart : ∀ start ∈ startItem, mem.Has start) (hstop : ∀ stop ∈ stopItem, mem.Has stop) :
    ∃ p, processParams mem.leftAddr mem.rightAddr startItem stopItem = .ok p ∧ p.Valid mem ∧
      (p.minAddr, p.maxAddr) = mem.span startItem stopItem := by
  have hlow : mem.Has (min mem.leftAddr mem.rightAddr) := ⟨le_refl _, min_le_max⟩
  have hhigh : mem.Has (max mem.leftAddr mem.rightAddr) := ⟨min_le_max, le_refl _⟩
  have hmin : (if mem.leftAddr < mem.rightAddr then mem.leftAddr else mem.rightAddr) =
      min mem.leftAddr mem.rightAddr := by
    split_ifs <;> omega
  have hmax : (if mem.leftAddr < mem.rightAddr then mem.rightAddr else mem.leftAddr) =
      max mem.leftAddr mem.rightAddr := by
    split_ifs <;> omega
  unfold processParams
  cases startItem with
  | none =>
    refine ⟨_, Memory.Has.check (by rwa [hmin]) (by rwa [hmax]) _, ⟨?_, ?_, ?_, ?_⟩, ?_⟩
    all_goals dsimp only [Memory.span]
    all_goals rw [hmin, hmax]
    · split_ifs <;> assumption
    · split_ifs <;> assumption
    · left
      split_ifs <;> omega
    · split_ifs <;> omega
    · rw [Prod.mk.injEq]
      split_ifs <;> omega
  | some start =>
    have hs := hstart start rfl
    cases stopItem with
    | none =>
      have hle := hs.2
      refine ⟨_, hs.check (by rwa [hmax]) _, ⟨?_, ?_, ?_, ?_⟩, ?_⟩
      all_goals dsimp only [Memory.span]
      all_goals rw [hmax]
      · split_ifs <;> assumption
      · split_ifs <;> assumption
      · left
        split_ifs <;> omega
      · split_ifs <;> omega
      · rw [Prod.mk.injEq]
        split_ifs <;> omega
    | some stop =>
      have ht := hstop stop rfl
      refine ⟨_, hs.check ht _, ⟨?_, ?_, ?_, ?_⟩, ?_⟩
      all_goals dsimp only [Memory.span]
      · split_ifs <;> assumption
      · split_ifs <;> assumption
      · split_ifs <;> omega
      · split_ifs <;> omega
      · rw [Prod.mk.injEq]
        split_ifs <;> omega

/-! ## The file -/

/-- The lines of some words, from an address on. -/
def wordLines (mem : Memory) (format : StartState) (addrIncr : Int) : Nat → Int → Nat → List Char
  | 0, _, _ => []
  | r + 1, addr, cnt =>
    countLine cnt ++ (wordStr format (mem.word addr) ++
      '\n' :: wordLines mem format addrIncr r (addr + addrIncr) (cnt + 1))

/-- The addresses that are left, counted from the last one. -/
structure MemParams.Left (p : MemParams) (r : Nat) (addr : Int) : Prop where
  stop : addr + r * p.addrIncr = p.stopAddr + p.addrIncr
  le : r ≤ p.maxAddr - p.minAddr + 1

theorem MemParams.Left.next {p : MemParams} {r : Nat} {addr : Int} (h : p.Left (r + 1) addr) :
    p.Left r (addr + p.addrIncr) where
  stop := by
    rw [← h.stop, Nat.cast_succ]
    ring
  le := by
    have hle := h.le
    push_cast at hle
    omega

/-- An address that is left is in range. -/
theorem MemParams.Left.mem_range {p : MemParams} {mem : Memory} (hp : p.Valid mem) {r : Nat}
    {addr : Int} (h : p.Left (r + 1) addr) : p.minAddr ≤ addr ∧ addr ≤ p.maxAddr := by
  obtain ⟨hstop, hle⟩ := h
  push_cast at hstop hle
  rcases hp.ends with ⟨hincr, hs, ht⟩ | ⟨hincr, hs, ht⟩
  · rw [hincr] at hstop
    omega
  · rw [hincr] at hstop
    omega

theorem wrap_of_isInt {n : Int} (h : IsInt n) : wrap n = n := by
  unfold IsInt at h
  unfold wrap
  omega

theorem Memory.Has.isInt {mem : Memory} {addr : Int} (h : mem.Has addr) : IsInt addr := by
  have hleft := mem.left_isInt
  have hright := mem.right_isInt
  unfold Memory.Has at h
  unfold IsInt at *
  omega

theorem MemParams.Valid.has {p : MemParams} {mem : Memory} (hp : p.Valid mem) {addr : Int}
    (h : p.minAddr ≤ addr ∧ addr ≤ p.maxAddr) : mem.Has addr :=
  ⟨hp.min_has.1.trans h.1, h.2.trans hp.max_has.2⟩

/-- The loop ends behind the last address, and not before. -/
theorem MemParams.Left.ne_stop {p : MemParams} {mem : Memory} (hp : p.Valid mem) {r : Nat}
    {addr : Int} (h : p.Left (r + 1) addr) : wrap addr ≠ wrap (p.stopAddr + p.addrIncr) := by
  have hcount := mem.count_lt
  have hmin := hp.min_has
  have hmax := hp.max_has
  obtain ⟨hstop, hle⟩ := h
  push_cast at hstop hle
  unfold Memory.Has at hmin hmax
  unfold wrap
  rcases hp.ends with ⟨hincr, hs, ht⟩ | ⟨hincr, hs, ht⟩
  · rw [hincr] at hstop ⊢
    omega
  · rw [hincr] at hstop ⊢
    omega

/-- The loop writes the lines of the words that are left. -/
theorem writeLoop_spec {p : MemParams} {mem : Memory} (hp : p.Valid mem) (format : StartState)
    {r turns : Nat} (hturns : r < turns) {addr : Int} (h : p.Left r addr) (cnt : Nat) :
    writeLoop mem format p turns (wrap addr) cnt =
      some (wordLines mem format p.addrIncr r addr cnt) := by
  induction r generalizing turns addr cnt with
  | zero =>
    obtain ⟨turns, rfl⟩ := Nat.exists_eq_succ_of_ne_zero hturns.ne'
    have hstop : addr = p.stopAddr + p.addrIncr := by simpa using h.stop
    rw [writeLoop, hstop, if_neg (not_not.mpr rfl), wordLines]
  | succ r ih =>
    obtain ⟨turns, rfl⟩ := Nat.exists_eq_succ_of_ne_zero (Nat.ne_of_gt (Nat.zero_lt_of_lt hturns))
    have hhas := hp.has (h.mem_range hp)
    have hne := h.ne_stop hp
    rw [wrap_of_isInt hhas.isInt] at hne ⊢
    have hin : min mem.leftAddr mem.rightAddr ≤ addr ∧
        addr ≤ max mem.leftAddr mem.rightAddr := hhas
    rw [writeLoop, if_pos hne, if_pos hin, ih (Nat.lt_of_succ_lt_succ hturns) h.next, wordLines]
    rfl

/-! ## The words of the file -/

theorem ne_newline_of_mem_hex8 {cnt : Nat} : ∀ c ∈ hex8 cnt, c ≠ '\n' := by
  intro c hc
  obtain ⟨idx, -, rfl⟩ := List.mem_map.mp (List.mem_reverse.mp hc)
  have hchars : hexChars.all (fun c => c ≠ '\n') = true := by decide
  exact of_decide_eq_true (List.all_eq_true.mp hchars _ (hexChars_getD_mem _))

/-- The comment lines are skipped. -/
theorem readmemlex_countLine (format : StartState) (cnt : Nat) (cs : List Char) :
    readmemlex format false (countLine cnt ++ cs) = readmemlex format false cs := by
  unfold countLine
  split_ifs
  · have hline : ∀ c ∈ ' ' :: '0' :: 'x' :: hex8 cnt, c ≠ '\n' := by
      intro c hc
      rcases List.mem_append.mp (show c ∈ [' ', '0', 'x'] ++ hex8 cnt from hc) with hc | hc
      · have hchars : [' ', '0', 'x'].all (fun c => c ≠ '\n') = true := by decide
        exact of_decide_eq_true (List.all_eq_true.mp hchars c hc)
      · exact ne_newline_of_mem_hex8 c hc
    have h := @readmemlex_comment format cs _ hline
    simpa using h
  · rfl

theorem isWordChar_asciiOf (b : Bit4) : isWordChar .bin (asciiOf b) = true := by
  cases b <;> decide

theorem isWordChar_hexDigit (digit : List Bit4) : isWordChar .hex (hexDigit digit) = true := by
  have hchars : (hexChars ++ ['z', 'x', 'Z', 'X']).all (isWordChar .hex) = true := by decide
  exact List.all_eq_true.mp hchars _ (hexDigit_mem digit)

/-- The text of a word is the text of one token. -/
theorem isWordChar_wordStr (format : StartState) (word : Vector4) :
    ∀ c ∈ wordStr format word, isWordChar format c = true := by
  intro c hc
  cases format with
  | bin =>
    obtain ⟨b, -, rfl⟩ := List.mem_map.mp (List.mem_reverse.mp hc)
    exact isWordChar_asciiOf b
  | hex =>
    obtain ⟨idx, -, rfl⟩ := List.mem_map.mp (List.mem_reverse.mp hc)
    exact isWordChar_hexDigit _

theorem wordStr_ne_nil (format : StartState) {word : Vector4} (h : 0 < word.length) :
    wordStr format word ≠ [] := by
  refine List.ne_nil_of_length_pos ?_
  cases format with
  | bin => simpa [wordStr, binStr] using h
  | hex =>
    simp only [wordStr, hexStr, List.length_reverse, List.length_map, List.length_range]
    omega

/-- The tokens of some words. -/
def wordTokens (mem : Memory) (format : StartState) (addrIncr : Int) :
    Nat → Int → List MemToken
  | 0, _ => []
  | r + 1, addr =>
    .word (wordStr format (mem.word addr)) :: wordTokens mem format addrIncr r (addr + addrIncr)

/-- The lexor returns the words of the lines. -/
theorem readmemlex_wordLines (mem : Memory) (format : StartState) (addrIncr : Int) (r : Nat)
    (addr : Int) (cnt : Nat) :
    readmemlex format false (wordLines mem format addrIncr r addr cnt) =
      wordTokens mem format addrIncr r addr := by
  induction r generalizing addr cnt with
  | zero =>
    rw [wordLines, wordTokens, readmemlex]
  | succ r ih =>
    have hpos : 0 < (mem.word addr).length := by
      rw [mem.length_word]
      exact mem.width_pos
    rw [wordLines, readmemlex_countLine, readmemlex_word (wordStr_ne_nil format hpos)
      (isWordChar_wordStr format _), ih, wordTokens]

/-- The text of a word is read back, in a hex file if no digit is mixed. -/
theorem makeWord_wordStr (mem : Memory) {format : StartState} {addr : Int}
    (h : format = .hex → Unmixed (mem.word addr)) :
    makeWord format mem.width (wordStr format (mem.word addr)) = mem.word addr := by
  have hlen := mem.length_word addr
  cases format with
  | bin =>
    have hword := word_makeBinValue (mem.word addr)
    rwa [hlen] at hword
  | hex =>
    have hword := word_makeHexValue (h rfl)
    rwa [hlen] at hword

/-- The words that are left are put at their addresses, and no other. -/
theorem readLoop_spec {p : MemParams} {mem : Memory} (hp : p.Valid mem) {format : StartState}
    (hmixed : format = .hex → ∀ addr, p.minAddr ≤ addr ∧ addr ≤ p.maxAddr →
      Unmixed (mem.word addr))
    {r : Nat} {addr : Int} (h : p.Left r addr) (word : Int → Vector4) (a : Int) :
    readLoop format mem.width p (wordTokens mem format p.addrIncr r addr) (wrap addr) word a =
      if ∃ k < r, a = addr + k * p.addrIncr then mem.word a else word a := by
  induction r generalizing addr word with
  | zero =>
    rw [wordTokens, readLoop, if_neg]
    rintro ⟨k, hk, -⟩
    exact absurd hk (Nat.not_lt_zero k)
  | succ r ih =>
    have hrange := h.mem_range hp
    rw [wrap_of_isInt (hp.has hrange).isInt, wordTokens, readLoop, if_pos hrange, ih h.next,
      makeWord_wordStr mem fun hhex => hmixed hhex addr hrange]
    have hsplit : (∃ k < r + 1, a = addr + k * p.addrIncr) ↔
        a = addr ∨ ∃ k < r, a = addr + p.addrIncr + k * p.addrIncr := by
      constructor
      · rintro ⟨k, hk, rfl⟩
        cases k with
        | zero => exact Or.inl (by simp)
        | succ k => exact Or.inr ⟨k, Nat.lt_of_succ_lt_succ hk, by push_cast; ring⟩
      · rintro (rfl | ⟨k, hk, rfl⟩)
        · exact ⟨0, Nat.succ_pos r, by simp⟩
        · exact ⟨k + 1, Nat.succ_lt_succ hk, by push_cast; ring⟩
    rw [if_congr hsplit rfl rfl]
    by_cases ha : a = addr
    · subst ha
      simp
    · simp [ha]

/-- All the addresses of the range are left at the start. -/
theorem MemParams.Valid.left {p : MemParams} {mem : Memory} (hp : p.Valid mem) :
    p.Left (p.maxAddr - p.minAddr + 1).toNat p.startAddr := by
  have hle := hp.le
  have hcast : (((p.maxAddr - p.minAddr + 1).toNat : Nat) : Int) = p.maxAddr - p.minAddr + 1 :=
    Int.toNat_of_nonneg (by omega)
  refine ⟨?_, hcast.le⟩
  rw [hcast]
  rcases hp.ends with ⟨hincr, hs, ht⟩ | ⟨hincr, hs, ht⟩
  · rw [hincr, hs, ht]
    ring
  · rw [hincr, hs, ht]
    ring

/-- The addresses from the start on are the range. -/
theorem MemParams.Valid.exists_iff {p : MemParams} {mem : Memory} (hp : p.Valid mem) (a : Int) :
    (∃ k < (p.maxAddr - p.minAddr + 1).toNat, a = p.startAddr + k * p.addrIncr) ↔
      p.minAddr ≤ a ∧ a ≤ p.maxAddr := by
  have hle := hp.le
  rcases hp.ends with ⟨hincr, hs, ht⟩ | ⟨hincr, hs, ht⟩
  · rw [hincr, hs]
    constructor
    · rintro ⟨k, hk, rfl⟩
      omega
    · intro ha
      exact ⟨(a - p.minAddr).toNat, by omega, by omega⟩
  · rw [hincr, hs]
    constructor
    · rintro ⟨k, hk, rfl⟩
      omega
    · intro ha
      exact ⟨(p.maxAddr - a).toNat, by omega, by omega⟩

theorem MemParams.Valid.startAddr_has {p : MemParams} {mem : Memory} (hp : p.Valid mem) :
    mem.Has p.startAddr := by
  rcases hp.ends with ⟨-, hs, -⟩ | ⟨-, hs, -⟩
  · rw [hs]
    exact hp.min_has
  · rw [hs]
    exact hp.max_has

/-- A file that was written is read back: every word of the range is restored, whatever the words
of the memory are by then, and no other word is changed. -/
theorem readmem_writemem (mem : Memory) (format : StartState) {startItem stopItem : Option Int}
    (hstart : ∀ start ∈ startItem, mem.Has start) (hstop : ∀ stop ∈ stopItem, mem.Has stop)
    (hmixed : format = .hex → ∀ addr, (mem.span startItem stopItem).1 ≤ addr ∧
      addr ≤ (mem.span startItem stopItem).2 → Unmixed (mem.word addr))
    (word : Int → Vector4) (hword : ∀ addr, (word addr).length = mem.width) :
    ∃ file, writemem mem format startItem stopItem = some file ∧
      ∀ addr, readmem (mem.withWords word hword) format startItem stopItem file addr =
        if (mem.span startItem stopItem).1 ≤ addr ∧ addr ≤ (mem.span startItem stopItem).2 then
          mem.word addr
        else word addr := by
  obtain ⟨p, hok, hp, hspan⟩ := processParams_spec hstart hstop
  rw [← hspan] at hmixed ⊢
  dsimp only at hmixed ⊢
  have hturns : (p.maxAddr - p.minAddr + 1).toNat < 2 ^ 32 := by
    have hcount := mem.count_lt
    have hmin := hp.min_has.1
    have hmax := hp.max_has.2
    omega
  have hwrap := wrap_of_isInt hp.startAddr_has.isInt
  have hfile := writeLoop_spec hp format hturns hp.left 0
  have hread := readLoop_spec hp hmixed hp.left word
  rw [hwrap] at hfile hread
  refine ⟨wordLines mem format p.addrIncr (p.maxAddr - p.minAddr + 1).toNat p.startAddr 0, ?_,
    fun addr => ?_⟩
  · unfold writemem
    rw [hok]
    exact hfile
  · unfold readmem
    have hok' : processParams (mem.withWords word hword).leftAddr
        (mem.withWords word hword).rightAddr startItem stopItem = .ok p := hok
    rw [hok']
    dsimp only
    rw [readmemlex_wordLines]
    exact (hread addr).trans (if_congr (hp.exists_iff addr) rfl rfl)

/-- A memory with a descending range, of which the two middle words are written downwards. -/
theorem readmem_writemem_middle :
    let mem : Memory :=
      ⟨3, 0, 5, fun addr => if addr = 2 then [.one, .zero, .one, .one, .x] else List.replicate 5 .z,
        ⟨by decide, by decide⟩, ⟨by decide, by decide⟩, by decide, fun addr => by split_ifs <;> rfl,
        by decide⟩
    ∃ file, writemem mem .hex (some 2) (some 1) = some file ∧
      ∀ addr, readmem (mem.withWords (fun _ => List.replicate 5 .x) fun _ => rfl) .hex (some 2)
          (some 1) file addr =
        if 1 ≤ addr ∧ addr ≤ 2 then mem.word addr else List.replicate 5 .x := by
  intro mem
  refine readmem_writemem mem .hex ?_ ?_ ?_ (fun _ => List.replicate 5 .x) fun _ => rfl
  · rintro start ⟨rfl⟩
    exact ⟨by decide, by decide⟩
  · rintro stop ⟨rfl⟩
    exact ⟨by decide, by decide⟩
  · intro _ addr _ idx
    change UnmixedDigit (((if addr = 2 then [.one, .zero, .one, .one, .x]
      else List.replicate 5 .z : Vector4).drop (4 * idx)).take 4)
    split_ifs
    · match idx with
      | 0 => exact Or.inl (by decide)
      | 1 => exact Or.inr (Or.inl (by decide))
      | idx + 2 =>
        rw [List.drop_eq_nil_of_le (by simp only [List.length_cons, List.length_nil]; omega)]
        exact Or.inl (by simp)
    · refine Or.inr (Or.inr fun b hb => ?_)
      exact List.eq_of_mem_replicate (List.mem_of_mem_drop (List.mem_of_mem_take hb))

end Icarus.Vpi
