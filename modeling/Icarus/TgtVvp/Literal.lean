import Mathlib.Data.List.TakeWhile
import Icarus.TgtVvp.Number
import Icarus.Verinum.Text

/-!
# Literal strings

`draw_string_vec4` collects the bytes of a string, four of them for an
instruction. A byte comes from a plain `char`, which is signed, so one from 0x80
on fills the word above it with ones.
-/

namespace Icarus.TgtVvp

open Icarus.Vvp Icarus.Verinum

/-- `process_octal_codes`: the bytes that the text of a string stands for. An escape that the text
breaks off is read past its end. -/
def processOctalCodes (text : Str) (width : Nat) : Option (List Byte) :=
  if width / 8 = text.length then some text else decode text
where
  /-- The loop over the text. -/
  decode : Str → Option (List Byte)
    | [] => some []
    | ch :: text =>
      if ch = 92 then
        match text with
        | d2 :: d1 :: d0 :: rest =>
          (decode rest).map (((d2 - 48) * 64 + (d1 - 48) * 8 + (d0 - 48)) :: ·)
        | _ => none
      else (decode text).map (ch :: ·)

/-- The variables of `draw_string_vec4`, and what is written. -/
structure DrawString where
  /-- `tmp`. -/
  tmp : BitVec 64
  /-- `tmp_wid`. -/
  tmpWid : Nat
  /-- `push_flag`. -/
  pushFlag : Bool
  /-- The instructions written. -/
  out : List Instr

/-- The body of the loop for a byte. -/
def DrawString.byte (s : DrawString) (p : Byte) : DrawString :=
  let tmp := (s.tmp <<< 8) ||| p.signExtend 64
  let tmpWid := s.tmpWid + 8
  if tmpWid = 32 then
    { tmp := 0, tmpWid := 0, pushFlag := true
      out := s.out ++ (.pushi tmp 0 32 :: if s.pushFlag then [.concat] else []) }
  else { s with tmp := tmp, tmpWid := tmpWid }

/-- `draw_string_vec4` for the text and the width of a string; bytes that are not there are read past
the end of the buffer. -/
def drawString (text : Str) (wid : Nat) : Option (List Instr) :=
  (processOctalCodes text wid).bind fun fp =>
    let count := (wid + 7) / 8
    -- the buffer ends with a zero
    if count ≤ fp.length + 1 then
      let s := ((fp ++ [0]).take count).foldl DrawString.byte ⟨0, 0, false, []⟩
      some (if s.tmpWid > 0 then
        s.out ++ (.pushi s.tmp 0 s.tmpWid :: if s.pushFlag then [.concat] else []) else s.out)
    else none

/-- The text of a string constant, as `as_string` writes it and as a C string keeps it. -/
def textOf (isprint : Byte → Bool) (bytes : List Byte) : Str :=
  (bytes.flatMap (writeByte isprint)).takeWhile (· ≠ 0)

/-- The bits of a string, the last byte first. -/
def stringBits (bytes : List Byte) : Vector4 :=
  bytes.reverse.flatMap fun b => Vector4.ofNat 8 b.toNat

/-! ## The text -/

section Text

variable {isprint : Byte → Bool}

/-- No byte of the text is 0, so nothing is cut. -/
theorem textOf_eq (hprint : isprint 0 = false) (bytes : List Byte) :
    textOf isprint bytes = bytes.flatMap (writeByte isprint) := by
  rw [textOf, List.takeWhile_eq_self_iff]
  intro c hc
  obtain ⟨b, -, hb⟩ := List.mem_flatMap.mp hc
  rw [writeByte] at hb
  rw [decide_eq_true_eq]
  split_ifs at hb with hescape
  · have hdigits : ∀ d : Byte, 48 + d / 64 ≠ 0 ∧ 48 + d / 8 % 8 ≠ 0 ∧ 48 + d % 8 ≠ 0 := by decide
    obtain ⟨hhigh, hmid, hlow⟩ := hdigits b
    rcases List.mem_cons.mp hb with rfl | hb
    · decide
    rcases List.mem_cons.mp hb with rfl | hb
    · exact hhigh
    rcases List.mem_cons.mp hb with rfl | hb
    · exact hmid
    · exact List.mem_singleton.mp hb ▸ hlow
  · rintro rfl
    refine hescape (Or.inr (Or.inr ?_))
    rw [← List.mem_singleton.mp hb, hprint]
    exact Bool.false_ne_true

/-- The octal codes give the bytes back. -/
theorem decode_flatMap (bytes : List Byte) :
    processOctalCodes.decode (bytes.flatMap (writeByte isprint)) = some bytes := by
  induction bytes with
  | nil => rfl
  | cons b bytes ih =>
    have hvalue : ∀ c : Byte, (48 + c / 64 - 48) * 64 + (48 + c / 8 % 8 - 48) * 8 +
        (48 + c % 8 - 48) = c := by decide
    rw [List.flatMap_cons, writeByte]
    split_ifs with hescape
    · rw [List.cons_append, List.cons_append, List.cons_append, List.singleton_append,
        processOctalCodes.decode, if_pos rfl, ih, Option.map_some, hvalue]
    · have hplain : b ≠ 92 := fun h => hescape (Or.inr (Or.inl h))
      rw [List.singleton_append, processOctalCodes.decode.eq_def]
      dsimp only
      rw [if_neg hplain, ih, Option.map_some]

/-- A text of one byte for each is the bytes. -/
theorem eq_of_length_flatMap (bytes : List Byte) :
    bytes.length ≤ (bytes.flatMap (writeByte isprint)).length ∧
      (bytes.length = (bytes.flatMap (writeByte isprint)).length →
        bytes.flatMap (writeByte isprint) = bytes) := by
  induction bytes with
  | nil => exact ⟨Nat.le_refl _, fun _ => rfl⟩
  | cons b bytes ih =>
    obtain ⟨hle, heq⟩ := ih
    rw [List.flatMap_cons, List.length_append, List.length_cons, writeByte]
    split_ifs with hescape
    · rw [List.length_cons, List.length_cons, List.length_cons, List.length_singleton]
      exact ⟨by omega, fun hlen => by omega⟩
    · rw [List.length_singleton, List.singleton_append]
      exact ⟨by omega, fun hlen => by rw [heq (by omega)]⟩

/-- The text of a string is read as its bytes. -/
theorem processOctalCodes_textOf (hprint : isprint 0 = false) (bytes : List Byte) :
    processOctalCodes (textOf isprint bytes) (8 * bytes.length) = some bytes := by
  rw [textOf_eq hprint, processOctalCodes, Nat.mul_div_cancel_left _ (by omega)]
  split_ifs with hlen
  · rw [(eq_of_length_flatMap bytes).2 hlen]
  · exact decode_flatMap bytes

end Text

/-! ## The bytes as numbers -/

theorem planeNat_append (plane : Bit4 → Bool) (u v : Vector4) :
    planeNat plane (u ++ v) = 2 ^ u.length * planeNat plane v + planeNat plane u := by
  induction u with
  | nil => rw [List.nil_append, planeNat, List.length_nil, Nat.pow_zero, Nat.one_mul, Nat.add_zero]
  | cons b u ih =>
    rw [List.cons_append, planeNat, ih, planeNat, List.length_cons, Nat.pow_succ]
    ring

theorem planeNat_ofNat (wid n : Nat) : planeNat aBit (Vector4.ofNat wid n) = n % 2 ^ wid := by
  refine Nat.eq_of_testBit_eq fun i => ?_
  rw [testBit_planeNat, Vector4.getElem?_ofNat, Nat.testBit_mod_two_pow]
  by_cases hi : i < wid
  · rw [if_pos hi, Option.map_some, Option.getD_some, decide_eq_true hi, Bool.true_and]
    cases n.testBit i <;> rfl
  · rw [if_neg hi, Option.map_none, Option.getD_none, decide_eq_false hi, Bool.false_and]

theorem planeNat_lt (plane : Bit4 → Bool) (v : Vector4) : planeNat plane v < 2 ^ v.length := by
  induction v with
  | nil => exact Nat.one_pos
  | cons b v ih =>
    have hlt : (plane b).toNat < 2 := Bool.toNat_lt _
    rw [planeNat, List.length_cons, Nat.pow_succ]
    omega

/-- No bit of a string is x or z. -/
theorem planeNat_stringBits (bytes : List Byte) : planeNat bBit (stringBits bytes) = 0 := by
  refine Nat.eq_of_testBit_eq fun i => ?_
  rw [testBit_planeNat, Nat.zero_testBit]
  cases hget : (stringBits bytes)[i]? with
  | none => rfl
  | some bit =>
    obtain ⟨b, -, hbit⟩ := List.mem_flatMap.mp (List.mem_of_getElem? hget)
    rcases Vector4.hasXz_eq_false.mp (Vector4.hasXz_ofNat 8 b.toNat) bit hbit with rfl | rfl
    · rfl
    · rfl

theorem stringBits_snoc (bytes : List Byte) (b : Byte) :
    stringBits (bytes ++ [b]) = Vector4.ofNat 8 b.toNat ++ stringBits bytes := by
  rw [stringBits, List.reverse_append, List.reverse_singleton, List.singleton_append,
    List.flatMap_cons, stringBits]

theorem stringBits_append (bytes more : List Byte) :
    stringBits (bytes ++ more) = stringBits more ++ stringBits bytes := by
  rw [stringBits, List.reverse_append, List.flatMap_append, stringBits, stringBits]

theorem length_stringBits (bytes : List Byte) :
    (stringBits bytes).length = 8 * bytes.length := by
  induction bytes using List.reverseRecOn with
  | nil => rfl
  | append_singleton bytes b ih =>
    rw [stringBits_snoc, List.length_append, ih, Vector4.length_ofNat, List.length_append,
      List.length_singleton]
    omega

/-! ## Bytes below 0x80 -/

/-- The bytes written are on the stack, joined, and `tmp` has those that are not written yet. -/
structure Collected (start : List Vector4) (bytes : List Byte) (s : DrawString) : Prop where
  /-- The bytes are split behind the last instruction. -/
  split : ∃ written pending, bytes = written ++ pending ∧ pending.length < 4 ∧
    s.tmp.toNat = planeNat aBit (stringBits pending) ∧ s.tmpWid = 8 * pending.length ∧
    (s.pushFlag = false → written = []) ∧
    steps s.out start = some (if s.pushFlag then stringBits written :: start else start)
  /-- Operands of 32 bits. -/
  narrow : ∀ instr ∈ s.out, instr.Narrow

section Collected

variable {start : List Vector4} {s : DrawString}

/-- A byte below 0x80 behind at most three others. -/
private theorem toNat_byte {tmp : BitVec 64} {pending : List Byte} {p : Byte}
    (htmp : tmp.toNat = planeNat aBit (stringBits pending)) (hlen : pending.length < 4)
    (hp : p < 0x80) :
    ((tmp <<< 8) ||| p.signExtend 64).toNat = planeNat aBit (stringBits (pending ++ [p])) ∧
      ((tmp <<< 8) ||| p.signExtend 64).toNat < 2 ^ 32 := by
  have hbyte : ∀ c : Byte, c < 0x80 → (c.signExtend 64).toNat = c.toNat := by decide
  have hlt : tmp.toNat < 2 ^ 24 := by
    rw [htmp]
    refine Nat.lt_of_lt_of_le (planeNat_lt aBit _) (Nat.pow_le_pow_right (by omega) ?_)
    rw [length_stringBits]
    omega
  have hsmall : p.toNat < 2 ^ 8 := p.isLt
  have hshift : tmp.toNat <<< 8 % 2 ^ 64 = 2 ^ 8 * tmp.toNat := by
    rw [Nat.shiftLeft_eq]
    omega
  have hvalue : ((tmp <<< 8) ||| p.signExtend 64).toNat = 2 ^ 8 * tmp.toNat + p.toNat := by
    rw [BitVec.toNat_or, BitVec.toNat_shiftLeft, hshift, hbyte p hp,
      ← Nat.two_pow_add_eq_or_of_lt hsmall]
  refine ⟨?_, by omega⟩
  rw [hvalue, htmp, stringBits_snoc, planeNat_append, planeNat_ofNat, Vector4.length_ofNat,
    Nat.mod_eq_of_lt hsmall]

/-- The instructions that put the collected bytes on the stack. -/
theorem steps_emit {written pending : List Byte} {tmp : BitVec 64} {flag : Bool}
    {out : List Instr} (hlen : pending.length ≤ 4) (hlt : tmp.toNat < 2 ^ 32)
    (htmp : tmp.toNat = planeNat aBit (stringBits pending))
    (hflag : flag = false → written = [])
    (hrun : steps out start = some (if flag then stringBits written :: start else start)) :
    steps (out ++ (.pushi tmp 0 (8 * pending.length) :: if flag then [.concat] else [])) start =
      some (stringBits (written ++ pending) :: start) := by
  have himm : immediate tmp 0 (8 * pending.length) = stringBits pending := by
    rw [← length_stringBits]
    refine immediate_eq htmp ?_ hlt (by decide) ?_
    · rw [planeNat_stringBits]
      rfl
    · rw [length_stringBits]
      omega
  rw [steps_append, hrun, Option.bind_some]
  cases flag with
  | true =>
    rw [if_pos rfl, if_pos rfl, steps, List.foldlM_cons, Instr.step, himm, stringBits_append]
    rfl
  | false =>
    rw [if_neg Bool.false_ne_true, if_neg Bool.false_ne_true, steps_singleton, Instr.step, himm,
      hflag rfl, List.nil_append]

/-- The instructions for the collected bytes are narrow. -/
theorem narrow_emit {wid : Nat} {tmp : BitVec 64} {flag : Bool} {out : List Instr}
    (hout : ∀ instr ∈ out, instr.Narrow) (htmp : tmp.toNat < 2 ^ 32) (hwid : wid < 2 ^ 32) :
    ∀ instr ∈ out ++ (.pushi tmp 0 wid :: if flag then [.concat] else []), instr.Narrow := by
  intro instr hinstr
  rcases List.mem_append.mp hinstr with hin | hin
  · exact hout instr hin
  rcases List.mem_cons.mp hin with rfl | hin
  · exact ⟨htmp, by decide, hwid⟩
  · cases flag with
    | true =>
      rw [if_pos rfl] at hin
      rw [List.mem_singleton.mp hin]
      trivial
    | false => exact absurd hin List.not_mem_nil

/-- The fourth byte is written out with the others. -/
theorem DrawString.byte_full (p : Byte) (h : s.tmpWid + 8 = 32) :
    s.byte p = ⟨0, 0, true, s.out ++ (.pushi ((s.tmp <<< 8) ||| p.signExtend 64) 0 32 ::
      if s.pushFlag then [.concat] else [])⟩ := if_pos h

/-- Any other is kept. -/
theorem DrawString.byte_keep (p : Byte) (h : s.tmpWid + 8 ≠ 32) :
    s.byte p = ⟨(s.tmp <<< 8) ||| p.signExtend 64, s.tmpWid + 8, s.pushFlag, s.out⟩ := if_neg h

/-- A byte below 0x80 is collected. -/
theorem Collected.byte {bytes : List Byte} (h : Collected start bytes s) {p : Byte}
    (hp : p < 0x80) : Collected start (bytes ++ [p]) (s.byte p) := by
  obtain ⟨written, pending, hsplit, hlen, htmp, hwid, hflag, hrun⟩ := h.split
  obtain ⟨htmp', hlt'⟩ := toNat_byte htmp hlen hp
  have hlen' : (pending ++ [p]).length = pending.length + 1 := by
    rw [List.length_append, List.length_singleton]
  by_cases hfull : s.tmpWid + 8 = 32
  · rw [DrawString.byte_full p hfull]
    have hwid' : 8 * (pending ++ [p]).length = 32 := by omega
    have hsteps := steps_emit (by omega) hlt' htmp' hflag hrun
    rw [hwid'] at hsteps
    refine ⟨⟨bytes ++ [p], [], (List.append_nil _).symm, by decide, rfl, rfl,
      fun hfalse => absurd hfalse.symm Bool.false_ne_true, ?_⟩, ?_⟩
    · rw [hsplit, List.append_assoc, if_pos rfl]
      exact hsteps
    · exact narrow_emit h.narrow hlt' (by decide)
  · rw [DrawString.byte_keep p hfull]
    refine ⟨⟨written, pending ++ [p], ?_, by omega, htmp', ?_, hflag, hrun⟩, h.narrow⟩
    · rw [hsplit, List.append_assoc]
    · rw [hlen', hwid]
      ring

/-- So is every list of them. -/
theorem Collected.foldl {bytes more : List Byte} (h : Collected start bytes s)
    (hmore : ∀ p ∈ more, p < 0x80) :
    Collected start (bytes ++ more) (more.foldl DrawString.byte s) := by
  induction more generalizing bytes s with
  | nil => rwa [List.append_nil]
  | cons p more ih =>
    have hhead := h.byte (hmore p List.mem_cons_self)
    have htail := ih hhead fun q hq => hmore q (List.mem_cons_of_mem p hq)
    rwa [List.append_assoc, List.singleton_append] at htail

end Collected

/-! ## Other bytes -/

/-- An operand does not fit: it is written, or `tmp` has ones above the collected bits. -/
def Overfull (s : DrawString) : Prop :=
  (∃ instr ∈ s.out, ¬ instr.Narrow) ∨
    (0 < s.tmpWid ∧ ∀ i, s.tmpWid ≤ i → i < 64 → s.tmp.getLsbD i = true)

section Overfull

variable {s : DrawString}

/-- Ones above the bits of an operand do not fit in it. -/
theorem not_narrow_pushi {tmp : BitVec 64} {wid : Nat} (hwid : wid ≤ 32)
    (hones : ∀ i, wid ≤ i → i < 64 → tmp.getLsbD i = true) :
    ¬ (Instr.pushi tmp 0 wid).Narrow := by
  rintro ⟨hlt, -, -⟩
  have hbit := hones 32 hwid (by omega)
  rw [← BitVec.testBit_toNat, Nat.testBit_lt_two_pow hlt] at hbit
  exact Bool.false_ne_true hbit

/-- Fewer than four bytes are collected. -/
def Bytewise (s : DrawString) : Prop := ∃ k < 4, s.tmpWid = 8 * k

theorem Bytewise.byte (h : Bytewise s) (p : Byte) : Bytewise (s.byte p) := by
  obtain ⟨k, hk, hwid⟩ := h
  by_cases hfull : s.tmpWid + 8 = 32
  · rw [DrawString.byte_full p hfull]
    exact ⟨0, by omega, rfl⟩
  · rw [DrawString.byte_keep p hfull]
    exact ⟨k + 1, by omega, congrArg (· + 8) hwid⟩

/-- A byte from 0x80 on fills the word above it, and other bytes leave it so. -/
theorem Overfull.byte (hbytes : Bytewise s) {p : Byte} (h : Overfull s ∨ 0x80 ≤ p) :
    Overfull (s.byte p) := by
  obtain ⟨k, hk, hwid⟩ := hbytes
  have hones : (0 < s.tmpWid ∧ ∀ i, s.tmpWid ≤ i → i < 64 → s.tmp.getLsbD i = true) ∨ 0x80 ≤ p →
      ∀ i, s.tmpWid + 8 ≤ i → i < 64 →
        ((s.tmp <<< 8) ||| p.signExtend 64).getLsbD i = true := by
    rintro hcase i hle hlt
    rw [BitVec.getLsbD_or, BitVec.getLsbD_shiftLeft, decide_eq_true hlt,
      decide_eq_false (by omega : ¬ i < 8), Bool.true_and, Bool.not_false, Bool.true_and]
    rcases hcase with ⟨-, hbits⟩ | hbyte
    · rw [hbits (i - 8) (by omega) (by omega), Bool.true_or]
    · have hsign : ∀ c : Byte, 0x80 ≤ c → c.msb = true := by decide
      rw [BitVec.getLsbD_signExtend, decide_eq_true hlt, Bool.true_and,
        if_neg (by omega : ¬ i < 8), hsign p hbyte, Bool.or_true]
  have hwide : (∃ instr ∈ s.out, ¬ instr.Narrow) ∨
      ∀ i, s.tmpWid + 8 ≤ i → i < 64 → ((s.tmp <<< 8) ||| p.signExtend 64).getLsbD i = true := by
    rcases h with (hout | hpending) | hbyte
    · exact Or.inl hout
    · exact Or.inr (hones (Or.inl hpending))
    · exact Or.inr (hones (Or.inr hbyte))
  by_cases hfull : s.tmpWid + 8 = 32
  · rw [DrawString.byte_full p hfull]
    refine Or.inl ?_
    rcases hwide with ⟨instr, hin, hnot⟩ | hbits
    · exact ⟨instr, List.mem_append_left _ hin, hnot⟩
    · refine ⟨_, List.mem_append_right _ List.mem_cons_self, ?_⟩
      exact not_narrow_pushi (Nat.le_refl 32) (hfull ▸ hbits)
  · rw [DrawString.byte_keep p hfull]
    rcases hwide with hout | hbits
    · exact Or.inl hout
    · exact Or.inr ⟨Nat.succ_pos _, hbits⟩

/-- A list of bytes with one from 0x80 on overfills an operand. -/
theorem Overfull.foldl {bytes : List Byte} (hbytes : Bytewise s)
    (h : Overfull s ∨ ∃ p ∈ bytes, 0x80 ≤ p) :
    Bytewise (bytes.foldl DrawString.byte s) ∧ Overfull (bytes.foldl DrawString.byte s) := by
  induction bytes generalizing s with
  | nil =>
    rcases h with h | ⟨p, hp, -⟩
    · exact ⟨hbytes, h⟩
    · exact absurd hp List.not_mem_nil
  | cons p bytes ih =>
    refine ih (hbytes.byte p) ?_
    rcases h with h | ⟨q, hq, hbyte⟩
    · exact Or.inl (Overfull.byte hbytes (Or.inl h))
    rcases List.mem_cons.mp hq with rfl | hq
    · exact Or.inl (Overfull.byte hbytes (Or.inr hbyte))
    · exact Or.inr ⟨q, hq, hbyte⟩

end Overfull

/-! ## The literals -/

section Literal

variable (undef : BitVec 64 → Nat → BitVec 64) {isprint : Byte → Bool}

/-- What is written for the bytes of a string. -/
theorem drawString_textOf (hprint : isprint 0 = false) (bytes : List Byte) :
    drawString (textOf isprint bytes) (8 * bytes.length) =
      some (let s := bytes.foldl DrawString.byte ⟨0, 0, false, []⟩
        if s.tmpWid > 0 then
          s.out ++ (.pushi s.tmp 0 s.tmpWid :: if s.pushFlag then [.concat] else []) else s.out) := by
  have hcount : (8 * bytes.length + 7) / 8 = bytes.length := by omega
  rw [drawString, processOctalCodes_textOf hprint, Option.bind_some]
  dsimp only
  rw [hcount, if_pos (Nat.le_succ _), List.take_left]

/-- A string is drawn exactly if its bytes are below 0x80. -/
theorem drawString_iff (hprint : isprint 0 = false) {bytes : List Byte} (hne : bytes ≠ [])
    (stack : List Planes) :
    (∃ code, drawString (textOf isprint bytes) (8 * bytes.length) = some code ∧
        Draws undef code (stringBits bytes) false stack) ↔ ∀ p ∈ bytes, p < 0x80 := by
  rw [drawString_textOf hprint]
  obtain ⟨s, hs⟩ : ∃ s, s = bytes.foldl DrawString.byte ⟨0, 0, false, []⟩ := ⟨_, rfl⟩
  dsimp only
  rw [← hs]
  constructor
  · rintro ⟨code, hcode, -, hnarrow⟩ p hp
    by_contra hbyte
    obtain ⟨⟨k, hk, hwid⟩, hover⟩ := Overfull.foldl (s := ⟨0, 0, false, []⟩) ⟨0, by omega, rfl⟩
      (Or.inr ⟨p, hp, BitVec.not_lt.mp hbyte⟩)
    rw [← hs] at hwid hover
    rw [← Option.some.inj hcode] at hnarrow
    rcases hover with ⟨instr, hin, hnot⟩ | ⟨hpos, hones⟩
    · refine hnot (hnarrow instr ?_)
      by_cases hpos : s.tmpWid > 0
      · rw [if_pos hpos]
        exact List.mem_append_left _ hin
      · rwa [if_neg hpos]
    · rw [if_pos hpos] at hnarrow
      refine not_narrow_pushi (by omega) hones (hnarrow _ ?_)
      exact List.mem_append_right _ List.mem_cons_self
  · intro hbytes
    refine ⟨_, rfl, ?_⟩
    have hfirst : Collected (stack.map Planes.toVector4) [] ⟨0, 0, false, []⟩ :=
      ⟨⟨[], [], rfl, by decide, rfl, rfl, fun _ => rfl, rfl⟩,
        fun instr h => absurd h List.not_mem_nil⟩
    have hlast := hfirst.foldl hbytes
    rw [← hs, List.nil_append] at hlast
    obtain ⟨written, pending, hsplit, hlen, htmp, hwid, hflag, hrun⟩ := hlast.split
    by_cases hpos : s.tmpWid > 0
    · have hlt : s.tmp.toNat < 2 ^ 32 := by
        rw [htmp]
        refine Nat.lt_of_lt_of_le (planeNat_lt aBit _) (Nat.pow_le_pow_right (by omega) ?_)
        rw [length_stringBits]
        omega
      have hsteps := steps_emit (by omega) hlt htmp hflag hrun
      have hwidlt : s.tmpWid < 2 ^ 32 := by omega
      rw [← hwid, ← hsplit] at hsteps
      rw [if_pos hpos]
      exact draws_of_steps undef hsteps (narrow_emit hlast.narrow hlt hwidlt)
    · have hnil : pending = [] := List.eq_nil_of_length_eq_zero (by omega)
      rw [hnil, List.append_nil] at hsplit
      have hpushed : s.pushFlag = true := by
        by_contra hnot
        exact hne (hsplit.trans (hflag (Bool.not_eq_true _ ▸ hnot)))
      rw [if_pos hpushed, ← hsplit] at hrun
      rw [if_neg hpos]
      exact draws_of_steps undef hrun hlast.narrow

/-- Numbers are drawn exactly if no part of them is longer than an integer counts, and strings
exactly if their bytes are below 0x80. -/
theorem drawLiteral_iff (hprint : isprint 0 = false) (stack : List Planes) :
    (∀ (bits : Vector4) (asConcati : Bool), bits ≠ [] → (asConcati = true → stack ≠ []) →
      ((∃ code, drawConcatNumber bits asConcati = some code ∧
        Draws undef code bits asConcati stack) ↔ ShortParts 0 0 bits.reverse)) ∧
    ∀ bytes : List Byte, bytes ≠ [] →
      ((∃ code, drawString (textOf isprint bytes) (8 * bytes.length) = some code ∧
        Draws undef code (stringBits bytes) false stack) ↔ ∀ p ∈ bytes, p < 0x80) :=
  ⟨fun _ _ hne hstack => drawConcatNumber_iff undef hne hstack,
    fun _ hne => drawString_iff undef hprint hne stack⟩

end Literal

/-- `isprint` of the C locale. -/
def isprintC (c : Byte) : Bool := 32 ≤ c ∧ c ≤ 126

/-- Forty ones, and a string of five letters. -/
theorem drawLiteral_iff_two_parts :
    (∃ code, drawConcatNumber (List.replicate 40 .one) false = some code ∧
      Draws (fun _ _ => 0) code (List.replicate 40 .one) false []) ∧
    ∃ code, drawString (textOf isprintC [118, 118, 112, 46, 99]) 40 = some code ∧
      Draws (fun _ _ => 0) code (stringBits [118, 118, 112, 46, 99]) false [] := by
  obtain ⟨hnumber, hstring⟩ :=
    drawLiteral_iff (fun _ _ => 0) (by decide : isprintC 0 = false) []
  constructor
  · refine (hnumber _ false (by decide) (fun h => absurd h Bool.false_ne_true)).mpr ?_
    exact shortParts_of_length (by decide)
  · exact (hstring [118, 118, 112, 46, 99] (by decide)).mpr (by decide)

/-- A letter and a byte of 0x80: the word has ones above its sixteen bits. -/
theorem not_drawLiteral : ¬ ∀ (undef : BitVec 64 → Nat → BitVec 64) (isprint : Byte → Bool)
    (stack : List Planes), isprint 0 = false →
    (∀ (bits : Vector4) (asConcati : Bool), bits ≠ [] → (asConcati = true → stack ≠ []) →
      ∃ code, drawConcatNumber bits asConcati = some code ∧
        Draws undef code bits asConcati stack) ∧
    ∀ bytes : List Byte, bytes ≠ [] →
      ∃ code, drawString (textOf isprint bytes) (8 * bytes.length) = some code ∧
        Draws undef code (stringBits bytes) false stack := by
  intro h
  obtain ⟨-, hstring⟩ := h (fun _ _ => 0) isprintC [] (by decide)
  obtain ⟨code, hcode, -, hnarrow⟩ := hstring [0x61, 0x80] (by decide)
  have hpushed : drawString (textOf isprintC [0x61, 0x80]) (8 * 2) =
      some [.pushi 0xFFFFFFFFFFFFFF80 0 16] := by decide
  rw [← Option.some.inj (hpushed.symm.trans hcode)] at hnarrow
  exact absurd (hnarrow _ List.mem_cons_self).1 (by decide)

end Icarus.TgtVvp
