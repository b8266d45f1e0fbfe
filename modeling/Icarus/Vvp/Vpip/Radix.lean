import Icarus.Vvp.Vpip.FromDecimal
import Icarus.Vvp.Vpip.ToDecimal

/-!
# Vectors as hexadecimal and octal text

Both texts have a digit for each few bits, with letters for X and Z bits. The functions for
the two bases differ in the number of bits of a digit and in the tables of the digits.
-/

namespace Icarus.Vvp.Vpip

/-- The two bits of a value in a table of digits. -/
def tableBits : Bit4 → Nat
  | .zero => 0
  | .one => 1
  | .x => 2
  | .z => 3

/-- The number of bits of a digit of a table entry that have some value. -/
def tableCount (bits idx val : Nat) : Nat :=
  ((List.range bits).filter fun bdx => idx >>> (bdx * 2) % 4 = val).length

/-- A table of digits. -/
def digitTable (bits : Nat) (digits : List Char) (idx : Nat) : Char :=
  let bv := ((List.range bits).map fun bdx => if idx >>> (bdx * 2) % 4 = 1 then 2 ^ bdx else 0).sum
  if tableCount bits idx 3 = bits then 'z'
  else if tableCount bits idx 2 = bits then 'x'
  else if tableCount bits idx 3 > 0 ∧ tableCount bits idx 2 = 0 then 'Z'
  else if tableCount bits idx 2 > 0 then 'X'
  else digits.getD bv ' '

/-- `hex_digits`. -/
def hexDigits : Nat → Char := digitTable 4 "0123456789abcdef".toList

/-- `oct_digits`. -/
def octDigits : Nat → Char := digitTable 3 "01234567".toList

/-- A digit of X or Z bits only, where the last digit has fewer bits than others. -/
def hexFill (size val : Nat) : Nat :=
  match size % 4 with
  | 1 => if val = 2 then 170 else if val = 3 then 255 else val
  | 2 => if val = 10 then 170 else if val = 15 then 255 else val
  | 3 => if val = 42 then 170 else if val = 63 then 255 else val
  | _ => val

/-- A digit of X or Z bits only, where the last digit has fewer bits than others. -/
def octFill (size val : Nat) : Nat :=
  match size % 3 with
  | 1 => if val = 2 then 42 else if val = 3 then 63 else val
  | 2 => if val = 10 then 42 else if val = 15 then 63 else val
  | _ => val

/-- The state of the loop over the bits of a vector. -/
structure RadixState where
  /-- The place of the last digit in the text. -/
  slen : Nat
  /-- The text from that place on. -/
  text : List Char
  /-- The bits of the next digit. -/
  val : Nat

/-- Write a digit; none where there is no place for it. -/
def writeRadix (digits : Nat → Char) (s : RadixState) (val : Nat) : Option RadixState :=
  if s.slen = 0 then none else some ⟨s.slen - 1, digits val :: s.text, 0⟩

/-- The loop over the bits, with the number of the bit. -/
def radixLoop (bits : Nat) (digits : Nat → Char) : Nat → RadixState → Vector4 → Option RadixState
  | _, s, [] => some s
  | idx, s, b :: v =>
    let vs := idx % bits * 2
    let val := s.val ||| tableBits b <<< vs
    if vs = (bits - 1) * 2 then
      (writeRadix digits s val).bind fun s => radixLoop bits digits (idx + 1) s v
    else radixLoop bits digits (idx + 1) { s with val := val } v

/-- The text of a vector; none where the buffer is too short, or the text has no place in it. -/
def vec4ToRadixStr (bits : Nat) (digits : Nat → Char) (fill : Nat → Nat → Nat) (v : Vector4)
    (nbuf : Nat) : Option (List Char) :=
  let slen := (v.length + (bits - 1)) % 2 ^ 32 / bits
  if slen < nbuf then
    (radixLoop bits digits 0 ⟨slen, [], 0⟩ v).bind fun s =>
      let val := fill v.length s.val
      (if s.slen > 0 then writeRadix digits s val else some s).bind fun s =>
        if s.slen = 0 then some s.text else none
  else none

/-- `vpip_vec4_to_hex_str`. -/
def vec4ToHexStr : Vector4 → Nat → Option (List Char) := vec4ToRadixStr 4 hexDigits hexFill

/-- `vpip_vec4_to_oct_str`. -/
def vec4ToOctStr : Vector4 → Nat → Option (List Char) := vec4ToRadixStr 3 octDigits octFill

/-- The value of a character of a hexadecimal text. -/
def hexValue (ch : Char) : Option Nat :=
  if '0' ≤ ch ∧ ch ≤ '9' then some (ch.toNat - '0'.toNat)
  else if 'a' ≤ ch ∧ ch ≤ 'f' then some (ch.toNat - 'a'.toNat + 10)
  else if 'A' ≤ ch ∧ ch ≤ 'F' then some (ch.toNat - 'A'.toNat + 10)
  else none

/-- The value of a character of an octal text. -/
def octValue (ch : Char) : Option Nat :=
  if '0' ≤ ch ∧ ch ≤ '7' then some (ch.toNat - '0'.toNat) else none

/-- The bits of a character; none where it is no digit. -/
def charBits (bits : Nat) (value : Char → Option Nat) (ch : Char) : Option Vector4 :=
  if ch = 'x' ∨ ch = 'X' then some (List.replicate bits .x)
  else if ch = 'z' ∨ ch = 'Z' then some (List.replicate bits .z)
  else (value ch).map (Vector4.ofNat bits)

/-- Read some digits of a text from its end on, past the underscores: none where the text is
too short or has a minus sign before the digits, no vector where there is no digit. -/
def radixDigits (bits : Nat) (value : Char → Option Nat) :
    Nat → List Char → Option (Option Vector4)
  | 0, _ => some (some [])
  | _ + 1, [] => none
  | n + 1, ch :: rest =>
    if ch = '_' then radixDigits bits value (n + 1) rest
    else if ch = '-' then none
    else match charBits bits value ch with
      | none => some none
      | some v => (radixDigits bits value n rest).map fun w => w.map (v ++ ·)

/-- Set a vector of some width from a text, up to its length in an unsigned number. -/
def radixStrToVec4 (bits : Nat) (value : Char → Option Nat) (size : Nat) (str : List Char) :
    Option Vector4 :=
  let skipChars := (str.filter fun ch => ch = '-' ∨ ch = '_').length
  let tsize := bits * (str.length - skipChars) % 2 ^ 32
  let strLen := str.length % 2 ^ 32
  (radixDigits bits value ((tsize + (bits - 1)) / bits) (str.take strLen).reverse).map fun
    | none => List.replicate size .x
    | some digits =>
      let tval : Vector4 := digits.take tsize
      let isNegative := str.head? = some '-'
      let tval := if isNegative then tval.invert.addInt 1 else tval
      let pad : Bit4 := match tval.getLastD .x with
        | .x => .x
        | .z => .z
        | .one => if isNegative then .one else .zero
        | .zero => .zero
      (tval ++ List.replicate (size - tsize) pad).take size

/-- `vpip_hex_str_to_vec4`. -/
def hexStrToVec4 : Nat → List Char → Option Vector4 := radixStrToVec4 4 hexValue

/-- `vpip_oct_str_to_vec4`. -/
def octStrToVec4 : Nat → List Char → Option Vector4 := radixStrToVec4 3 octValue

/-! ## Tables -/

/-- The index of bits in a table of digits. -/
def spread : Vector4 → Nat
  | [] => 0
  | b :: v => tableBits b + 4 * spread v

theorem spread_append (u v : Vector4) : spread (u ++ v) = spread u + 4 ^ u.length * spread v := by
  induction u with
  | nil => rw [List.nil_append, spread, List.length_nil, Nat.pow_zero, Nat.one_mul, Nat.zero_add]
  | cons b u ih =>
    rw [List.cons_append, spread, ih, spread, List.length_cons, Nat.pow_succ]
    ring

theorem spread_zeros (w : Vector4) (n : Nat) : spread (w ++ List.replicate n .zero) = spread w := by
  have hzeros : spread (List.replicate n .zero) = 0 := by
    induction n with
    | zero => rfl
    | succ n ih => rw [List.replicate_succ, spread, ih]; rfl
  rw [spread_append, hzeros, Nat.mul_zero, Nat.add_zero]

theorem spread_lt (v : Vector4) : spread v < 4 ^ v.length := by
  induction v with
  | nil => exact Nat.one_pos
  | cons b v ih =>
    have hb : tableBits b < 4 := by cases b <;> decide
    rw [spread, List.length_cons, Nat.pow_succ]
    omega

/-- One more bit of a digit. -/
theorem spread_concat (u : Vector4) (b : Bit4) :
    spread u ||| tableBits b <<< (u.length * 2) = spread (u ++ [b]) := by
  have hlt : spread u < 2 ^ (u.length * 2) := by
    rw [Nat.mul_comm, Nat.pow_mul]
    exact spread_lt u
  rw [Nat.or_comm, ← Nat.shiftLeft_add_eq_or_of_lt hlt, Nat.shiftLeft_eq, spread_append, spread,
    spread, Nat.mul_comm u.length 2, Nat.pow_mul]
  ring

/-- What a base needs of its tables: a digit of zeros and ones is read as its bits. -/
structure Reads (bits : Nat) (digits : Nat → Char) (fill : Nat → Nat → Nat)
    (value : Char → Option Nat) : Prop where
  /-- A digit has bits. -/
  pos : 0 < bits
  /-- A digit is read as its bits. -/
  read : ∀ w : Vector4, w.hasXz = false → w.length = bits →
    charBits bits value (digits (spread w)) = some w ∧ digits (spread w) ∉ ['_', '-']
  /-- A digit with fewer bits is left as it is. -/
  fill : ∀ (w : Vector4) (size : Nat), w.hasXz = false → size % bits = w.length →
    fill size (spread w) = spread w

/-- Vectors of zeros and ones are those of their numbers. -/
theorem forall_known {n : Nat} {p : Vector4 → Prop} (h : ∀ k < 2 ^ n, p (Vector4.ofNat n k))
    {w : Vector4} (hw : w.hasXz = false) (hlen : w.length = n) : p w := by
  rw [← Vector4.ofNat_toNat hw, hlen]
  exact h _ (hlen ▸ Vector4.toNat_lt w)

theorem hex_reads : Reads 4 hexDigits hexFill hexValue where
  pos := by decide
  read _ hw hlen := forall_known (p := fun w => charBits 4 hexValue (hexDigits (spread w)) = some w ∧
    hexDigits (spread w) ∉ ['_', '-']) (by decide) hw hlen
  fill w size hw hsize := by
    have hlt : w.length < 4 := hsize ▸ Nat.mod_lt _ (by decide)
    rw [hexFill, hsize]
    obtain ⟨l, hl⟩ : ∃ l, w.length = l := ⟨_, rfl⟩
    rw [hl] at hlt ⊢
    interval_cases l
    · rfl
    · exact forall_known (p := fun w => (if spread w = 2 then 170 else if spread w = 3 then 255
        else spread w) = spread w) (by decide) hw hl
    · exact forall_known (p := fun w => (if spread w = 10 then 170 else if spread w = 15 then 255
        else spread w) = spread w) (by decide) hw hl
    · exact forall_known (p := fun w => (if spread w = 42 then 170 else if spread w = 63 then 255
        else spread w) = spread w) (by decide) hw hl

theorem oct_reads : Reads 3 octDigits octFill octValue where
  pos := by decide
  read _ hw hlen := forall_known (p := fun w => charBits 3 octValue (octDigits (spread w)) = some w ∧
    octDigits (spread w) ∉ ['_', '-']) (by decide) hw hlen
  fill w size hw hsize := by
    have hlt : w.length < 3 := hsize ▸ Nat.mod_lt _ (by decide)
    rw [octFill, hsize]
    obtain ⟨l, hl⟩ : ∃ l, w.length = l := ⟨_, rfl⟩
    rw [hl] at hlt ⊢
    interval_cases l
    · rfl
    · exact forall_known (p := fun w => (if spread w = 2 then 42 else if spread w = 3 then 63
        else spread w) = spread w) (by decide) hw hl
    · exact forall_known (p := fun w => (if spread w = 10 then 42 else if spread w = 15 then 63
        else spread w) = spread w) (by decide) hw hl

/-! ## Groups of bits -/

/-- A vector in groups of the bits of a digit, the last one maybe with fewer bits. -/
inductive Grouped (bits : Nat) : Vector4 → List Vector4 → Prop
  | nil : Grouped bits [] []
  | last {w : Vector4} (hne : w ≠ []) (hlen : w.length < bits) : Grouped bits w [w]
  | group {w v : Vector4} {ws : List Vector4} (hlen : w.length = bits) (hv : Grouped bits v ws) :
      Grouped bits (w ++ v) (w :: ws)

variable {bits : Nat} {digits : Nat → Char} {fill : Nat → Nat → Nat} {value : Char → Option Nat}
  {v : Vector4} {ws : List Vector4}

theorem exists_grouped (hpos : 0 < bits) (v : Vector4) : ∃ ws, Grouped bits v ws := by
  obtain ⟨n, hn⟩ : ∃ n, v.length = n := ⟨_, rfl⟩
  induction n using Nat.strongRecOn generalizing v with
  | ind n ih =>
    by_cases hlt : v.length < bits
    · cases v with
      | nil => exact ⟨[], .nil⟩
      | cons b v => exact ⟨[b :: v], .last (List.cons_ne_nil _ _) hlt⟩
    · have hdrop : (v.drop bits).length < n := by
        rw [List.length_drop]
        omega
      obtain ⟨ws, hws⟩ := ih _ hdrop (v.drop bits) rfl
      have htake : (v.take bits).length = bits := by
        rw [List.length_take]
        omega
      refine ⟨v.take bits :: ws, ?_⟩
      have hgroup := Grouped.group htake hws
      rwa [List.take_append_drop] at hgroup

/-- The number of groups. -/
theorem Grouped.length_eq (h : Grouped bits v ws) (hpos : 0 < bits) :
    (v.length + (bits - 1)) / bits = ws.length := by
  induction h with
  | nil => exact Nat.div_eq_of_lt (by rw [List.length_nil]; omega)
  | @last w hne hlen =>
    have hw : 0 < w.length := List.length_pos_of_ne_nil hne
    rw [List.length_singleton]
    exact Nat.div_eq_of_lt_le (by omega) (by omega)
  | @group w v ws hlen hv ih =>
    rw [List.length_append, hlen, Nat.add_assoc, Nat.add_div_left _ hpos, ih, List.length_cons]

/-! ## Writing -/

variable {idx : Nat} {s : RadixState}

/-- Bits of a digit that is not full. -/
theorem radixLoop_part {u w : Vector4} (hidx : idx % bits = u.length)
    (hroom : u.length + w.length < bits) :
    radixLoop bits digits idx { s with val := spread u } w =
      some { s with val := spread (u ++ w) } := by
  induction w generalizing idx u with
  | nil => rw [List.append_nil]; rfl
  | cons b w ih =>
    rw [List.length_cons] at hroom
    have hnext : (idx + 1) % bits = (u ++ [b]).length := by
      rw [Nat.add_mod, hidx, Nat.mod_eq_of_lt (show 1 < bits by omega),
        Nat.mod_eq_of_lt (by omega), List.length_append, List.length_singleton]
    rw [radixLoop, hidx]
    simp only [spread_concat]
    rw [if_neg (by omega), ih hnext (by rw [List.length_append, List.length_singleton]; omega),
      List.append_assoc, List.singleton_append]

/-- Bits that make a digit full. -/
theorem radixLoop_full {u w : Vector4} (hidx : idx % bits = u.length) (hne : w ≠ [])
    (hfull : u.length + w.length = bits) (v : Vector4) :
    radixLoop bits digits idx { s with val := spread u } (w ++ v) =
      (writeRadix digits s (spread (u ++ w))).bind fun s =>
        radixLoop bits digits (idx + w.length) s v := by
  induction w generalizing idx u with
  | nil => exact absurd rfl hne
  | cons b w ih =>
    rw [List.length_cons] at hfull
    rw [List.cons_append, radixLoop, hidx]
    simp only [spread_concat]
    by_cases hw : w = []
    · rw [hw, List.length_nil] at hfull
      rw [if_pos (by omega), hw]
      rfl
    · have hpos : 0 < w.length := List.length_pos_of_ne_nil hw
      have hnext : (idx + 1) % bits = (u ++ [b]).length := by
        rw [Nat.add_mod, hidx, Nat.mod_eq_of_lt (show 1 < bits by omega),
          Nat.mod_eq_of_lt (by omega), List.length_append, List.length_singleton]
      rw [if_neg (by omega), ih hnext hw (by rw [List.length_append, List.length_singleton]; omega),
        List.append_assoc, List.singleton_append, List.length_cons, Nat.add_assoc idx,
        Nat.add_comm 1]

/-- The digits of the groups, from the last one on. -/
def groupText (digits : Nat → Char) (ws : List Vector4) : List Char :=
  (ws.map fun w => digits (spread w)).reverse

/-- The loop and the last digit write a digit for each group. -/
theorem radixLoop_spec (hreads : Reads bits digits fill value) (h : Grouped bits v ws)
    (hv : v.hasXz = false) {size : Nat} (hsize : size % bits = v.length % bits)
    (hidx : idx % bits = 0) (text : List Char) :
    ((radixLoop bits digits idx ⟨ws.length, text, 0⟩ v).bind fun s =>
      (if s.slen > 0 then writeRadix digits s (fill size s.val) else some s).bind fun s =>
        if s.slen = 0 then some s.text else none) = some (groupText digits ws ++ text) := by
  induction h generalizing idx text with
  | nil => rfl
  | @last w hne hlen =>
    have hroom : ([] : Vector4).length + w.length < bits := (Nat.zero_add _).trans_lt hlen
    have hpart : radixLoop bits digits idx ⟨1, text, spread []⟩ w =
        some ⟨1, text, spread ([] ++ w)⟩ := radixLoop_part (s := ⟨1, text, 0⟩) hidx hroom
    have hzero : spread [] = 0 := rfl
    rw [Nat.mod_eq_of_lt hlen] at hsize
    rw [List.nil_append, hzero] at hpart
    rw [List.length_singleton, hpart, Option.bind_some, if_pos Nat.zero_lt_one,
      hreads.fill w size hv hsize]
    rfl
  | @group w v ws hlen hgrouped ih =>
    have hknown := Vector4.hasXz_eq_false.mp hv
    have hv' : Vector4.hasXz v = false :=
      Vector4.hasXz_eq_false.mpr fun b hb => hknown b (List.mem_append_right _ hb)
    have hne : w ≠ [] := List.ne_nil_of_length_pos (hlen ▸ hreads.pos)
    have hroom : ([] : Vector4).length + w.length = bits := (Nat.zero_add _).trans hlen
    have hfull : radixLoop bits digits idx ⟨ws.length + 1, text, spread []⟩ (w ++ v) =
        (writeRadix digits ⟨ws.length + 1, text, 0⟩ (spread ([] ++ w))).bind fun s =>
          radixLoop bits digits (idx + w.length) s v :=
      radixLoop_full (s := ⟨ws.length + 1, text, 0⟩) hidx hne hroom v
    have hzero : spread [] = 0 := rfl
    rw [List.nil_append, hzero] at hfull
    have hnext : (idx + w.length) % bits = 0 := by rw [hlen, Nat.add_mod_right, hidx]
    rw [List.length_append, hlen, Nat.add_mod_left] at hsize
    have hrest := ih hv' hsize hnext (digits (spread w) :: text)
    rw [List.length_cons, hfull]
    refine Eq.trans ?_ (hrest.trans ?_)
    · rfl
    · rw [groupText, groupText, List.map_cons, List.reverse_cons, List.append_assoc,
        List.singleton_append]

/-- The text of a vector. -/
theorem vec4ToRadixStr_spec (hreads : Reads bits digits fill value) (h : Grouped bits v ws)
    (hv : v.hasXz = false) (hsize : v.length + (bits - 1) < 2 ^ 32) {nbuf : Nat}
    (hbuf : ws.length < nbuf) :
    vec4ToRadixStr bits digits fill v nbuf = some (groupText digits ws) := by
  have hlen := h.length_eq hreads.pos
  rw [vec4ToRadixStr, Nat.mod_eq_of_lt hsize, hlen]
  simp only [hbuf, if_true]
  have hloop := radixLoop_spec hreads h hv rfl (Nat.zero_mod bits) []
  rw [List.append_nil] at hloop
  exact hloop

/-! ## Reading -/

theorem known_append {u w : Vector4} : Vector4.hasXz (u ++ w) = false ↔
    Vector4.hasXz u = false ∧ Vector4.hasXz w = false := by
  rw [Vector4.hasXz_eq_false, Vector4.hasXz_eq_false, Vector4.hasXz_eq_false,
    List.forall_mem_append]

theorem known_zeros (n : Nat) : Vector4.hasXz (List.replicate n .zero) = false :=
  Vector4.hasXz_eq_false.mpr fun _ hb => Or.inl (List.eq_of_mem_replicate hb)

/-- A digit that is read. -/
theorem radixDigits_cons {ch : Char} {w : Vector4} {n : Nat} {rest : List Char}
    (hch : ch ∉ ['_', '-']) (hread : charBits bits value ch = some w) :
    radixDigits bits value (n + 1) (ch :: rest) =
      (radixDigits bits value n rest).map fun u => u.map (w ++ ·) := by
  simp only [List.mem_cons, List.not_mem_nil, or_false, not_or] at hch
  rw [radixDigits, if_neg hch.1, if_neg hch.2, hread]

/-- The digits of the groups are read as the vector, with zeros above the last group. -/
theorem radixDigits_spec (hreads : Reads bits digits fill value) (h : Grouped bits v ws)
    (hv : v.hasXz = false) : ∃ n, v.length + n = bits * ws.length ∧
      radixDigits bits value ws.length (ws.map fun w => digits (spread w)) =
        some (some (v ++ List.replicate n .zero)) := by
  induction h with
  | nil => exact ⟨0, rfl, rfl⟩
  | @last w hne hlen =>
    have hpad : Vector4.hasXz (w ++ List.replicate (bits - w.length) .zero) = false :=
      known_append.mpr ⟨hv, known_zeros _⟩
    obtain ⟨hread, hch⟩ := hreads.read _ hpad (by
      rw [List.length_append, List.length_replicate]
      omega)
    rw [spread_zeros] at hread hch
    refine ⟨bits - w.length, by rw [List.length_singleton]; omega, ?_⟩
    rw [List.map_singleton, List.length_singleton, radixDigits_cons hch hread]
    simp [radixDigits]
  | @group w v ws hlen hgrouped ih =>
    obtain ⟨hw, hv⟩ := known_append.mp hv
    obtain ⟨n, hn, hrest⟩ := ih hv
    obtain ⟨hread, hch⟩ := hreads.read w hw hlen
    refine ⟨n, ?_, ?_⟩
    · rw [List.length_append, List.length_cons, hlen, Nat.mul_succ]
      omega
    · rw [List.map_cons, List.length_cons, radixDigits_cons hch hread, hrest, Option.map_some,
        Option.map_some, List.append_assoc]

/-- No digit of a vector is an underscore or a minus sign. -/
theorem Grouped.digits_not_mem (hreads : Reads bits digits fill value) (h : Grouped bits v ws)
    (hv : v.hasXz = false) : ∀ w ∈ ws, digits (spread w) ∉ ['_', '-'] := by
  induction h with
  | nil => exact fun w hw => absurd hw List.not_mem_nil
  | @last w hne hlen =>
    intro w' hw'
    have hpad : Vector4.hasXz (w ++ List.replicate (bits - w.length) .zero) = false :=
      known_append.mpr ⟨hv, known_zeros _⟩
    obtain ⟨-, hch⟩ := hreads.read _ hpad (by
      rw [List.length_append, List.length_replicate]
      omega)
    rw [List.mem_singleton.mp hw']
    rwa [spread_zeros] at hch
  | @group w v ws hlen hgrouped ih =>
    obtain ⟨hw, hv⟩ := known_append.mp hv
    intro w' hw'
    rcases List.mem_cons.mp hw' with rfl | hw'
    · exact (hreads.read w' hw hlen).2
    · exact ih hv w' hw'

/-- The text of a vector is read as the vector. -/
theorem radixStrToVec4_spec (hreads : Reads bits digits fill value) (h : Grouped bits v ws)
    (hv : v.hasXz = false) (hsize : v.length + (bits - 1) < 2 ^ 32) :
    radixStrToVec4 bits value v.length (groupText digits ws) = some v := by
  have hlen := h.length_eq hreads.pos
  have hpos := hreads.pos
  have hnot := h.digits_not_mem hreads hv
  obtain ⟨n, hn, hread⟩ := radixDigits_spec hreads h hv
  have htext : ∀ ch ∈ groupText digits ws, ch ∉ ['_', '-'] := by
    intro ch hch
    obtain ⟨w, hw, rfl⟩ := List.mem_map.mp (List.mem_reverse.mp hch)
    exact hnot w hw
  have hskip : ((groupText digits ws).filter fun ch => ch = '-' ∨ ch = '_') = [] := by
    refine List.filter_eq_nil_iff.mpr fun ch hch hmem => htext ch hch ?_
    rcases of_decide_eq_true hmem with rfl | rfl
    · exact List.mem_cons_of_mem _ List.mem_cons_self
    · exact List.mem_cons_self
  have htextLen : (groupText digits ws).length = ws.length := by
    rw [groupText, List.length_reverse, List.length_map]
  have hhead : ¬ (groupText digits ws).head? = some '-' := by
    intro hhead
    exact htext '-' (List.mem_of_mem_head? hhead) (List.mem_cons_of_mem _ List.mem_cons_self)
  have hsmall : bits * ws.length < 2 ^ 32 := by
    have hle := Nat.div_mul_le_self (v.length + (bits - 1)) bits
    rw [hlen, Nat.mul_comm] at hle
    omega
  have hcount : (bits * ws.length + (bits - 1)) / bits = ws.length :=
    Nat.div_eq_of_lt_le (by rw [Nat.mul_comm]; omega) (by rw [Nat.succ_mul, Nat.mul_comm]; omega)
  have hrev : (groupText digits ws).reverse = ws.map fun w => digits (spread w) :=
    List.reverse_reverse _
  have hall : (v ++ List.replicate n Bit4.zero).take (bits * ws.length) =
      v ++ List.replicate n .zero :=
    List.take_of_length_le (by rw [List.length_append, List.length_replicate, hn])
  have htake : (groupText digits ws).take (ws.length % 2 ^ 32) = groupText digits ws :=
    List.take_of_length_le (by rw [htextLen, Nat.mod_eq_of_lt (by nlinarith)])
  rw [radixStrToVec4, hskip, htextLen]
  simp only [htake, hrev, List.length_nil, Nat.sub_zero, Nat.mod_eq_of_lt hsmall, hcount, hread, Option.map_some,
    hhead, if_false, hall]
  rw [List.append_assoc, List.take_left]

/-! ## Texts of vectors, read back

A vector of zeros and ones is read back from its decimal, hexadecimal or octal text. The
decimal text is the numeral of its number, up to the width at which the conversion stops
with an assertion. -/

/-- A numeral that is not too long gives the low bits of its integer. -/
theorem decStrToVec4_numeral (size : Nat) {z : Int}
    (hshort : (decimalNumeral z).length + 1 < 2 ^ 32) :
    decStrToVec4 size (decimalNumeral z) = some (Vector4.ofInt size z) := by
  cases z with
  | ofNat n =>
    rw [decimalNumeral, decStrToVec4_toDigits size hshort]
    exact congrArg some (Vector4.ofInt_natCast size n).symm
  | negSucc n => exact decStrToVec4_minus size hshort

/-- A numeral has no more digits than its number has bits. -/
theorem length_decimalNumeral_le {z : Int} {width : Nat} (hpos : 0 < width)
    (hlt : z.natAbs < 2 ^ width) : (decimalNumeral z).length ≤ width + 1 := by
  have hpow : 2 ^ width ≤ 10 ^ width := Nat.pow_le_pow_left (by decide) width
  cases z with
  | ofNat n =>
    exact (Nat.toDigits_length 10 n width hpos (hlt.trans_le hpow)).trans (Nat.le_succ width)
  | negSucc n =>
    rw [decimalNumeral, List.length_cons]
    exact Nat.succ_le_succ (Nat.toDigits_length 10 (n + 1) width hpos (hlt.trans_le hpow))

/-- The number of a vector has no more bits than the vector. -/
theorem natAbs_shownValue_lt {v : Vector4} (hpos : 0 < v.length) (signedFlag : Bool) :
    (shownValue v signedFlag).natAbs < 2 ^ v.length := by
  cases signedFlag with
  | false => exact Vector4.toNat_lt v
  | true => exact Vector4.natAbs_toInt_lt hpos

/-- The low bits of the number of a vector are the vector. -/
theorem ofInt_shownValue {v : Vector4} (hv : v.hasXz = false) (signedFlag : Bool) :
    Vector4.ofInt v.length (shownValue v signedFlag) = v := by
  cases signedFlag with
  | false =>
    have hcast := Vector4.ofInt_natCast v.length v.toNat
    exact hcast.trans (Vector4.ofNat_toNat hv)
  | true => exact Vector4.ofInt_toInt hv

/-- A vector is read back from its text to a base with digits for groups of bits. -/
theorem radix_round_trip {bits : Nat} {digits : Nat → Char} {fill : Nat → Nat → Nat}
    {value : Char → Option Nat} (hreads : Reads bits digits fill value) {v : Vector4}
    (hv : v.hasXz = false) (hsize : v.length + (bits - 1) < 2 ^ 32) {nbuf : Nat}
    (hbuf : (v.length + (bits - 1)) / bits < nbuf) :
    ∃ text, vec4ToRadixStr bits digits fill v nbuf = some text ∧
      radixStrToVec4 bits value v.length text = some v := by
  obtain ⟨ws, hws⟩ := exists_grouped hreads.pos v
  rw [hws.length_eq hreads.pos] at hbuf
  exact ⟨groupText digits ws, vec4ToRadixStr_spec hreads hws hv hsize hbuf,
    radixStrToVec4_spec hreads hws hv hsize⟩

/-- The decimal text of a vector is the numeral of its number, written with no carry out of
the digits, and the vector is read back from its decimal, hexadecimal and octal texts. -/
theorem texts_read_back {v : Vector4} (hv : v.hasXz = false) (hne : v ≠ []) :
    (∀ signedFlag : Bool, v.length - signedFlag.toNat < (uintMax - 92) / 28 →
      vec4ToDecStr v signedFlag = some ⟨decimalNumeral (shownValue v signedFlag), false⟩ ∧
        decStrToVec4 v.length (decimalNumeral (shownValue v signedFlag)) = some v) ∧
    (∀ nbuf, v.length + 3 < 2 ^ 32 → (v.length + 3) / 4 < nbuf →
      ∃ text, vec4ToHexStr v nbuf = some text ∧ hexStrToVec4 v.length text = some v) ∧
    ∀ nbuf, v.length + 2 < 2 ^ 32 → (v.length + 2) / 3 < nbuf →
      ∃ text, vec4ToOctStr v nbuf = some text ∧ octStrToVec4 v.length text = some v := by
  refine ⟨fun signedFlag hlimit => ⟨vec4ToDecStr_spec hv hne signedFlag hlimit, ?_⟩,
    fun nbuf hsize hbuf => radix_round_trip hex_reads hv hsize hbuf,
    fun nbuf hsize hbuf => radix_round_trip oct_reads hv hsize hbuf⟩
  have hpos : 0 < v.length := List.length_pos_of_ne_nil hne
  have hlen := length_decimalNumeral_le hpos (natAbs_shownValue_lt hpos signedFlag)
  have hflag := Bool.toNat_le signedFlag
  have hmax : (uintMax - 92) / 28 < 2 ^ 31 := by norm_num [uintMax]
  rw [decStrToVec4_numeral v.length (by omega), ofInt_shownValue hv]

/-- The most negative vector of three bits. -/
theorem texts_read_back_three :
    (∀ signedFlag : Bool, 3 - signedFlag.toNat < (uintMax - 92) / 28 →
      vec4ToDecStr [.zero, .zero, .one] signedFlag =
          some ⟨decimalNumeral (shownValue [.zero, .zero, .one] signedFlag), false⟩ ∧
        decStrToVec4 3 (decimalNumeral (shownValue [.zero, .zero, .one] signedFlag)) =
          some [.zero, .zero, .one]) ∧
    (∀ nbuf, 3 + 3 < 2 ^ 32 → (3 + 3) / 4 < nbuf →
      ∃ text, vec4ToHexStr [.zero, .zero, .one] nbuf = some text ∧
        hexStrToVec4 3 text = some [.zero, .zero, .one]) ∧
    ∀ nbuf, 3 + 2 < 2 ^ 32 → (3 + 2) / 3 < nbuf →
      ∃ text, vec4ToOctStr [.zero, .zero, .one] nbuf = some text ∧
        octStrToVec4 3 text = some [.zero, .zero, .one] :=
  texts_read_back (v := [.zero, .zero, .one]) rfl (List.cons_ne_nil _ _)

/-- A vector of zeros over the limit has no decimal text. -/
theorem dec_str_over_limit :
    Vector4.hasXz (List.replicate 153391685 .zero) = false ∧
      vec4ToDecStr (List.replicate 153391685 .zero) false = none := by
  refine ⟨known_zeros _, ?_⟩
  rw [vec4ToDecStr]
  simp only [List.length_replicate, Bool.false_eq_true, if_false]
  exact if_neg (by norm_num [uintMax])

end Icarus.Vvp.Vpip
