import Icarus.Ivlpp.Formals

/-!
# The buffer of actual arguments

The texts of the actual arguments of a macro use are collected in one buffer that
grows in chunks, each text behind the zero of the one before it. A write outside
of the buffer, and a size that is no `int`, give no result.
-/

namespace Icarus.Ivlpp

/-- `def_buf` and what describes it. -/
structure ArgBuf where
  /-- The bytes of `def_buf`. -/
  mem : Nat → Fin 256
  /-- `def_buf_size`. -/
  size : Nat
  /-- `def_buf_free`. -/
  free : Nat
  /-- `def_argo`. -/
  argo : Nat → Nat
  /-- `def_argl`. -/
  argl : Nat → Nat
  /-- `def_argc`. -/
  argc : Nat

/-- The loop of `def_buf_grow_to_fit`: size and free bytes. -/
def growToFit (length size free : Nat) : Option (Nat × Nat) :=
  if _h : free ≤ length then
    if size + 256 < 2 ^ 31 then growToFit length (size + 256) (free + 256) else none
  else some (size, free)
termination_by length + 1 - free
decreasing_by omega

/-- A byte is written into the buffer. -/
def store (mem : Nat → Fin 256) (size offs : Nat) (c : Fin 256) : Option (Nat → Fin 256) :=
  if offs < size then some (Function.update mem offs c) else none

/-- `strcpy` into the buffer. -/
def strcpy (size : Nat) : (Nat → Fin 256) → Nat → CString → Option (Nat → Fin 256)
  | mem, tail, [] => store mem size tail 0
  | mem, tail, c :: text => (store mem size tail c.1).bind fun mem => strcpy size mem (tail + 1) text

namespace ArgBuf

/-- The place of the next byte. -/
def used (b : ArgBuf) : Nat := b.size - b.free

/-- `macro_start_args`. -/
def startArgs (b : ArgBuf) : Option ArgBuf := do
  let (size, _) ← growToFit 1 b.size b.free
  let mem ← store b.mem size 0 0
  return { b with
    mem := mem, size := size, free := size - 1
    argo := Function.update b.argo 0 0, argl := Function.update b.argl 0 0, argc := 1 }

/-- `macro_add_to_arg` of a text; too many arguments end the program. -/
def addToArg (b : ArgBuf) (text : CString) : Option ArgBuf :=
  if b.argc = 256 then none
  else do
    let (size, free) ← growToFit text.length b.size b.free
    let mem ← strcpy size b.mem (size - free) text
    return { b with mem := mem, size := size, free := free - text.length }

/-- The texts of the tokens of an argument. -/
def addText (b : ArgBuf) (text : CString) : Option ArgBuf :=
  if text = [] then some b else b.addToArg text

/-- `macro_finish_arg`. -/
def finishArg (b : ArgBuf) : Option ArgBuf :=
  if b.argc = 256 then none
  else do
    let offs := b.argo (b.argc - 1) + b.argl (b.argc - 1) + 1
    let tail := b.used
    let offs := if offs < tail ∧ b.mem offs = 32 then offs + 1 else offs
    let trail := if offs < tail ∧ b.mem (tail - 1) = 32 then 1 else 0
    let tail := tail - trail
    let mem ← store b.mem b.size tail 0
    return { b with
      mem := mem, free := b.free + trail - 1
      argo := Function.update b.argo b.argc offs
      argl := Function.update b.argl b.argc (tail - offs), argc := b.argc + 1 }

end ArgBuf

/-! ## Growth -/

/-- The size of a buffer that has grown until there is a byte behind an end. -/
def sizeFor (size last : Nat) : Nat :=
  if last < size then size else size + 256 * ((last - size) / 256 + 1)

theorem lt_sizeFor (size last : Nat) : last < sizeFor size last := by
  rw [sizeFor]
  split_ifs <;> omega

theorem le_sizeFor (size last : Nat) : size ≤ sizeFor size last := by
  rw [sizeFor]
  split_ifs <;> omega

/-- The buffer grows until the text and its end fit. -/
theorem growToFit_eq {length size free : Nat} (hfree : free ≤ size) (hsize : size < 2 ^ 31) :
    growToFit length size free =
      if sizeFor size (size - free + length) < 2 ^ 31 then
        some (sizeFor size (size - free + length),
          sizeFor size (size - free + length) - (size - free))
      else none := by
  induction hn : length + 1 - free using Nat.strong_induction_on generalizing size free with
  | _ n ih =>
    rw [growToFit]
    by_cases hle : free ≤ length
    · rw [dif_pos hle]
      have hstep : sizeFor (size + 256) (size + 256 - (free + 256) + length) =
          sizeFor size (size - free + length) := by
        have hused : size + 256 - (free + 256) = size - free := by omega
        rw [hused, sizeFor, sizeFor, if_neg (by omega : ¬ size - free + length < size)]
        split_ifs <;> omega
      have hgrow := le_sizeFor (size + 256) (size - free + length)
      by_cases hint : size + 256 < 2 ^ 31
      · rw [if_pos hint, ih (length + 1 - (free + 256)) (by omega) (by omega) hint rfl, hstep,
          (by omega : size + 256 - (free + 256) = size - free)]
      · rw [if_neg hint, if_neg]
        rw [← hstep, (by omega : size + 256 - (free + 256) = size - free)]
        omega
    · have hfit : sizeFor size (size - free + length) = size := by
        rw [sizeFor, if_pos (by omega)]
      rw [dif_neg hle, hfit, if_pos hsize, (by omega : size - (size - free) = free)]

theorem sizeFor_sizeFor {size last last' : Nat} (h : last ≤ last') :
    sizeFor (sizeFor size last) last' = sizeFor size last' := by
  rw [sizeFor, sizeFor, sizeFor]
  split_ifs <;> omega

theorem sizeFor_mono {size last last' : Nat} (h : last ≤ last') :
    sizeFor size last ≤ sizeFor size last' := by
  rw [← sizeFor_sizeFor h]
  exact le_sizeFor _ _

/-! ## Texts in memory -/

/-- The memory after a text and its zero have been written. -/
def writeText : (Nat → Fin 256) → Nat → CString → Nat → Fin 256
  | mem, o, [] => Function.update mem o 0
  | mem, o, c :: text => writeText (Function.update mem o c.1) (o + 1) text

/-- A text is in memory at a place. -/
def HasText (mem : Nat → Fin 256) (o : Nat) (text : CString) : Prop :=
  ∀ i c, text[i]? = some c → mem (o + i) = c.1

section Memory

variable {mem : Nat → Fin 256} {o size : Nat} {text more : CString}

theorem strcpy_eq (h : o + text.length < size) :
    strcpy size mem o text = some (writeText mem o text) := by
  induction text generalizing mem o with
  | nil => exact if_pos h
  | cons c text ih =>
    rw [List.length_cons] at h
    rw [strcpy, store, if_pos (by omega), Option.bind_some, ih (by omega), writeText]

theorem writeText_of_lt {i : Nat} (h : i < o) : writeText mem o text i = mem i := by
  induction text generalizing mem o with
  | nil => exact Function.update_of_ne (by omega) _ _
  | cons c text ih => rw [writeText, ih (by omega), Function.update_of_ne (by omega)]

theorem hasText_writeText : HasText (writeText mem o text) o text := by
  induction text generalizing mem o with
  | nil => exact fun i c h => absurd h (by simp)
  | cons d text ih =>
    intro i c h
    cases i with
    | zero =>
      obtain rfl := Option.some.inj h
      rw [writeText]
      exact (writeText_of_lt (Nat.lt_succ_self o)).trans (Function.update_self o _ _)
    | succ i =>
      rw [List.getElem?_cons_succ] at h
      rw [writeText, Nat.add_comm i, ← Nat.add_assoc]
      exact ih i c h

theorem HasText.append (htext : HasText mem o text) (hmore : HasText mem (o + text.length) more) :
    HasText mem o (text ++ more) := by
  intro i c h
  by_cases hi : i < text.length
  · rw [List.getElem?_append_left hi] at h
    exact htext i c h
  · rw [List.getElem?_append_right (by omega)] at h
    have hmem := hmore _ c h
    rwa [Nat.add_assoc, Nat.add_sub_of_le (by omega)] at hmem

/-- What is not written over stays. -/
theorem HasText.congr {mem' : Nat → Fin 256} (h : HasText mem o text)
    (heq : ∀ i < o + text.length, mem' i = mem i) : HasText mem' o text := by
  intro i c hi
  obtain ⟨hlt, -⟩ := List.getElem?_eq_some_iff.mp hi
  rw [heq _ (by omega)]
  exact h i c hi

/-- Texts one after the other are one text. -/
theorem writeText_append :
    writeText (writeText mem o text) (o + text.length) more = writeText mem o (text ++ more) := by
  induction text generalizing mem o with
  | nil =>
    rw [writeText, List.length_nil, Nat.add_zero, List.nil_append]
    cases more with
    | nil => rw [writeText, writeText, Function.update_idem]
    | cons c more => rw [writeText, writeText, Function.update_idem]
  | cons c text ih =>
    rw [writeText, List.length_cons, Nat.add_comm text.length, ← Nat.add_assoc, ih,
      List.cons_append, writeText]

end Memory

/-! ## Adding -/

namespace ArgBuf

variable {b : ArgBuf} {text more : CString}

/-- The free bytes are part of the buffer, and its size is an `int`. -/
structure Sound (b : ArgBuf) : Prop where
  /-- The free bytes. -/
  free_le : b.free ≤ b.size
  /-- The size. -/
  size_lt : b.size < 2 ^ 31

/-- A buffer with a text added. -/
def added (b : ArgBuf) (text : CString) : ArgBuf :=
  { b with
    mem := writeText b.mem b.used text
    size := sizeFor b.size (b.used + text.length)
    free := sizeFor b.size (b.used + text.length) - (b.used + text.length) }

theorem used_added : (b.added text).used = b.used + text.length := by
  have hlt := lt_sizeFor b.size (b.used + text.length)
  show sizeFor b.size (b.used + text.length) -
    (sizeFor b.size (b.used + text.length) - (b.used + text.length)) = _
  omega

/-- A text is added if the buffer can grow for it. -/
theorem addToArg_eq (hb : b.Sound) (hargc : b.argc < 256) (text : CString) :
    b.addToArg text =
      if sizeFor b.size (b.used + text.length) < 2 ^ 31 then some (b.added text) else none := by
  rw [addToArg, if_neg (Nat.ne_of_lt hargc), growToFit_eq hb.free_le hb.size_lt]
  by_cases hfits : sizeFor b.size (b.used + text.length) < 2 ^ 31
  · have hlt := lt_sizeFor b.size (b.used + text.length)
    have hused : sizeFor b.size (b.used + text.length) -
        (sizeFor b.size (b.used + text.length) - b.used) = b.used := by omega
    have hfits' : sizeFor b.size (b.size - b.free + text.length) < 2 ^ 31 := hfits
    rw [if_pos hfits', if_pos hfits, Option.bind_eq_bind, Option.bind_some]
    dsimp only
    rw [show b.size - b.free = b.used from rfl, hused, strcpy_eq hlt, Option.bind_eq_bind,
      Option.bind_some, added, Nat.sub_sub]
    rfl
  · have hfits' : ¬ sizeFor b.size (b.size - b.free + text.length) < 2 ^ 31 := hfits
    rw [if_neg hfits', if_neg hfits]
    rfl

theorem Sound.added (hfits : sizeFor b.size (b.used + text.length) < 2 ^ 31) :
    (b.added text).Sound := ⟨Nat.sub_le _ _, hfits⟩

/-- Two texts that are added are one. -/
theorem addToArg_append (hb : b.Sound) (hargc : b.argc < 256) (text more : CString) :
    (b.addToArg text).bind (fun b => b.addToArg more) = b.addToArg (text ++ more) := by
  rw [addToArg_eq hb hargc, addToArg_eq hb hargc, List.length_append, ← Nat.add_assoc]
  have hmono := @sizeFor_mono b.size _ _ (Nat.le_add_right (b.used + text.length) more.length)
  by_cases hfits : sizeFor b.size (b.used + text.length) < 2 ^ 31
  · have hsize : sizeFor (b.added text).size ((b.added text).used + more.length) =
        sizeFor b.size (b.used + text.length + more.length) := by
      rw [used_added]
      exact sizeFor_sizeFor (Nat.le_add_right _ _)
    rw [if_pos hfits, Option.bind_some, addToArg_eq (Sound.added hfits) hargc, hsize]
    split_ifs
    · refine congrArg some ?_
      rw [ArgBuf.added, hsize, used_added, ArgBuf.added, ArgBuf.added, writeText_append,
        List.length_append, ← Nat.add_assoc]
    · rfl
  · rw [if_neg hfits, Option.bind_none, if_neg (by omega)]

/-- What is added stays in front of what is added behind it. -/
theorem addToArg_bind {α : Type} (hb : b.Sound) (hargc : b.argc < 256) (htext : text ≠ [])
    {f g : ArgBuf → Option α}
    (h : ∀ b' : ArgBuf, b'.Sound → b'.argc < 256 → f b' = (b'.addText more).bind g) :
    (b.addToArg text).bind f = (b.addText (text ++ more)).bind g := by
  have hne : text ++ more ≠ [] := fun hnil => htext (List.append_eq_nil_iff.mp hnil).1
  have hfirst : (b.addToArg text).bind f =
      (b.addToArg text).bind fun b' => (b'.addText more).bind g := by
    rw [addToArg_eq hb hargc]
    split_ifs with hfits
    · exact h _ (Sound.added hfits) hargc
    · rfl
  rw [hfirst, addText, if_neg hne]
  by_cases hmore : more = []
  · simp only [hmore, addText, if_true, Option.bind_some, List.append_nil]
  · simp only [addText, if_neg hmore]
    rw [← addToArg_append hb hargc, Option.bind_assoc]

end ArgBuf

/-! ## Finishing -/

def space : Ch := ch 32

/-- A text without a space in front. -/
def eatLeading (text : CString) : CString := if text.head? = some space then text.tail else text

/-- A text without a space behind. -/
def eatTrailing (text : CString) : CString :=
  if text.getLast? = some space then text.dropLast else text

/-- A text without the one space in front and the one behind. -/
def trimmed (text : CString) : CString := eatTrailing (eatLeading text)

namespace ArgBuf

variable {b : ArgBuf} {text more : CString} {texts : List CString}

/-- The arguments that are finished are in the buffer, and behind them is the text of the next. -/
structure Filling (b : ArgBuf) (texts : List CString) (text : CString) : Prop where
  /-- The size. -/
  sound : b.Sound
  /-- The arguments count the name of the macro as the first. -/
  argc : b.argc = texts.length + 1
  /-- The arguments that are finished. -/
  arg : ∀ k t, texts[k]? = some t → HasText b.mem (b.argo (k + 1)) t ∧
    b.mem (b.argo (k + 1) + t.length) = 0 ∧ b.argl (k + 1) = t.length ∧
    b.argo (k + 1) + t.length + text.length < b.used
  /-- The text begins behind the last one. -/
  start : b.argo texts.length + b.argl texts.length + 1 + text.length = b.used
  /-- The text. -/
  text : HasText b.mem (b.used - text.length) text

/-- A text is added to what is there. -/
theorem Filling.added (h : b.Filling texts text)
    (hfits : sizeFor b.size (b.used + more.length) < 2 ^ 31) :
    (b.added more).Filling texts (text ++ more) where
  sound := Sound.added hfits
  argc := h.argc
  arg k t ht := by
    obtain ⟨hhas, hzero, hlen, hlt⟩ := h.arg k t ht
    have hmem : ∀ i < b.used, (b.added more).mem i = b.mem i := fun i hi => writeText_of_lt hi
    have hend : b.argo (k + 1) + t.length < b.used := by omega
    refine ⟨hhas.congr fun i hi => hmem i (hi.trans hend), (hmem _ hend).trans hzero, hlen, ?_⟩
    rw [used_added, List.length_append]
    show b.argo (k + 1) + _ + _ < _
    omega
  start := by
    have hstart := h.start
    rw [used_added, List.length_append]
    show b.argo _ + b.argl _ + 1 + _ = _
    omega
  text := by
    have hstart := h.start
    rw [used_added, List.length_append]
    have hplace : b.used + more.length - (text.length + more.length) = b.used - text.length := by
      omega
    have hplace' : b.used - text.length + text.length = b.used := by omega
    rw [hplace]
    refine HasText.append (h.text.congr fun i hi => writeText_of_lt (by omega)) ?_
    rw [hplace']
    exact hasText_writeText

theorem val_eq_space {c : Ch} : c.1 = 32 ↔ c = space :=
  ⟨fun h => Subtype.ext h, fun h => congrArg Subtype.val h⟩

/-- How many bytes are eaten in front of a text. -/
def leading (text : CString) : Nat := if text.head? = some space then 1 else 0

/-- How many bytes are eaten behind it. -/
def trailing (text : CString) : Nat := if (eatLeading text).getLast? = some space then 1 else 0

theorem length_eatLeading (text : CString) : leading text + (eatLeading text).length = text.length := by
  rw [leading, eatLeading]
  split_ifs with h
  · obtain ⟨c, t, rfl⟩ : ∃ c t, text = c :: t := by
      cases text with
      | nil => exact absurd h (by simp)
      | cons c t => exact ⟨c, t, rfl⟩
    rw [List.tail_cons, List.length_cons, Nat.add_comm]
  · exact Nat.zero_add _

theorem length_trimmed (text : CString) :
    (trimmed text).length + trailing text = (eatLeading text).length := by
  rw [trimmed, eatTrailing, trailing]
  split_ifs with h
  · have hne : eatLeading text ≠ [] := fun hnil => by
      rw [hnil] at h
      exact absurd h (by simp)
    have hpos := List.length_pos_iff.mpr hne
    rw [List.length_dropLast]
    omega
  · rfl

section Eaten

variable {mem : Nat → Fin 256} {o tail : Nat}

/-- The space in front is found in memory. -/
theorem leading_eq (h : HasText mem o text) (htail : o + text.length = tail) :
    (if o < tail ∧ mem o = 32 then o + 1 else o) = o + leading text := by
  rw [leading]
  cases text with
  | nil =>
    rw [if_neg fun hlt => absurd htail (Nat.ne_of_lt hlt.1), if_neg (by simp)]
    rfl
  | cons c text =>
    have hc : mem o = c.1 := h 0 c rfl
    have hlt : o < tail := by
      rw [List.length_cons] at htail
      omega
    have hcond : (o < tail ∧ mem o = 32) ↔ (c :: text).head? = some space := by
      rw [hc, and_iff_right hlt, val_eq_space, List.head?_cons, Option.some_inj]
    simp only [hcond]
    split_ifs <;> rfl

theorem hasText_eatLeading (h : HasText mem o text) :
    HasText mem (o + leading text) (eatLeading text) := by
  rw [leading, eatLeading]
  split_ifs with hlead
  · intro i c hi
    rw [List.getElem?_tail] at hi
    rw [Nat.add_assoc, Nat.add_comm 1]
    exact h (i + 1) c hi
  · exact h

/-- The space behind is found in memory. -/
theorem trailing_eq (h : HasText mem o (eatLeading text))
    (htail : o + (eatLeading text).length = tail) :
    (if o < tail ∧ mem (tail - 1) = 32 then 1 else 0) = trailing text := by
  have hcond : (o < tail ∧ mem (tail - 1) = 32) ↔ (eatLeading text).getLast? = some space := by
    rw [List.getLast?_eq_getElem?]
    cases hlast : (eatLeading text)[(eatLeading text).length - 1]? with
    | none =>
      rw [List.getElem?_eq_none_iff] at hlast
      exact ⟨fun hlt => absurd hlt.1 (by omega), fun hsome => absurd hsome (by simp)⟩
    | some c =>
      have hmem := h _ c hlast
      obtain ⟨hlt, -⟩ := List.getElem?_eq_some_iff.mp hlast
      rw [(by omega : tail - 1 = o + ((eatLeading text).length - 1)), hmem, val_eq_space,
        Option.some_inj, and_iff_right (by omega)]
  rw [trailing]
  simp only [hcond]

theorem hasText_trimmed (h : HasText mem o (eatLeading text)) : HasText mem o (trimmed text) := by
  rw [trimmed, eatTrailing]
  split_ifs
  · intro i c hi
    obtain ⟨hlt, -⟩ := List.getElem?_eq_some_iff.mp hi
    refine h i c ?_
    rw [List.length_dropLast] at hlt
    rwa [List.getElem?_dropLast, if_pos hlt] at hi
  · exact h

end Eaten

/-- The place of the zero behind the text that is being collected. -/
def endOf (b : ArgBuf) (text : CString) : Nat := b.used - text.length + leading text + (trimmed text).length

/-- A buffer with an argument finished. -/
def finished (b : ArgBuf) (text : CString) : ArgBuf :=
  { b with
    mem := Function.update b.mem (b.endOf text) 0, free := b.free + trailing text - 1
    argo := Function.update b.argo b.argc (b.used - text.length + leading text)
    argl := Function.update b.argl b.argc (trimmed text).length, argc := b.argc + 1 }

/-- The zero takes the place of what is eaten behind the text, or is behind it. -/
theorem Filling.endOf_eq (h : b.Filling texts text) :
    b.endOf text + trailing text = b.used ∧ b.used + b.free = b.size := by
  have hstart := h.start
  have hlead := length_eatLeading text
  have htrail := length_trimmed text
  refine ⟨?_, Nat.sub_add_cancel h.sound.free_le⟩
  rw [endOf]
  omega

theorem Filling.used_finished (h : b.Filling texts text) (hlt : b.endOf text < b.size) :
    (b.finished text).used = b.endOf text + 1 := by
  obtain ⟨hend, hall⟩ := h.endOf_eq
  show b.size - (b.free + trailing text - 1) = _
  omega

/-- An argument is finished if there is a byte for its zero. -/
theorem Filling.finishArg_eq (h : b.Filling texts text) (hargc : texts.length < 255) :
    b.finishArg = if b.endOf text < b.size then some (b.finished text) else none := by
  obtain ⟨hend, -⟩ := h.endOf_eq
  have hstart := h.start
  have hlead := length_eatLeading text
  have htail : b.used - text.length + text.length = b.used := by omega
  have htail' : b.used - text.length + leading text + (eatLeading text).length = b.used := by omega
  have hlength : b.endOf text - (b.used - text.length + leading text) = (trimmed text).length :=
    Nat.add_sub_cancel_left _ _
  have hoffs : b.argo (b.argc - 1) + b.argl (b.argc - 1) + 1 = b.used - text.length := by
    rw [h.argc, Nat.add_sub_cancel]
    omega
  have hargc' : b.argc ≠ 256 := by
    rw [h.argc]
    omega
  rw [finishArg, if_neg hargc']
  dsimp only
  rw [hoffs, leading_eq h.text htail, trailing_eq (hasText_eatLeading h.text) htail',
    Nat.sub_eq_of_eq_add hend.symm, hlength, store]
  split_ifs <;> rfl

/-- The argument that is finished is in the buffer with those before it. -/
theorem Filling.finished (h : b.Filling texts text) (hlt : b.endOf text < b.size) :
    (b.finished text).Filling (texts ++ [trimmed text]) [] := by
  have hused := h.used_finished hlt
  obtain ⟨hend, hall⟩ := h.endOf_eq
  have hargc := h.argc
  have hplace : b.used - text.length + leading text ≤ b.endOf text := Nat.le_add_right _ _
  constructor
  · refine ⟨?_, h.sound.size_lt⟩
    show b.free + trailing text - 1 ≤ b.size
    omega
  · show b.argc + 1 = _
    rw [hargc, List.length_append, List.length_singleton]
  · intro k t ht
    rw [hused, List.length_nil]
    by_cases hk : k < texts.length
    · rw [List.getElem?_append_left hk] at ht
      obtain ⟨hold, hzero, hlen, hbefore⟩ := h.arg k t ht
      have hne : k + 1 ≠ b.argc := by omega
      have hargo : (b.finished text).argo (k + 1) = b.argo (k + 1) := Function.update_of_ne hne _ _
      have hargl : (b.finished text).argl (k + 1) = b.argl (k + 1) := Function.update_of_ne hne _ _
      have hmem : ∀ i < b.endOf text, (b.finished text).mem i = b.mem i :=
        fun i hi => Function.update_of_ne (Nat.ne_of_lt hi) _ _
      have hin : b.argo (k + 1) + t.length < b.endOf text := by
        rw [endOf]
        omega
      rw [hargo, hargl]
      exact ⟨hold.congr fun i hi => hmem i (hi.trans hin), (hmem _ hin).trans hzero, hlen, by omega⟩
    · rw [List.getElem?_append_right (by omega)] at ht
      obtain ⟨hk', rfl⟩ : k - texts.length = 0 ∧ trimmed text = t := by
        rwa [List.getElem?_singleton, Option.ite_none_right_eq_some, Option.some_inj] at ht
      obtain rfl : k = texts.length := by omega
      have hargo : (b.finished text).argo (texts.length + 1) = b.used - text.length + leading text :=
        hargc ▸ Function.update_self _ _ _
      have hargl : (b.finished text).argl (texts.length + 1) = (trimmed text).length :=
        hargc ▸ Function.update_self _ _ _
      rw [hargo, hargl]
      refine ⟨(hasText_trimmed (hasText_eatLeading h.text)).congr fun i hi =>
        Function.update_of_ne (Nat.ne_of_lt hi) _ _, ?_, rfl, Nat.lt_succ_self _⟩
      exact Function.update_self _ _ _
  · rw [hused, List.length_append, List.length_singleton, List.length_nil, ← hargc]
    show Function.update b.argo b.argc _ b.argc + Function.update b.argl b.argc _ b.argc + 1 = _
    rw [Function.update_self, Function.update_self]
    rfl
  · exact fun i c hi => absurd hi (by simp)

/-! ## All arguments -/

/-- The texts of the arguments are collected one after the other. -/
def collect (b : ArgBuf) : List CString → Option ArgBuf
  | [] => some b
  | text :: texts => do
    let b ← b.addText text
    let b ← b.finishArg
    b.collect texts

/-- There is room for texts in a buffer of a size, from a place on: sizes stay an `int`, and a text of
no bytes at all does not begin where the buffer ends. -/
def RoomFor (size o : Nat) : List CString → Prop
  | [] => True
  | text :: texts =>
    if text = [] then o < size ∧ RoomFor size (o + 1) texts
    else sizeFor size (o + text.length) < 2 ^ 31 ∧
      RoomFor (sizeFor size (o + text.length)) (o + leading text + (trimmed text).length + 1) texts

/-- Arguments are collected exactly if there is room for them, and then they are in the buffer. -/
theorem Filling.collect (h : b.Filling texts []) {more : List CString}
    (hargc : texts.length + more.length ≤ 255) :
    (RoomFor b.size b.used more → ∃ b', b.collect more = some b' ∧
      b'.Filling (texts ++ more.map trimmed) []) ∧
    (¬ RoomFor b.size b.used more → b.collect more = none) := by
  induction more generalizing b texts with
  | nil =>
    refine ⟨fun _ => ⟨b, rfl, ?_⟩, fun hnot => absurd trivial hnot⟩
    rwa [List.map_nil, List.append_nil]
  | cons text more ih =>
    rw [List.length_cons] at hargc
    have hnext : (texts ++ [trimmed text]).length + more.length ≤ 255 := by
      rw [List.length_append, List.length_singleton]
      omega
    rw [ArgBuf.collect, addText, RoomFor, List.map_cons, List.append_cons]
    by_cases hnil : text = []
    · subst hnil
      have hend : b.endOf [] = b.used := rfl
      rw [if_pos rfl, if_pos rfl, Option.bind_eq_bind, Option.bind_some, h.finishArg_eq (by omega), hend]
      by_cases hroom : b.used < b.size
      · obtain ⟨hgo, hstop⟩ := ih (h.finished (hend ▸ hroom)) hnext
        rw [h.used_finished (hend ▸ hroom), hend] at hgo hstop
        rw [if_pos hroom, Option.bind_some, and_iff_right hroom]
        exact ⟨hgo, hstop⟩
      · rw [if_neg hroom]
        exact ⟨fun hr => absurd hr.1 hroom, fun _ => rfl⟩
    · rw [if_neg hnil, if_neg hnil, addToArg_eq h.sound (by rw [h.argc]; omega)]
      by_cases hfits : sizeFor b.size (b.used + text.length) < 2 ^ 31
      · have hadded := h.added hfits
        rw [List.nil_append] at hadded
        have hend : (b.added text).endOf text = b.used + leading text + (trimmed text).length := by
          rw [endOf, used_added, Nat.add_sub_cancel]
        have hroom : (b.added text).endOf text < (b.added text).size := by
          have hlast := lt_sizeFor b.size (b.used + text.length)
          have hlead := length_eatLeading text
          have htrail := length_trimmed text
          rw [hend]
          show _ < sizeFor b.size (b.used + text.length)
          omega
        obtain ⟨hgo, hstop⟩ := ih (hadded.finished hroom) hnext
        rw [hadded.used_finished hroom, hend] at hgo hstop
        rw [if_pos hfits, Option.bind_eq_bind, Option.bind_some, and_iff_right hfits, hadded.finishArg_eq (by omega), if_pos hroom, Option.bind_some]
        exact ⟨hgo, hstop⟩
      · rw [if_neg hfits]
        exact ⟨fun hr => absurd hr.1 hfits, fun _ => rfl⟩

/-- The buffer when the arguments of a use begin. -/
theorem startArgs_eq (hb : b.Sound) :
    (sizeFor b.size (b.used + 1) < 2 ^ 31 → ∃ b', b.startArgs = some b' ∧ b'.Filling [] [] ∧
      b'.size = sizeFor b.size (b.used + 1) ∧ b'.used = 1) ∧
    (¬ sizeFor b.size (b.used + 1) < 2 ^ 31 → b.startArgs = none) := by
  have hgrow := @growToFit_eq 1 _ _ hb.free_le hb.size_lt
  have hlast := lt_sizeFor b.size (b.used + 1)
  have hpos : 0 < sizeFor b.size (b.used + 1) := by omega
  rw [startArgs, hgrow]
  constructor
  · intro hfits
    have hfits' : sizeFor b.size (b.size - b.free + 1) < 2 ^ 31 := hfits
    rw [if_pos hfits', Option.bind_eq_bind, Option.bind_some]
    dsimp only
    rw [show b.size - b.free = b.used from rfl, store, if_pos hpos]
    have hused : sizeFor b.size (b.used + 1) - (sizeFor b.size (b.used + 1) - 1) = 1 := by omega
    refine ⟨_, rfl, ⟨⟨Nat.sub_le _ _, hfits⟩, rfl, fun k t ht => absurd ht (by simp), ?_,
      fun i c hi => absurd hi (by simp)⟩, rfl, hused⟩
    show Function.update b.argo 0 0 0 + Function.update b.argl 0 0 0 + 1 + 0 = _
    rw [Function.update_self, Function.update_self]
    exact hused.symm
  · intro hfits
    have hfits' : ¬ sizeFor b.size (b.size - b.free + 1) < 2 ^ 31 := hfits
    rw [if_neg hfits']
    rfl

end ArgBuf

end Icarus.Ivlpp
