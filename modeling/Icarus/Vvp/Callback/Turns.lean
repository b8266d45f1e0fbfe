import Icarus.Vvp.Callback.Links

/-!
# One turn of a walk

A walk being executed has called, found unchanged or has still to visit what was
registered before its change, apart from what has been cancelled. A turn keeps
this for the walk and for the walks around it. It goes wrong where a nested walk
deletes the `next` or the `prev` of a walk around it.
-/

namespace Icarus.Vvp

open Core

variable {Arr Sig : Type} [DecidableEq Arr] [DecidableEq Sig]

theorem getElem?_longer {α : Type} {l l' : List α} (h : l <+: l') {i : Nat}
    (hi : i < l.length) : l'[i]? = l[i]? := by
  obtain ⟨more, rfl⟩ := h
  exact List.getElem?_append_left hi

/-! ## One walk -/

/-- The `prev` and `next` with which the loop goes on. -/
def WalkPhase.position : WalkPhase → Option (Option Nat × Option Nat)
  | ports => none
  | loop prev next => some (prev, next)
  | routine cur next => some (some cur, next)

namespace CallbackWalk

variable {s s' : CallbackStore Arr Sig} {lists lists' : CallbackObj Arr Sig → List Nat}
  {w : CallbackWalk Arr Sig} {id cur : Nat} {prev : Option Nat} {togo : List Nat}
  {cb : ValueCallback}

/-- Nothing that was registered before the change is missed. -/
def Covers (s : CallbackStore Arr Sig) (w : CallbackWalk Arr Sig) (togo : List Nat) : Prop :=
  ∀ id r, id < w.before → s.registered[id]? = some r → w.pass.concerns r →
    id ∈ w.ran ∨ id ∈ w.unchanged ∨ id ∈ s.cancelled ∨ id ∈ togo

/-- A walk stands between two entries of the list and misses nothing. -/
structure Sound (s : CallbackStore Arr Sig) (lists : CallbackObj Arr Sig → List Nat)
    (w : CallbackWalk Arr Sig) : Prop where
  before_le : w.before ≤ s.registered.length
  part : ∀ id ∈ w.unchanged, ∃ r, s.registered[id]? = some r ∧ r.part
  stands : ∀ prev next, w.phase.position = some (prev, next) →
    ∃ togo, s.Stands (lists w.pass.obj) prev next togo ∧ w.Covers s togo

/-- The store changes and the walk still stands where it stood. -/
theorem Sound.transfer (h : w.Sound s lists) (hreg : s.registered <+: s'.registered)
    (hcancelled : s.cancelled ⊆ s'.cancelled)
    (hstands : ∀ prev next togo, w.phase.position = some (prev, next) →
      s.Stands (lists w.pass.obj) prev next togo →
      ∃ togo', s'.Stands (lists' w.pass.obj) prev next togo' ∧
        ∀ id ∈ togo, id ∈ togo' ∨ id ∈ s'.cancelled) : w.Sound s' lists' := by
  refine ⟨Nat.le_trans h.before_le hreg.length_le, ?_, ?_⟩
  · intro id hid
    obtain ⟨r, hr, hpart⟩ := h.part id hid
    have hlt := (List.getElem?_eq_some_iff.mp hr).1
    exact ⟨r, (getElem?_longer hreg hlt).trans hr, hpart⟩
  · intro prev next hpos
    obtain ⟨togo, hst, hcovers⟩ := h.stands prev next hpos
    obtain ⟨togo', hst', hmore⟩ := hstands prev next togo hpos hst
    refine ⟨togo', hst', ?_⟩
    intro id r hid hr hconcerns
    rw [getElem?_longer hreg (Nat.lt_of_lt_of_le hid h.before_le)] at hr
    rcases hcovers id r hid hr hconcerns with hran | hsame | hgone | htogo
    · exact .inl hran
    · exact .inr (.inl hsame)
    · exact .inr (.inr (.inl (hcancelled hgone)))
    · exact .inr (.inr (hmore id htogo).symm)

/-- A field of an entry changes. -/
theorem Sound.modify (h : w.Sound s lists) {f : ValueCallback → ValueCallback}
    (hf : ∀ cb, (f cb).next = cb.next) : w.Sound (s.modify id f) lists :=
  h.transfer List.prefix_rfl (List.Subset.refl _) fun _ _ togo _ hst =>
    ⟨togo, hst.modify hf, fun _ => .inl⟩

/-- A callback is cancelled. -/
theorem Sound.vpiRemoveCb (h : w.Sound s lists) (id : Nat) :
    w.Sound (s.vpiRemoveCb id) lists := by
  refine h.transfer List.prefix_rfl (List.subset_cons_self id s.cancelled) ?_
  intro prev next togo _ hst
  have hf : ∀ cb : ValueCallback, { cb with cbRtn := false }.next = cb.next := fun _ => rfl
  have hmodify := @CallbackStore.Stands.modify _ _ s id prev next _ togo hst _ hf
  exact ⟨togo, ⟨hmodify.suffix, hmodify.chain, hmodify.first, hmodify.known, hmodify.after⟩,
    fun _ => .inl⟩

/-- A callback is registered. -/
theorem Sound.addCallback (h : w.Sound s lists) (hl : s.Linked lists)
    (hloop : w.phase.inLoop = false) (obj : CallbackObj Arr Sig) (index : BitVec 32)
    (wordAddr : Int) (valueBits : Option (List Char)) :
    w.Sound (s.addCallback obj index wordAddr valueBits)
      (Function.update lists obj (s.registered.length :: lists obj)) := by
  refine h.transfer (List.prefix_append ..) (List.Subset.refl _) ?_
  intro prev next togo hpos hst
  have hprev : prev ≠ none := by
    rintro rfl
    cases hphase : w.phase <;> simp_all [WalkPhase.position, WalkPhase.inLoop]
  exact ⟨togo, hst.addCallback hl hprev obj index wordAddr valueBits, fun _ => .inl⟩

/-- Another walk has deleted an entry that is not the saved `next`. -/
theorem Sound.reaped {obj : CallbackObj Arr Sig} (h : w.Sound s lists) (hl : s.Linked lists)
    (hr : s.Reaped s' (lists obj) obj cur) (hcur : cur ∈ lists obj)
    (hcancelled : cur ∈ s.cancelled) (hnext : w.phase.next ≠ some cur) :
    w.Sound s' (Function.update lists obj ((lists obj).filter (· ≠ cur))) := by
  refine h.transfer (hr.registered ▸ List.prefix_rfl) (hr.cancelled ▸ List.Subset.refl _) ?_
  intro prev next togo hpos hst
  have hne : next ≠ some cur := by
    cases hphase : w.phase <;> simp_all [WalkPhase.position, WalkPhase.next]
  have hst' := hr.stands hl hcur hst
  rw [if_neg hne] at hst'
  refine ⟨togo.filter (· ≠ cur), hst', ?_⟩
  intro id hid
  rcases eq_or_ne id cur with rfl | hidc
  · exact .inr (hr.cancelled ▸ hcancelled)
  · exact .inl (List.mem_filter.mpr ⟨hid, decide_eq_true hidc⟩)

/-- What a walk begins with covers everything. -/
theorem covers_all (hl : s.Linked lists) : w.Covers s (lists w.pass.obj) := by
  intro id r _ hr hconcerns
  have hlt := (List.getElem?_eq_some_iff.mp hr).1
  cases hheap : s.heap id with
  | none => exact .inr (.inr (.inl (hl.deleted id hlt hheap)))
  | some cb =>
    refine .inr (.inr (.inr ((hl.mem _ id).mpr ⟨by rw [hheap]; rfl, ?_⟩)))
    rw [CallbackPass.concerns, Bool.and_eq_true, decide_eq_true_iff] at hconcerns
    rw [CallbackStore.objOf, hr, Option.map_some, hconcerns.1]

/-- A walk reads the head of the list. -/
theorem Sound.walk (h : w.Sound s lists) (hl : s.Linked lists) :
    { w with phase := .loop none (s.vpiCallbacks w.pass.obj) }.Sound s lists := by
  refine ⟨h.before_le, h.part, ?_⟩
  rintro prev next ⟨⟩
  exact ⟨_, hl.stands _, covers_all hl⟩

/-- A walk is through with an entry: it was skipped, or it was called or found unchanged. -/
theorem Sound.advance (h : w.Sound s lists) (hl : s.Linked lists)
    (hphase : w.phase = .loop prev (some cur)) {phase : WalkPhase} {ran unchanged : List Nat}
    (hposition : phase.position = some (some cur, s.next cur)) (hran : w.ran ⊆ ran)
    (hunchanged : w.unchanged ⊆ unchanged)
    (hpart : ∀ id ∈ unchanged, ∃ r, s.registered[id]? = some r ∧ r.part)
    (hdone : ∀ r, s.registered[cur]? = some r → w.pass.concerns r →
      cur ∈ ran ∨ cur ∈ unchanged) :
    { w with phase := phase, ran := ran, unchanged := unchanged }.Sound s lists := by
  refine ⟨h.before_le, hpart, ?_⟩
  intro prev' next' hpos
  rw [hposition, Option.some.injEq, Prod.mk.injEq] at hpos
  obtain ⟨rfl, rfl⟩ := hpos
  obtain ⟨togo, hst, hcovers⟩ := h.stands prev (some cur) (by rw [hphase]; rfl)
  obtain ⟨rest, rfl, -⟩ := hst.chain.exists_eq_cons
  refine ⟨rest, hl.advance hst, ?_⟩
  intro id r hid hr hconcerns
  rcases hcovers id r hid hr hconcerns with hmem | hmem | hmem | hmem
  · exact .inl (hran hmem)
  · exact .inr (.inl (hunchanged hmem))
  · exact .inr (.inr (.inl hmem))
  · rcases List.mem_cons.mp hmem with rfl | hmem
    · rcases hdone r hr hconcerns with hmem | hmem
      · exact .inl hmem
      · exact .inr (.inl hmem)
    · exact .inr (.inr (.inr hmem))

/-- The walk itself has reaped an entry. -/
theorem Sound.reap (h : w.Sound s lists) (hl : s.Linked lists)
    (hphase : w.phase = .loop prev (some cur))
    (hr : s.Reaped s' (lists w.pass.obj) w.pass.obj cur) (hcur : cur ∈ lists w.pass.obj)
    (hcancelled : cur ∈ s.cancelled) :
    { w with phase := .loop prev (s.next cur) }.Sound s'
      (Function.update lists w.pass.obj ((lists w.pass.obj).filter (· ≠ cur))) := by
  refine ⟨hr.registered ▸ h.before_le, hr.registered ▸ h.part, ?_⟩
  rintro prev' next' ⟨⟩
  obtain ⟨togo, hst, hcovers⟩ := h.stands prev (some cur) (by rw [hphase]; rfl)
  have hst' := hr.stands hl hcur hst
  rw [if_pos rfl] at hst'
  refine ⟨togo.filter (· ≠ cur), hst', ?_⟩
  intro id r hid hreg hconcerns
  rw [hr.registered] at hreg
  rw [hr.cancelled]
  rcases hcovers id r hid hreg hconcerns with hmem | hmem | hmem | hmem
  · exact .inl hmem
  · exact .inr (.inl hmem)
  · exact .inr (.inr (.inl hmem))
  · rcases eq_or_ne id cur with rfl | hne
    · exact .inr (.inr (.inl hcancelled))
    · exact .inr (.inr (.inr (List.mem_filter.mpr ⟨hmem, decide_eq_true hne⟩)))

/-- The `next` of a walk is an entry of the list. -/
theorem Sound.exists_entry (h : w.Sound s lists) (hl : s.Linked lists)
    (hphase : w.phase = .loop prev (some cur)) :
    cur ∈ lists w.pass.obj ∧ ∃ cb, s.heap cur = some cb ∧ s.next cur = cb.next := by
  obtain ⟨togo, hst, -⟩ := h.stands prev (some cur) (by rw [hphase]; rfl)
  obtain ⟨rest, rfl, -⟩ := hst.chain.exists_eq_cons
  have hmem : cur ∈ lists w.pass.obj := hst.suffix.subset List.mem_cons_self
  obtain ⟨cb, hcb⟩ := Option.isSome_iff_exists.mp ((hl.mem _ cur).mp hmem).1
  exact ⟨hmem, cb, hcb, by rw [CallbackStore.next, hcb]; rfl⟩

/-- A walk at the end of the list has served everything. -/
theorem Sound.covers_of_end (h : w.Sound s lists) (hphase : w.phase = .loop prev none) :
    w.Covers s [] := by
  obtain ⟨togo, hst, hcovers⟩ := h.stands prev none (by rw [hphase]; rfl)
  rwa [hst.chain.eq_nil] at hcovers

end CallbackWalk

/-! ## One entry -/

namespace CallbackPass

variable {s : CallbackStore Arr Sig} {id : Nat} {cb : ValueCallback}

omit [DecidableEq Arr] [DecidableEq Sig] in
theorem setIndex_next (design : CallbackDesign Arr Sig) (pass : CallbackPass Arr Sig)
    (cb : ValueCallback) : (pass.setIndex design cb).next = cb.next := by
  cases pass with
  | word arr addr =>
    rw [setIndex]
    split <;> rfl
  | own _ => rfl

omit [DecidableEq Arr] [DecidableEq Sig] in
theorem setIndex_fits (design : CallbackDesign Arr Sig) (pass : CallbackPass Arr Sig)
    (h : s.Fits id cb) : s.Fits id (pass.setIndex design cb) := by
  cases pass with
  | word arr addr =>
    rw [setIndex]
    split
    · exact h
    · exact h
  | own _ => exact h

end CallbackPass

omit [DecidableEq Arr] [DecidableEq Sig] in
theorem ValueCallback.testValueCallbackReady_fits {s : CallbackStore Arr Sig} {id : Nat}
    {cb : ValueCallback} (bits : List Char) (h : s.Fits id cb) :
    s.Fits id (cb.testValueCallbackReady bits).1 := by
  obtain ⟨r, hr, haddr, hpart, hrtn⟩ := h
  refine ⟨r, hr, haddr, ?_, hrtn⟩
  rw [← hpart]
  exact Option.isSome_map

namespace CallbackStore

variable {s : CallbackStore Arr Sig} {lists : CallbackObj Arr Sig → List Nat}
  {w : CallbackWalk Arr Sig} {cur : Nat} {prev : Option Nat} {cb : ValueCallback}

/-- What a walk does with an entry it makes possible for the walks around it to go on. -/
structure Served (s s' : CallbackStore Arr Sig) (lists : CallbackObj Arr Sig → List Nat)
    (w' : CallbackWalk Arr Sig) (stack : List (CallbackWalk Arr Sig)) : Prop where
  registered : s'.registered = s.registered
  sound : ∃ lists', s'.Linked lists' ∧ w'.Sound s' lists' ∧
    ∀ w ∈ stack, w.Sound s lists → w.Sound s' lists'

/-- No walk around has saved the entry as its `next`, and `prev` has not been deleted. -/
def mayReap (s : CallbackStore Arr Sig) (stack : List (CallbackWalk Arr Sig)) (prev : Option Nat)
    (cur : Nat) : Bool :=
  stack.all (fun w => w.phase.next ≠ some cur) && prev.all fun p => (s.heap p).isSome

/-- A turn of the loop does not go wrong. -/
def calmEntry (design : CallbackDesign Arr Sig) (s : CallbackStore Arr Sig)
    (stack : List (CallbackWalk Arr Sig)) (w : CallbackWalk Arr Sig) (prev : Option Nat)
    (cur : Nat) (cb : ValueCallback) (bits : List Char) : Bool :=
  !w.pass.isMine cb.wordAddr ||
    if cb.cbRtn then !(cb.testValueCallbackReady bits).2 || w.pass.readable design
    else s.mayReap stack prev cur

omit [DecidableEq Arr] [DecidableEq Sig] in
theorem Linked.setIndex (hl : s.Linked lists) (design : CallbackDesign Arr Sig)
    (pass : CallbackPass Arr Sig) (cur : Nat) :
    (s.modify cur (pass.setIndex design)).Linked lists :=
  hl.modify (pass.setIndex_next design) fun _ hcb => pass.setIndex_fits design hcb

/-- The entry is served: its index is set and its text is saved. -/
theorem served_modify {stack : List (CallbackWalk Arr Sig)} {w' : CallbackWalk Arr Sig}
    (hl : s.Linked lists) (hw' : w'.Sound s lists) (design : CallbackDesign Arr Sig)
    (pass : CallbackPass Arr Sig) (cur : Nat) (bits : List Char) :
    s.Served ((s.modify cur (pass.setIndex design)).modify cur
      fun cb => (cb.testValueCallbackReady bits).1) lists w' stack := by
  have hindex := pass.setIndex_next design
  have hready : ∀ cb : ValueCallback, (cb.testValueCallbackReady bits).1.next = cb.next :=
    fun _ => rfl
  refine ⟨rfl, lists, ?_, (hw'.modify hindex).modify hready, ?_⟩
  · exact (hl.setIndex design pass cur).modify hready fun cb hcb =>
      cb.testValueCallbackReady_fits bits hcb
  · intro w _ hw
    exact (hw.modify hindex).modify hready

/-- An entry that is cancelled is reaped. -/
theorem served_reap {stack : List (CallbackWalk Arr Sig)} (hl : s.Linked lists)
    (hw : w.Sound s lists) (hphase : w.phase = .loop prev (some cur))
    (hcancelled : cur ∈ s.cancelled) (hmay : s.mayReap stack prev cur) :
    ∃ s', s.reap w.pass.obj prev (s.next cur) cur = some s' ∧
      s.Served s' lists { w with phase := .loop prev (s.next cur) } stack := by
  rw [mayReap, Bool.and_eq_true, List.all_eq_true, Option.all_eq_true] at hmay
  obtain ⟨hcur, -⟩ := hw.exists_entry hl hphase
  obtain ⟨togo, hst, -⟩ := hw.stands prev (some cur) (by rw [hphase]; rfl)
  obtain ⟨rest, rfl, -⟩ := hst.chain.exists_eq_cons
  obtain ⟨s', hreap, hr⟩ := hl.reap hst hmay.2
  refine ⟨s', hreap, hr.registered, _, hr.linked hl hcur hcancelled, ?_, ?_⟩
  · exact hw.reap hl hphase hr hcur hcancelled
  · intro w' hw' hsound
    exact hsound.reaped hl hr hcur hcancelled (of_decide_eq_true (hmay.1 w' hw'))

/-- What is not for the walk is skipped. -/
theorem visitEntry_skip {stack : List (CallbackWalk Arr Sig)} (hl : s.Linked lists)
    (hw : w.Sound s lists) (hphase : w.phase = .loop prev (some cur))
    (hcb : s.heap cur = some cb) (design : CallbackDesign Arr Sig) (bits : List Char)
    (hmine : w.pass.isMine cb.wordAddr = false) :
    ∃ r, s.visitEntry design w prev cur cb bits = some r ∧ s.Served r.1 lists r.2 stack := by
  obtain ⟨reg, hreg, haddr, -⟩ := hl.fits cur cb hcb
  have hposition : (WalkPhase.loop (some cur) cb.next).position =
      some (some cur, s.next cur) := by rw [CallbackStore.next, hcb]; rfl
  refine ⟨_, by rw [visitEntry, hmine]; rfl, rfl, lists, hl, ?_, fun _ _ hsound => hsound⟩
  apply hw.advance hl hphase hposition (List.Subset.refl _) (List.Subset.refl _) hw.part
  intro r hr hconcerns
  obtain rfl := Option.some.inj (hreg.symm.trans hr)
  rw [CallbackPass.concerns, ← haddr, hmine, Bool.and_false] at hconcerns
  cases hconcerns

/-- A part that has not changed is passed over. -/
theorem visitEntry_unchanged {stack : List (CallbackWalk Arr Sig)} (hl : s.Linked lists)
    (hw : w.Sound s lists) (hphase : w.phase = .loop prev (some cur))
    (hcb : s.heap cur = some cb) (design : CallbackDesign Arr Sig) {bits : List Char}
    (hmine : w.pass.isMine cb.wordAddr = true) (hrtn : cb.cbRtn = true)
    (hready : (cb.testValueCallbackReady bits).2 = false) :
    ∃ r, s.visitEntry design w prev cur cb bits = some r ∧ s.Served r.1 lists r.2 stack := by
  obtain ⟨reg, hreg, -, hpart, -⟩ := hl.fits cur cb hcb
  have hposition : (WalkPhase.loop (some cur) cb.next).position =
      some (some cur, s.next cur) := by rw [CallbackStore.next, hcb]; rfl
  have hbits : cb.valueBits = some bits := by
    rw [ValueCallback.testValueCallbackReady] at hready
    simpa using hready
  refine ⟨_, by rw [visitEntry, hmine, hrtn, hready]; rfl, ?_⟩
  apply served_modify hl
  apply hw.advance hl hphase hposition (List.Subset.refl _) (List.subset_cons_self ..)
  · intro id hid
    rcases List.mem_cons.mp hid with rfl | hid
    · exact ⟨reg, hreg, by rw [← hpart, hbits]; rfl⟩
    · exact hw.part id hid
  · intro _ _ _
    exact .inr List.mem_cons_self

/-- A routine is called. -/
theorem visitEntry_call {stack : List (CallbackWalk Arr Sig)} (hl : s.Linked lists)
    (hw : w.Sound s lists) (hphase : w.phase = .loop prev (some cur))
    (hcb : s.heap cur = some cb) {design : CallbackDesign Arr Sig} {bits : List Char}
    (hmine : w.pass.isMine cb.wordAddr = true) (hrtn : cb.cbRtn = true)
    (hready : (cb.testValueCallbackReady bits).2 = true)
    (hreadable : w.pass.readable design = true) :
    ∃ r, s.visitEntry design w prev cur cb bits = some r ∧ s.Served r.1 lists r.2 stack := by
  have hposition : (WalkPhase.routine cur cb.next).position =
      some (some cur, s.next cur) := by rw [CallbackStore.next, hcb]; rfl
  refine ⟨_, by rw [visitEntry, hmine, hrtn, hready, hreadable]; rfl, ?_⟩
  apply served_modify hl
  apply hw.advance hl hphase hposition (List.subset_cons_self ..) (List.Subset.refl _) hw.part
  intro _ _ _
  exact .inl List.mem_cons_self

/-- An entry without its routine is deleted. -/
theorem visitEntry_reap {stack : List (CallbackWalk Arr Sig)} (hl : s.Linked lists)
    (hw : w.Sound s lists) (hphase : w.phase = .loop prev (some cur))
    (hcb : s.heap cur = some cb) (design : CallbackDesign Arr Sig) (bits : List Char)
    (hmine : w.pass.isMine cb.wordAddr = true) (hrtn : cb.cbRtn = false)
    (hmay : s.mayReap stack prev cur) :
    ∃ r, s.visitEntry design w prev cur cb bits = some r ∧ s.Served r.1 lists r.2 stack := by
  obtain ⟨reg, -, -, -, hcancelled⟩ := hl.fits cur cb hcb
  have hnext : s.next cur = cb.next := by rw [CallbackStore.next, hcb]; rfl
  have hindex := w.pass.setIndex_next design
  have hmay' : (s.modify cur (w.pass.setIndex design)).mayReap stack prev cur := by
    simpa only [mayReap, isSome_modify] using hmay
  obtain ⟨s', hreap, hserved⟩ := served_reap (hl.setIndex design w.pass cur) (hw.modify hindex)
    hphase (hcancelled hrtn) hmay'
  rw [next_modify hindex, hnext] at hreap hserved
  refine ⟨(s', _), by rw [visitEntry, hmine, hrtn]; dsimp only; rw [hreap]; rfl,
    hserved.registered, ?_⟩
  obtain ⟨lists', hl', hw', hstack⟩ := hserved.sound
  exact ⟨lists', hl', hw', fun w hmem hsound => hstack w hmem (hsound.modify hindex)⟩

/-- A turn that does not go wrong serves its entry. -/
theorem visitEntry_served {stack : List (CallbackWalk Arr Sig)} (hl : s.Linked lists)
    (hw : w.Sound s lists) (hphase : w.phase = .loop prev (some cur))
    (hcb : s.heap cur = some cb) (design : CallbackDesign Arr Sig) (bits : List Char)
    (hcalm : s.calmEntry design stack w prev cur cb bits) :
    ∃ r, s.visitEntry design w prev cur cb bits = some r ∧ s.Served r.1 lists r.2 stack := by
  cases hmine : w.pass.isMine cb.wordAddr with
  | false => exact visitEntry_skip hl hw hphase hcb design bits hmine
  | true =>
    rw [calmEntry, hmine, Bool.not_true, Bool.false_or] at hcalm
    cases hrtn : cb.cbRtn with
    | false =>
      rw [hrtn, if_neg Bool.false_ne_true] at hcalm
      exact visitEntry_reap hl hw hphase hcb design bits hmine hrtn hcalm
    | true =>
      rw [hrtn, if_pos rfl] at hcalm
      cases hready : (cb.testValueCallbackReady bits).2 with
      | false => exact visitEntry_unchanged hl hw hphase hcb design hmine hrtn hready
      | true =>
        rw [hready, Bool.not_true, Bool.false_or] at hcalm
        exact visitEntry_call hl hw hphase hcb hmine hrtn hready hcalm

end CallbackStore

end Icarus.Vvp
