import Icarus.Vvp.Callback.Turns

/-!
# Callbacks are kept and called

In every run the lists hold what was registered and not cancelled, and a walk
that is over has called what was registered before the change, as long as no
nested walk deletes the `next` or the `prev` of a walk around it.
-/

namespace Icarus.Vvp

open Core

variable {Arr Sig : Type} [DecidableEq Arr] [DecidableEq Sig]

/-- A walk called what was registered before the change, apart from what was cancelled by its end
and from parts that had not changed. -/
def FinishedWalk.Right (registered : List (CallbackRegistration Arr Sig))
    (f : FinishedWalk Arr Sig) : Prop :=
  ∀ id r, id < f.before → registered[id]? = some r → f.pass.concerns r →
    id ∈ f.ran ∨ (id ∈ f.unchanged ∧ r.part) ∨ id ∈ f.cancelled

namespace CallbackState

variable {s : CallbackState Arr Sig} {store : CallbackStore Arr Sig}
  {lists lists' : CallbackObj Arr Sig → List Nat}

/-- No callback is lost, only cancelled ones are deleted, and the walks that are over called what
they had to. -/
structure Kept (s : CallbackState Arr Sig) : Prop where
  /-- What has not been deleted is on the list of its object. -/
  listed : ∀ id r, s.store.registered[id]? = some r → (s.store.heap id).isSome →
    ∃ list, Chain s.store.next (s.store.vpiCallbacks r.obj) list ∧ id ∈ list
  /-- What has been deleted was cancelled. -/
  deleted : ∀ id < s.store.registered.length, s.store.heap id = none → id ∈ s.store.cancelled
  /-- Walks call what was registered before the change. -/
  called : ∀ f ∈ s.finished, f.Right s.store.registered

/-- The lists are linked, every walk stands in its list, and only the innermost is in its own
code. -/
structure Sound (s : CallbackState Arr Sig) (lists : CallbackObj Arr Sig → List Nat) : Prop where
  linked : s.store.Linked lists
  walks : ∀ w ∈ s.stack, w.Sound s.store lists
  outer : ∀ w ∈ s.stack.tail, w.phase.inLoop = false
  finished : ∀ f ∈ s.finished, f.before ≤ s.store.registered.length ∧
    f.Right s.store.registered

theorem sound_init : (init : CallbackState Arr Sig).Sound fun _ => [] := by
  refine ⟨⟨?_, ?_, fun _ => .nil, fun _ => List.nodup_nil, ?_⟩, ?_, ?_, ?_⟩ <;> simp [init]

theorem Sound.kept (hs : s.Sound lists) : s.Kept := by
  refine ⟨?_, hs.linked.deleted, fun f hf => (hs.finished f hf).2⟩
  intro id r hr hsome
  refine ⟨lists r.obj, hs.linked.chain r.obj, (hs.linked.mem r.obj id).mpr ⟨hsome, ?_⟩⟩
  rw [CallbackStore.objOf, hr]
  rfl

theorem Sound.not_inLoop (hs : s.Sound lists) (hout : s.outside) :
    ∀ w ∈ s.stack, w.phase.inLoop = false := by
  have houter := hs.outer
  rw [outside] at hout
  cases hstack : s.stack with
  | nil => simp
  | cons w stack =>
    rw [hstack] at hout houter
    intro w' hw'
    rcases List.mem_cons.mp hw' with rfl | hw'
    · simpa using hout
    · exact houter w' hw'

/-- The store changes, and the walks stay where they are. -/
theorem Sound.setStore (hs : s.Sound lists) (hl : store.Linked lists')
    (hreg : s.store.registered <+: store.registered)
    (hwalks : ∀ w ∈ s.stack, w.Sound store lists') :
    { s with store := store }.Sound lists' := by
  refine ⟨hl, hwalks, hs.outer, ?_⟩
  intro f hf
  obtain ⟨hbefore, hright⟩ := hs.finished f hf
  refine ⟨Nat.le_trans hbefore hreg.length_le, ?_⟩
  intro id r hid hr hconcerns
  rw [getElem?_longer hreg (Nat.lt_of_lt_of_le hid hbefore)] at hr
  exact hright id r hid hr hconcerns

/-- A callback is registered. -/
theorem Sound.addCallback (hs : s.Sound lists) (hout : s.outside) (obj : CallbackObj Arr Sig)
    (index : BitVec 32) (wordAddr : Int) (valueBits : Option (List Char)) :
    ∃ lists', { s with store := s.store.addCallback obj index wordAddr valueBits }.Sound
      lists' := by
  refine ⟨_, hs.setStore (hs.linked.addCallback obj index wordAddr valueBits)
    (List.prefix_append ..) ?_⟩
  intro w hw
  exact (hs.walks w hw).addCallback hs.linked (hs.not_inLoop hout w hw) obj index wordAddr
    valueBits

/-- A walk begins where no walk is in its own code. -/
theorem Sound.push (hs : s.Sound lists) (hloop : ∀ w ∈ s.stack, w.phase.inLoop = false)
    {w : CallbackWalk Arr Sig} (hw : w.Sound s.store lists) :
    { s with stack := w :: s.stack }.Sound lists := by
  refine ⟨hs.linked, ?_, hloop, hs.finished⟩
  intro w' hw'
  rcases List.mem_cons.mp hw' with rfl | hw'
  · exact hw
  · exact hs.walks w' hw'

/-- The walks of a change begin. -/
theorem Sound.enter (hs : s.Sound lists) (hloop : ∀ w ∈ s.stack, w.phase.inLoop = false)
    {before : Nat} (hbefore : before ≤ s.store.registered.length)
    (passes : List (CallbackPass Arr Sig)) : (s.enter before passes).Sound lists := by
  cases passes with
  | nil => exact hs
  | cons pass later =>
    have hports : CallbackWalk.Sound s.store lists ⟨pass, later, .ports, before, [], []⟩ :=
      ⟨hbefore, by simp, by simp [WalkPhase.position]⟩
    cases pass with
    | word arr addr => exact hs.push hloop hports
    | own sig => exact hs.push hloop (hports.walk hs.linked)

/-- The innermost walk goes on. -/
theorem Sound.setTop (hs : s.Sound lists) {w w' : CallbackWalk Arr Sig}
    {stack : List (CallbackWalk Arr Sig)} (hstack : s.stack = w :: stack)
    (hw' : w'.Sound s.store lists) : { s with stack := w' :: stack }.Sound lists := by
  have houter := hs.outer
  have hwalks := hs.walks
  rw [hstack] at houter hwalks
  refine ⟨hs.linked, ?_, houter, hs.finished⟩
  intro u hu
  rcases List.mem_cons.mp hu with rfl | hu
  · exact hw'
  · exact hwalks u (List.mem_cons_of_mem w hu)

/-- A walk is over. -/
theorem Sound.finish (hs : s.Sound lists) {w : CallbackWalk Arr Sig}
    {stack : List (CallbackWalk Arr Sig)} {prev : Option Nat} (hstack : s.stack = w :: stack)
    (hphase : w.phase = .loop prev none) :
    { s with
      stack := stack
      finished := ⟨w.pass, w.before, w.ran, w.unchanged, s.store.cancelled⟩ :: s.finished
      }.Sound lists := by
  have houter := hs.outer
  have hwalks := hs.walks
  rw [hstack] at houter hwalks
  have hw := hwalks w List.mem_cons_self
  refine ⟨hs.linked, fun u hu => hwalks u (List.mem_cons_of_mem w hu),
    fun u hu => houter u (List.mem_of_mem_tail hu), ?_⟩
  intro f hf
  rcases List.mem_cons.mp hf with rfl | hf
  · refine ⟨hw.before_le, ?_⟩
    intro id r hid hr hconcerns
    rcases hw.covers_of_end hphase id r hid hr hconcerns with hmem | hmem | hmem | hmem
    · exact .inl hmem
    · obtain ⟨r', hr', hpart⟩ := hw.part id hmem
      obtain rfl := Option.some.inj (hr.symm.trans hr')
      exact .inr (.inl ⟨hmem, hpart⟩)
    · exact .inr (.inr hmem)
    · cases hmem
  · exact hs.finished f hf

/-! ## Runs -/

/-- A turn of a loop does not go wrong: the array can be read if a routine is to be called, and
what is deleted is neither the `next` of a walk around nor behind a deleted `prev`. -/
def calm (design : CallbackDesign Arr Sig) (s : CallbackState Arr Sig) :
    CallbackStep Arr Sig → Bool
  | .visit bits => match s.stack with
    | [] => true
    | w :: stack => match w.phase with
      | .loop prev (some cur) => (s.store.heap cur).all fun cb =>
        s.store.calmEntry design stack w prev cur cb bits
      | _ => true
  | _ => true

omit [DecidableEq Arr] [DecidableEq Sig] in
theorem exists_loop_of_enabled {bits : List Char} (hen : s.enabled (.visit bits)) :
    ∃ w stack prev next, s.stack = w :: stack ∧ w.phase = .loop prev next := by
  rw [enabled, outside] at hen
  cases hstack : s.stack with
  | nil =>
    rw [hstack] at hen
    cases hen
  | cons w stack =>
    rw [hstack] at hen
    dsimp only at hen
    cases hphase : w.phase with
    | loop prev next => exact ⟨w, stack, prev, next, rfl, hphase⟩
    | ports =>
      rw [hphase] at hen
      cases hen
    | routine cur next =>
      rw [hphase] at hen
      cases hen

omit [DecidableEq Arr] [DecidableEq Sig] in
theorem exists_routine_of_enabled (hen : s.enabled .ret) :
    ∃ w stack cur next, s.stack = w :: stack ∧ w.phase = .routine cur next := by
  rw [enabled] at hen
  cases hstack : s.stack with
  | nil =>
    rw [hstack] at hen
    cases hen
  | cons w stack =>
    rw [hstack] at hen
    dsimp only at hen
    cases hphase : w.phase with
    | routine cur next => exact ⟨w, stack, cur, next, rfl, hphase⟩
    | ports =>
      rw [hphase] at hen
      cases hen
    | loop prev next =>
      rw [hphase] at hen
      cases hen

/-- A turn of a loop. -/
theorem Sound.visit (hs : s.Sound lists) (design : CallbackDesign Arr Sig) {bits : List Char}
    (hen : s.enabled (.visit bits)) (hcalm : s.calm design (.visit bits)) :
    ∃ s', s.visit design bits = some s' ∧ ∃ lists', s'.Sound lists' := by
  obtain ⟨w, stack, prev, next, hstack, hphase⟩ := exists_loop_of_enabled hen
  have hwalks := hs.walks
  have houter := hs.outer
  rw [hstack] at hwalks houter
  have hw := hwalks w List.mem_cons_self
  rw [calm, hstack] at hcalm
  rw [CallbackState.visit, hstack]
  dsimp only at hcalm ⊢
  rw [hphase] at hcalm ⊢
  cases next with
  | none => exact ⟨_, rfl, lists, (hs.finish hstack hphase).enter houter hw.before_le w.later⟩
  | some cur =>
    obtain ⟨-, cb, hcb, -⟩ := hw.exists_entry hs.linked hphase
    dsimp only at hcalm ⊢
    rw [hcb, Option.all_some] at hcalm
    obtain ⟨r, hr, hserved⟩ :=
      CallbackStore.visitEntry_served hs.linked hw hphase hcb design bits hcalm
    obtain ⟨lists', hl', hw', hstay⟩ := hserved.sound
    refine ⟨_, by rw [hcb, Option.bind_some, hr]; rfl, lists', hl', ?_, houter, ?_⟩
    · intro u hu
      rcases List.mem_cons.mp hu with rfl | hu
      · exact hw'
      · exact hstay u hu (hwalks u (List.mem_cons_of_mem w hu))
    · rw [hserved.registered]
      exact hs.finished

/-- A step that does not go wrong. -/
theorem Sound.exec (hs : s.Sound lists) (design : CallbackDesign Arr Sig)
    {l : CallbackStep Arr Sig} (hen : s.enabled l) (hcalm : s.calm design l) :
    ∃ s', s.exec design l = some s' ∧ ∃ lists', s'.Sound lists' := by
  cases l with
  | arrayWordCallback arr addr index bits =>
    exact ⟨_, rfl, hs.addCallback hen (.array arr) index addr bits⟩
  | arrayCallback arr index => exact ⟨_, rfl, hs.addCallback hen (.array arr) index (-1) none⟩
  | signalCallback sig index bits =>
    exact ⟨_, rfl, hs.addCallback hen (.signal sig) index (-1) bits⟩
  | remove id =>
    refine ⟨_, rfl, lists, hs.setStore (hs.linked.vpiRemoveCb id) List.prefix_rfl ?_⟩
    exact fun w hw => (hs.walks w hw).vpiRemoveCb id
  | wordChange arr addr =>
    exact ⟨_, rfl, lists, hs.enter (hs.not_inLoop hen) (Nat.le_refl _) _⟩
  | signalChange sig =>
    exact ⟨_, rfl, lists, hs.enter (hs.not_inLoop hen) (Nat.le_refl _) _⟩
  | walk =>
    rw [enabled] at hen
    rw [CallbackState.exec]
    cases hstack : s.stack with
    | nil =>
      rw [hstack] at hen
      cases hen
    | cons w stack =>
      have hw := hs.walks w (hstack ▸ List.mem_cons_self)
      exact ⟨_, rfl, lists, hs.setTop hstack (hw.walk hs.linked)⟩
  | visit bits => exact hs.visit design hen hcalm
  | ret =>
    obtain ⟨w, stack, cur, next, hstack, hphase⟩ := exists_routine_of_enabled hen
    have hw := hs.walks w (hstack ▸ List.mem_cons_self)
    have hposition : (WalkPhase.loop (some cur) next).position = w.phase.position := by
      rw [hphase]
      rfl
    have hw' : { w with phase := .loop (some cur) next }.Sound s.store lists :=
      ⟨hw.before_le, hw.part, fun prev next hpos => hw.stands prev next (hposition ▸ hpos)⟩
    refine ⟨_, ?_, lists, hs.setTop hstack hw'⟩
    rw [CallbackState.exec, hstack]
    dsimp only
    rw [hphase]

/-- In a run none of whose turns goes wrong no deleted entry is read, no callback is lost, only
cancelled ones are deleted, and each walk calls what was registered before its change. -/
theorem callbacks_kept (design : CallbackDesign Arr Sig) (ls : List (CallbackStep Arr Sig))
    (h : Runs.Meets (step design) (fun s l => s.enabled l ∧ s.calm design l) init ls) :
    ∃ s, Runs.run (step design) init ls = some s ∧ s.Kept := by
  have hstep : ∀ (s : CallbackState Arr Sig) (l : CallbackStep Arr Sig), (∃ lists, s.Sound lists) →
      (s.enabled l ∧ s.calm design l) →
      ∃ s', step design s l = some s' ∧ ∃ lists', s'.Sound lists' := by
    rintro s l ⟨lists, hs⟩ ⟨hen, hcalm⟩
    rw [step, if_pos hen]
    exact hs.exec design hen hcalm
  obtain ⟨s, hrun, lists, hs⟩ := Runs.exists_run_of_meets hstep ⟨_, sound_init⟩ h
  exact ⟨s, hrun, hs.kept⟩

/-- A signal that is word 3 of an array. -/
def wordDesign : CallbackDesign Unit Unit := ⟨fun _ => [((), 3)], fun _ => 0, fun _ => true⟩

/-- The routine of a part of the word cancels the callback of the signal and writes the word. -/
def wordRun : List (CallbackStep Unit Unit) :=
  [.signalCallback () 0 none, .arrayCallback () 0, .arrayWordCallback () 3 0 (some ['0']),
    .signalChange (), .walk, .visit ['1'], .remove 0, .wordChange () 3, .walk, .visit ['1'],
    .visit [], .ret, .visit [], .ret, .visit [], .ret, .visit [], .visit [], .visit []]

theorem callbacks_kept_word :
    ∃ s, Runs.run (step wordDesign) init wordRun = some s ∧ s.Kept :=
  callbacks_kept wordDesign wordRun (by decide +kernel)

/-- A signal that is no word. -/
def signalDesign : CallbackDesign Unit Unit := ⟨fun _ => [], fun _ => 0, fun _ => true⟩

/-- The routine of the first of two callbacks cancels the second and writes the signal. -/
def cancelNextRun : List (CallbackStep Unit Unit) :=
  [.signalCallback () 0 none, .signalCallback () 0 none, .signalChange (), .visit [], .remove 0,
    .signalChange (), .visit [], .ret, .visit [], .visit [], .ret, .visit []]

/-- The walk within deletes the entry that the walk around has saved as its `next`. -/
theorem not_callbacks_kept : ¬ ∀ ls : List (CallbackStep Unit Unit),
    Runs.Meets (step signalDesign) (fun s l => s.enabled l) init ls →
      ∃ s, Runs.run (step signalDesign) init ls = some s ∧ s.Kept := by
  intro h
  obtain ⟨s, hrun, -⟩ := h cancelNextRun (by decide +kernel)
  have hnone : (Runs.run (step signalDesign) init cancelNextRun).isNone = true := by
    decide +kernel
  rw [hrun] at hnone
  cases hnone

end CallbackState

end Icarus.Vvp
