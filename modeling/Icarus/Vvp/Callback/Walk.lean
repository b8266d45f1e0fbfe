import Icarus.Core.Chain
import Icarus.Core.Runs

/-!
# Value change callbacks

The callbacks on an array or a signal are an intrusive list. A change walks the
list with saved `prev` and `next` pointers, calls the routines and frees the
entries whose routine has been taken away. A routine may register, cancel and
write, so walks nest; what is being executed is a stack of walks.
-/

namespace Icarus.Vvp

open Core

variable {Arr Sig : Type} [DecidableEq Arr] [DecidableEq Sig]

/-- An object with a list of callbacks. -/
inductive CallbackObj (Arr Sig : Type)
  /-- `__vpiArray`, with `vpi_callbacks`. -/
  | array (arr : Arr)
  /-- `vvp_vpi_callback`, with `vpi_callbacks_`. -/
  | signal (sig : Sig)
  deriving DecidableEq

/-- `value_callback` and the classes derived from it. `cb_data.value` is left out: the
constructor always sets it. -/
structure ValueCallback where
  /-- `next`. -/
  next : Option Nat
  /-- `cb_data.cb_rtn` is not null. -/
  cbRtn : Bool
  /-- `cb_data.index`. -/
  index : BitVec 32
  /-- `word_addr` of an `array_word_value_callback`: -1 is for every word. -/
  wordAddr : Int
  /-- `value_bits_`, of a callback on a part. -/
  valueBits : Option (List Char)
  deriving DecidableEq

/-- `test_value_callback_ready`, with the present text of the part. -/
def ValueCallback.testValueCallbackReady (cb : ValueCallback) (bits : List Char) :
    ValueCallback × Bool :=
  ({ cb with valueBits := cb.valueBits.map fun _ => bits }, cb.valueBits ≠ some bits)

/-- What does not change while the simulator runs. -/
structure CallbackDesign (Arr Sig : Type) where
  /-- `array_words_`: the words of arrays that a signal is. -/
  arrayWords : Sig → List (Arr × Nat)
  /-- `first_addr.get_value()`. -/
  firstAddr : Arr → BitVec 32
  /-- `word_change` has a branch that reads a word: the array is of reals, of vectors or of
  integers. -/
  readable : Arr → Bool

/-- A walk along a list of callbacks. -/
inductive CallbackPass (Arr Sig : Type)
  /-- `word_change(addr)`. -/
  | word (arr : Arr) (addr : Nat)
  /-- The loop of `run_vpi_callbacks_slow_` along the list of the signal. -/
  | own (sig : Sig)
  deriving DecidableEq

namespace CallbackPass

/-- The object whose list is walked. -/
def obj : CallbackPass Arr Sig → CallbackObj Arr Sig
  | word arr _ => .array arr
  | own sig => .signal sig

/-- The walk does not skip an entry with this `word_addr`. -/
def isMine : CallbackPass Arr Sig → Int → Bool
  | word _ addr, wordAddr => wordAddr = (BitVec.ofNat 64 addr).toInt || wordAddr = -1
  | own _, _ => true

/-- A callback for the whole array gets the index of the word. -/
def setIndex (design : CallbackDesign Arr Sig) (pass : CallbackPass Arr Sig)
    (cb : ValueCallback) : ValueCallback :=
  match pass with
  | word arr addr =>
    if cb.wordAddr = -1 then { cb with index := BitVec.ofNat 32 addr + design.firstAddr arr }
    else cb
  | own _ => cb

/-- The value for the routine can be read. -/
def readable (design : CallbackDesign Arr Sig) : CallbackPass Arr Sig → Bool
  | word arr _ => design.readable arr
  | own _ => true

end CallbackPass

/-- What was registered. Nothing in the program keeps it. -/
structure CallbackRegistration (Arr Sig : Type) where
  /-- The object. -/
  obj : CallbackObj Arr Sig
  /-- The word, -1 for every word. -/
  wordAddr : Int
  /-- The callback is on a part. -/
  part : Bool
  deriving DecidableEq

/-- A walk has to serve what was registered so. -/
def CallbackPass.concerns (pass : CallbackPass Arr Sig) (r : CallbackRegistration Arr Sig) : Bool :=
  r.obj = pass.obj && pass.isMine r.wordAddr

/-- How far a walk is. -/
inductive WalkPhase
  /-- `word_change` is at the ports of the array. -/
  | ports
  /-- At the head of the loop. -/
  | loop (prev next : Option Nat)
  /-- In the routine of an entry. -/
  | routine (cur : Nat) (next : Option Nat)
  deriving DecidableEq

/-- The saved `next`. -/
def WalkPhase.next : WalkPhase → Option Nat
  | ports => none
  | loop _ next => next
  | routine _ next => next

/-- The walk is in its own code. -/
def WalkPhase.inLoop : WalkPhase → Bool
  | loop _ _ => true
  | ports | routine _ _ => false

/-- A walk that is being executed, with its history. -/
structure CallbackWalk (Arr Sig : Type) where
  /-- The walk. -/
  pass : CallbackPass Arr Sig
  /-- The walks that follow for the same change. -/
  later : List (CallbackPass Arr Sig)
  /-- How far it is. -/
  phase : WalkPhase
  /-- How many callbacks had been registered before the change. -/
  before : Nat
  /-- The entries whose routine it has called. -/
  ran : List Nat
  /-- The entries whose part had not changed. -/
  unchanged : List Nat
  deriving DecidableEq

/-- The history of a walk that is over. -/
structure FinishedWalk (Arr Sig : Type) where
  /-- The walk. -/
  pass : CallbackPass Arr Sig
  /-- How many callbacks had been registered before the change. -/
  before : Nat
  /-- The entries whose routine it called. -/
  ran : List Nat
  /-- The entries whose part had not changed. -/
  unchanged : List Nat
  /-- The entries cancelled by its end. -/
  cancelled : List Nat
  deriving DecidableEq

/-- The entries and the lists. An address is the number of its registration, so that an entry that
has been deleted stays known as such. -/
structure CallbackStore (Arr Sig : Type) where
  /-- The entries that have not been deleted. -/
  heap : Nat → Option ValueCallback
  /-- `vpi_callbacks` and `vpi_callbacks_`. -/
  vpiCallbacks : CallbackObj Arr Sig → Option Nat
  /-- The registrations, in order. -/
  registered : List (CallbackRegistration Arr Sig)
  /-- The entries given to `vpi_remove_cb`. -/
  cancelled : List Nat

namespace CallbackStore

/-- The link of an entry. -/
def next (s : CallbackStore Arr Sig) (id : Nat) : Option Nat := (s.heap id).bind (·.next)

/-- An entry changed. -/
def modify (s : CallbackStore Arr Sig) (id : Nat) (f : ValueCallback → ValueCallback) :
    CallbackStore Arr Sig :=
  { s with heap := Function.update s.heap id ((s.heap id).map f) }

/-- A new entry at the head of the list of an object. -/
def addCallback (s : CallbackStore Arr Sig) (obj : CallbackObj Arr Sig) (index : BitVec 32)
    (wordAddr : Int) (valueBits : Option (List Char)) : CallbackStore Arr Sig :=
  let cb := ⟨s.vpiCallbacks obj, true, index, wordAddr, valueBits⟩
  { s with
    heap := Function.update s.heap s.registered.length (some cb)
    vpiCallbacks := Function.update s.vpiCallbacks obj (some s.registered.length)
    registered := s.registered ++ [⟨obj, wordAddr, valueBits.isSome⟩] }

/-- `vpip_array_word_change`. -/
def vpipArrayWordChange (s : CallbackStore Arr Sig) (arr : Arr) (addr : Int) (index : BitVec 32)
    (valueBits : Option (List Char)) : CallbackStore Arr Sig :=
  s.addCallback (.array arr) index addr valueBits

/-- `vpip_array_change`. -/
def vpipArrayChange (s : CallbackStore Arr Sig) (arr : Arr) (index : BitVec 32) :
    CallbackStore Arr Sig := s.addCallback (.array arr) index (-1) none

/-- `add_vpi_callback`. The list of a signal does not read `word_addr`. -/
def addVpiCallback (s : CallbackStore Arr Sig) (sig : Sig) (index : BitVec 32)
    (valueBits : Option (List Char)) : CallbackStore Arr Sig :=
  s.addCallback (.signal sig) index (-1) valueBits

/-- `vpi_remove_cb`. -/
def vpiRemoveCb (s : CallbackStore Arr Sig) (id : Nat) : CallbackStore Arr Sig :=
  { s.modify id fun cb => { cb with cbRtn := false } with cancelled := id :: s.cancelled }

/-- An entry deleted. -/
def delete (s : CallbackStore Arr Sig) (id : Nat) : CallbackStore Arr Sig :=
  { s with heap := Function.update s.heap id none }

/-- An entry is unlinked and deleted; nothing where the assertion fails or `prev` has been
deleted. -/
def reap (s : CallbackStore Arr Sig) (obj : CallbackObj Arr Sig) (prev next : Option Nat)
    (cur : Nat) : Option (CallbackStore Arr Sig) :=
  match prev with
  | none =>
    some ({ s with vpiCallbacks := Function.update s.vpiCallbacks obj next }.delete cur)
  | some prev =>
    if s.next prev = some cur then
      some ((s.modify prev fun cb => { cb with next := next }).delete cur)
    else none

/-- The body of the loop of a walk, for an entry; nothing where an assertion fails. -/
def visitEntry (design : CallbackDesign Arr Sig) (s : CallbackStore Arr Sig)
    (w : CallbackWalk Arr Sig) (prev : Option Nat) (cur : Nat) (cb : ValueCallback)
    (bits : List Char) : Option (CallbackStore Arr Sig × CallbackWalk Arr Sig) :=
  if !w.pass.isMine cb.wordAddr then some (s, { w with phase := .loop (some cur) cb.next })
  else
    let s := s.modify cur (w.pass.setIndex design)
    if cb.cbRtn then
      let ready := (cb.testValueCallbackReady bits).2
      let s := s.modify cur fun cb => (cb.testValueCallbackReady bits).1
      if !ready then
        some (s, { w with phase := .loop (some cur) cb.next, unchanged := cur :: w.unchanged })
      else if w.pass.readable design then
        some (s, { w with phase := .routine cur cb.next, ran := cur :: w.ran })
      else none
    else (s.reap w.pass.obj prev cb.next cur).map fun s =>
      (s, { w with phase := .loop prev cb.next })

end CallbackStore

/-- The store and the walks. -/
structure CallbackState (Arr Sig : Type) where
  /-- The entries and the lists. -/
  store : CallbackStore Arr Sig
  /-- The walks being executed, innermost first. -/
  stack : List (CallbackWalk Arr Sig)
  /-- The walks that are over. -/
  finished : List (FinishedWalk Arr Sig)

namespace CallbackState

/-- The simulator before any callback is registered. -/
def init : CallbackState Arr Sig := ⟨⟨fun _ => none, fun _ => none, [], []⟩, [], []⟩

/-- The first of the walks of a change begins. -/
def enter (s : CallbackState Arr Sig) (before : Nat) :
    List (CallbackPass Arr Sig) → CallbackState Arr Sig
  | [] => s
  | .word arr addr :: later =>
    { s with stack := ⟨.word arr addr, later, .ports, before, [], []⟩ :: s.stack }
  | .own sig :: later =>
    let phase := .loop none (s.store.vpiCallbacks (.signal sig))
    { s with stack := ⟨.own sig, later, phase, before, [], []⟩ :: s.stack }

/-- `word_change` is called. -/
def wordChange (s : CallbackState Arr Sig) (arr : Arr) (addr : Nat) : CallbackState Arr Sig :=
  s.enter s.store.registered.length [.word arr addr]

/-- `run_vpi_callbacks_slow_` is called. -/
def runVpiCallbacksSlow_ (design : CallbackDesign Arr Sig) (s : CallbackState Arr Sig)
    (sig : Sig) : CallbackState Arr Sig :=
  s.enter s.store.registered.length
    ((design.arrayWords sig).map (fun w => .word w.1 w.2) ++ [.own sig])

/-- A turn of the loop of the innermost walk; nothing where an assertion fails or a deleted entry
is read. -/
def visit (design : CallbackDesign Arr Sig) (s : CallbackState Arr Sig) (bits : List Char) :
    Option (CallbackState Arr Sig) :=
  match s.stack with
  | [] => none
  | w :: stack =>
    match w.phase with
    | .loop _ none =>
      let past := ⟨w.pass, w.before, w.ran, w.unchanged, s.store.cancelled⟩
      some ({ s with stack := stack, finished := past :: s.finished }.enter w.before w.later)
    | .loop prev (some cur) =>
      (s.store.heap cur).bind fun cb =>
        (s.store.visitEntry design w prev cur cb bits).map fun r =>
          { s with store := r.1, stack := r.2 :: stack }
    | _ => none

end CallbackState

/-- What can happen next. -/
inductive CallbackStep (Arr Sig : Type)
  /-- A callback on a word of an array or on a part of it. -/
  | arrayWordCallback (arr : Arr) (addr : Int) (index : BitVec 32)
    (valueBits : Option (List Char))
  /-- A callback on an array. -/
  | arrayCallback (arr : Arr) (index : BitVec 32)
  /-- A callback on a signal or on a part of it. -/
  | signalCallback (sig : Sig) (index : BitVec 32) (valueBits : Option (List Char))
  /-- A callback is cancelled. -/
  | remove (id : Nat)
  /-- A word of an array has changed. -/
  | wordChange (arr : Arr) (addr : Nat)
  /-- A signal has changed. -/
  | signalChange (sig : Sig)
  /-- The ports of the array have been served, and the walk reads the head of the list. -/
  | walk
  /-- The innermost walk takes a turn of its loop. -/
  | visit (bits : List Char)
  /-- The innermost routine returns. -/
  | ret
  deriving DecidableEq

namespace CallbackState

/-- Code outside the loops is being executed. -/
def outside (s : CallbackState Arr Sig) : Bool :=
  match s.stack with
  | [] => true
  | w :: _ => !w.phase.inLoop

/-- What the walk being executed allows. A callback is cancelled by its handle, so before it is
deleted. -/
def enabled (s : CallbackState Arr Sig) : CallbackStep Arr Sig → Bool
  | .arrayWordCallback _ _ _ _ | .arrayCallback _ _ | .signalCallback _ _ _ => s.outside
  | .wordChange _ _ | .signalChange _ => s.outside
  | .remove id => s.outside && (s.store.heap id).isSome
  | .walk => match s.stack with
    | w :: _ => w.phase = .ports
    | [] => false
  | .visit _ => !s.outside
  | .ret => match s.stack with
    | w :: _ => match w.phase with
      | .routine _ _ => true
      | _ => false
    | [] => false

/-- A step that is allowed; nothing where an assertion fails or a deleted entry is read. -/
def exec (design : CallbackDesign Arr Sig) (s : CallbackState Arr Sig) :
    CallbackStep Arr Sig → Option (CallbackState Arr Sig)
  | .arrayWordCallback arr addr index bits =>
    some { s with store := s.store.vpipArrayWordChange arr addr index bits }
  | .arrayCallback arr index => some { s with store := s.store.vpipArrayChange arr index }
  | .signalCallback sig index bits =>
    some { s with store := s.store.addVpiCallback sig index bits }
  | .remove id => some { s with store := s.store.vpiRemoveCb id }
  | .wordChange arr addr => some (s.wordChange arr addr)
  | .signalChange sig => some (s.runVpiCallbacksSlow_ design sig)
  | .walk => match s.stack with
    | [] => none
    | w :: stack =>
      let phase := .loop none (s.store.vpiCallbacks w.pass.obj)
      some { s with stack := { w with phase := phase } :: stack }
  | .visit bits => s.visit design bits
  | .ret => match s.stack with
    | [] => none
    | w :: stack => match w.phase with
      | .routine cur next =>
        some { s with stack := { w with phase := .loop (some cur) next } :: stack }
      | _ => none

/-- A step of a run. -/
def step (design : CallbackDesign Arr Sig) (s : CallbackState Arr Sig)
    (l : CallbackStep Arr Sig) : Option (CallbackState Arr Sig) :=
  if s.enabled l then s.exec design l else none

end CallbackState

end Icarus.Vvp
