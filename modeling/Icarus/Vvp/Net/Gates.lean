import Icarus.Core.Propagation
import Icarus.Vvp.Thread.Compare

/-!
# Networks of gates

Gates keep what arrives on their four ports, and one whose inputs change is scheduled, once, to send
its output. Scheduled gates run in any order, and messages may arrive in between. What the gates
have sent then follows from what they were sent, and without loops all orders end the same.
-/

namespace Icarus.Vvp

open Icarus.Core Icarus.Core.Propagation

/-- The operator `&` of bits. -/
def Bit4.and : Bit4 → Bit4 → Bit4
  | .zero, _ | _, .zero => .zero
  | .one, .one => .one
  | _, _ => .x

/-- The operator `|` of bits. -/
def Bit4.or : Bit4 → Bit4 → Bit4
  | .one, _ | _, .one => .one
  | .zero, .zero => .zero
  | _, _ => .x

/-- The operator `^` of bits. -/
def Bit4.xor : Bit4 → Bit4 → Bit4
  | .zero, .zero | .one, .one => .zero
  | .zero, .one | .one, .zero => .one
  | _, _ => .x

/-- `bit4_z2x`. -/
def Bit4.z2x : Bit4 → Bit4
  | .z => .x
  | b => b

/-- What arrives by `recv_vec4`, or by `recv_vec4_pv`: a part that lies within its vector. -/
inductive NetMessage
  | vec4 (bit : Vector4)
  | vec4Pv (bit : Vector4) (base vwid : Nat) (h : base + bit.length ≤ vwid)

namespace NetMessage

/-- A vector is replaced, or a part of it. -/
def act : NetMessage → Vector4 → Vector4
  | vec4 bit, _ => bit
  | vec4Pv bit base _ _, input => input.setVec base bit

/-- What messages do to vectors. -/
def msgs : Messages Vector4 NetMessage := ⟨act, vec4, fun _ _ => rfl⟩

/-- An input is assigned, or `set_vec` is called; and whether it changes. -/
def assign (m : NetMessage) (input : Vector4) : Option (Vector4 × Bool) :=
  match m with
  | vec4 bit => some (bit, bit ≠ input)
  | vec4Pv bit base _ _ =>
    if base + bit.length ≤ input.length then
      some (input.setVec base bit, input.setVec base bit ≠ input)
    else none

theorem assign_spec {m : NetMessage} {input input' : Vector4} {flag : Bool}
    (h : m.assign input = some (input', flag)) :
    input' = m.act input ∧ (flag = false → input' = input) := by
  cases m with
  | vec4 bit =>
    cases h
    exact ⟨rfl, by simp⟩
  | vec4Pv bit base vwid hpart =>
    rw [assign] at h
    split_ifs at h
    cases h
    exact ⟨rfl, by simp⟩

end NetMessage

/-! ## Boolean gates -/

/-- `vvp_fun_boolean_`, and `run_run` of a gate. -/
def funBoolean (wid : Nat) (runRun : (Fin 4 → Vector4) → Option Vector4) :
    Cell (Fin 4) Vector4 NetMessage where
  State := Fin 4 → Vector4
  init := fun _ => List.replicate wid .z
  recv port m input := (m.assign (input port)).map fun r => (Function.update input port r.1, r.2)
  run input := (runRun input).map fun result => (input, result)

/-- The operators `&=`, `|=` and `^=`, which read bits that are not there if the sizes differ. -/
def assignOp (op : Bit4 → Bit4 → Bit4) (v that : Vector4) : Option Vector4 :=
  if v.length = that.length then some (List.zipWith op v that) else none

/-- `run_run` of `vvp_fun_and`, `vvp_fun_or` and `vvp_fun_xor`. -/
def runRunOp (op : Bit4 → Bit4 → Bit4) (invert : Bool) (input : Fin 4 → Vector4) :
    Option Vector4 :=
  ([1, 2, 3].foldlM (fun result pdx => assignOp op result (input pdx)) (input 0)).map fun result =>
    if invert then result.map .not else result

/-- `run_run` of `vvp_fun_equiv` and `vvp_fun_impl`. -/
def runRunBit (op : Bit4 → Bit4 → Bit4) (input : Fin 4 → Vector4) : Option Vector4 :=
  match input 0, input 1 with
  | [a], [b] => some [op a b]
  | _, _ => none

/-- A gate that keeps its inputs asks to be run when one changes. -/
def funBoolean_lawful (wid : Nat) (runRun : (Fin 4 → Vector4) → Option Vector4) :
    (funBoolean wid runRun).Lawful NetMessage.msgs fun _ => List.replicate wid .z where
  table := runRun
  Holds ins input := input = ins
  Ran _ := True
  holds_init := rfl
  holds_recv := by
    rintro ins _ port m _ r rfl h
    obtain ⟨⟨input', flag⟩, hassign, heq⟩ := Option.map_eq_some_iff.mp h
    cases heq
    rw [(NetMessage.assign_spec hassign).1]
    rfl
  holds_run := by
    rintro ins _ _ v rfl h
    obtain ⟨result, hresult, heq⟩ := Option.map_eq_some_iff.mp h
    cases heq
    exact ⟨rfl, trivial, hresult⟩
  ran_recv _ _ _ := trivial
  table_recv := by
    rintro _ input port m _ rfl - h
    obtain ⟨⟨input', flag⟩, hassign, heq⟩ := Option.map_eq_some_iff.mp h
    cases heq
    obtain ⟨hact, hsame⟩ := NetMessage.assign_spec hassign
    refine congrArg runRun (Eq.trans ?_ (Function.update_eq_self port _))
    exact congrArg (Function.update _ port) (hact.symm.trans (hsame rfl))
  init_recv := by
    intro port m s' h
    obtain ⟨⟨input', flag⟩, hassign, heq⟩ := Option.map_eq_some_iff.mp h
    cases heq
    rw [(NetMessage.assign_spec hassign).2 rfl]
    exact Function.update_eq_self port _

/-! ## Buffers -/

/-- `vvp_fun_buf_not_`, and `run_run` of a gate. -/
def funBufNot (wid : Nat) (runRun : Vector4 → Vector4) : Cell (Fin 4) Vector4 NetMessage where
  State := Vector4
  init := List.replicate wid .z
  recv port m input := if port ≠ 0 then some (input, false) else m.assign input
  run input := some (input, runRun input)

/-- A buffer reads the first port only. -/
def funBufNot_lawful (wid : Nat) (runRun : Vector4 → Vector4) :
    (funBufNot wid runRun).Lawful NetMessage.msgs fun _ => List.replicate wid .z where
  table ins := some (runRun (ins 0))
  Holds ins input := input = ins 0
  Ran _ := True
  holds_init := rfl
  holds_recv := by
    rintro ins _ port m s' r rfl h
    simp only [funBufNot] at h
    split_ifs at h with hport
    · cases h
      rw [Function.update_of_ne (Ne.symm hport)]
    · obtain rfl := not_not.mp hport
      rw [Function.update_self]
      exact (NetMessage.assign_spec h).1
  holds_run := by
    rintro ins _ _ v rfl h
    cases h
    exact ⟨rfl, trivial, rfl⟩
  ran_recv _ _ _ := trivial
  table_recv := by
    rintro ins _ port m s' rfl - h
    simp only [funBufNot] at h
    split_ifs at h with hport
    · rw [Function.update_of_ne (Ne.symm hport)]
    · obtain rfl := not_not.mp hport
      obtain ⟨hact, hsame⟩ := NetMessage.assign_spec h
      rw [Function.update_self]
      exact congrArg (some ∘ runRun) (hact.symm.trans (hsame rfl))
  init_recv := by
    intro port m s' h
    simp only [funBufNot] at h
    split_ifs at h with hport
    · cases h
      rfl
    · exact (NetMessage.assign_spec h).2 rfl

/-! ## Multiplexers -/

/-- `sel_type`. -/
inductive SelType
  | port0
  | port1
  | both
  deriving DecidableEq

/-- The port that a bit selects. -/
def Bit4.select : Bit4 → SelType
  | .zero => .port0
  | .one => .port1
  | _ => .both

/-- `vvp_fun_muxz`. -/
structure FunMuxz where
  /-- `a_`. -/
  a : Vector4
  /-- `b_`. -/
  b : Vector4
  /-- `select_`. -/
  select : SelType
  /-- `has_run_`. -/
  hasRun : Bool

/-- The bit that arrives on the select port. Others than one bit fail assertions. -/
def NetMessage.selectBit : NetMessage → Option Bit4
  | vec4 [bit] | vec4Pv [bit] 0 _ _ => some bit
  | _ => none

/-- The output when both ports are selected. -/
def mergeInputs (a b : Vector4) : Vector4 :=
  List.zipWith (fun l r => if l = r then l else .x) a b ++
    List.replicate (max a.length b.length - min a.length b.length) .x

/-- The output for a select. -/
def muxzOut : SelType → Vector4 → Vector4 → Vector4
  | .port0, a, _ => a
  | .port1, _, b => b
  | .both, a, b => mergeInputs a b

/-- `recv_vec4` and `recv_vec4_pv` of `vvp_fun_muxz`. -/
def FunMuxz.recv (port : Fin 4) (m : NetMessage) (s : FunMuxz) : Option (FunMuxz × Bool) :=
  match port with
  | 0 => (m.assign s.a).map fun r =>
    ({ s with a := r.1 }, (r.2 || !s.hasRun) && s.select ≠ .port1)
  | 1 => (m.assign s.b).map fun r =>
    ({ s with b := r.1 }, (r.2 || !s.hasRun) && s.select ≠ .port0)
  | 2 => m.selectBit.map fun bit =>
    ({ s with select := bit.select },
      bit.select ≠ s.select || bit.select = .both && !s.hasRun)
  | 3 => some (s, false)

/-- `vvp_fun_muxz`. -/
def funMuxz (wid : Nat) : Cell (Fin 4) Vector4 NetMessage where
  State := FunMuxz
  init := ⟨List.replicate wid .z, List.replicate wid .z, .both, false⟩
  recv := FunMuxz.recv
  run s := some ({ s with hasRun := true }, muxzOut s.select s.a s.b)

/-- The select, from what the port holds. -/
def selectOf : Vector4 → SelType
  | [bit] => bit.select
  | _ => .both

theorem NetMessage.selectBit_spec {m : NetMessage} {bit : Bit4} {input : Vector4}
    (h : m.selectBit = some bit) (hone : input.length = 1) : m.act input = [bit] := by
  obtain ⟨b, rfl⟩ := List.length_eq_one_iff.mp hone
  unfold selectBit at h
  split at h <;> cases h <;> rfl

/-- What a multiplexer keeps for values on its ports. -/
structure FunMuxz.Keeps (ins : Fin 4 → Vector4) (s : FunMuxz) : Prop where
  a_eq : s.a = ins 0
  b_eq : s.b = ins 1
  select_eq : s.select = selectOf (ins 2)
  one : (ins 2).length = 1

/-- What the ports of a multiplexer hold at first. -/
def muxzStart (wid : Nat) (port : Fin 4) : Vector4 :=
  if port = 2 then [.z] else List.replicate wid .z

/-- A multiplexer that does not ask to be run has the output that it had. -/
theorem FunMuxz.recv_spec {ins : Fin 4 → Vector4} {s s' : FunMuxz} {port : Fin 4}
    {m : NetMessage} {r : Bool} (h : s.Keeps ins) (hrecv : s.recv port m = some (s', r)) :
    s'.Keeps (Function.update ins port (m.act (ins port))) ∧ s'.hasRun = s.hasRun ∧
      (r = false → muxzOut s'.select s'.a s'.b = muxzOut s.select s.a s.b ∧
        (s.select = .both → s.hasRun = false → s' = s)) := by
  match port with
  | 0 =>
    obtain ⟨⟨a, flag⟩, hassign, heq⟩ := Option.map_eq_some_iff.mp hrecv
    cases heq
    obtain ⟨hact, hsame⟩ := NetMessage.assign_spec hassign
    refine ⟨⟨by rw [← h.a_eq]; exact hact, h.b_eq, h.select_eq, h.one⟩, rfl, fun hr => ?_⟩
    by_cases hother : s.select = .port1
    · exact ⟨by rw [hother]; rfl, fun hboth => by rw [hother] at hboth; cases hboth⟩
    · have hkept : flag = false ∧ s.hasRun = true := by simpa [hother] using hr
      obtain rfl : a = s.a := hsame hkept.1
      exact ⟨rfl, fun _ _ => rfl⟩
  | 1 =>
    obtain ⟨⟨b, flag⟩, hassign, heq⟩ := Option.map_eq_some_iff.mp hrecv
    cases heq
    obtain ⟨hact, hsame⟩ := NetMessage.assign_spec hassign
    refine ⟨⟨h.a_eq, by rw [← h.b_eq]; exact hact, h.select_eq, h.one⟩, rfl, fun hr => ?_⟩
    by_cases hother : s.select = .port0
    · exact ⟨by rw [hother]; rfl, fun hboth => by rw [hother] at hboth; cases hboth⟩
    · have hkept : flag = false ∧ s.hasRun = true := by simpa [hother] using hr
      obtain rfl : b = s.b := hsame hkept.1
      exact ⟨rfl, fun _ _ => rfl⟩
  | 2 =>
    obtain ⟨bit, hbit, heq⟩ := Option.map_eq_some_iff.mp hrecv
    cases heq
    have hact := NetMessage.selectBit_spec hbit h.one
    refine ⟨⟨h.a_eq, h.b_eq, ?_, ?_⟩, rfl, fun hr => ?_⟩
    · rw [Function.update_self, hact]
      rfl
    · rw [Function.update_self, hact]
      rfl
    · simp only [Bool.or_eq_false_iff, decide_eq_false_iff_not, not_not] at hr
      refine ⟨by rw [hr.1], fun hboth hnew => ?_⟩
      simp [hr.1, hboth, hnew] at hr
  | 3 =>
    cases hrecv
    exact ⟨⟨h.a_eq, h.b_eq, h.select_eq, h.one⟩, rfl, fun _ => ⟨rfl, fun _ _ => rfl⟩⟩

/-- A multiplexer sends what its select says. -/
def funMuxz_lawful (wid : Nat) : (funMuxz wid).Lawful NetMessage.msgs (muxzStart wid) where
  table ins := some (muxzOut (selectOf (ins 2)) (ins 0) (ins 1))
  Holds ins s := FunMuxz.Keeps ins s
  Ran s := FunMuxz.hasRun s
  holds_init := ⟨rfl, rfl, rfl, rfl⟩
  holds_recv h hrecv := (FunMuxz.recv_spec h hrecv).1
  holds_run := by
    intro ins s s' v h hrun
    cases hrun
    refine ⟨⟨h.a_eq, h.b_eq, h.select_eq, h.one⟩, rfl, ?_⟩
    rw [h.a_eq, h.b_eq, h.select_eq]
  ran_recv h hran hrecv := (FunMuxz.recv_spec h hrecv).2.1.trans hran
  table_recv := by
    intro ins s port m s' h _ hrecv
    obtain ⟨hnew, -, hout⟩ := FunMuxz.recv_spec h hrecv
    have hsame := (hout rfl).1
    rw [h.a_eq, h.b_eq, h.select_eq, hnew.a_eq, hnew.b_eq, hnew.select_eq] at hsame
    exact congrArg some hsame
  init_recv := by
    intro port m s' hrecv
    have hinit : FunMuxz.Keeps (muxzStart wid) (funMuxz wid).init := ⟨rfl, rfl, rfl, rfl⟩
    exact ((FunMuxz.recv_spec hinit hrecv).2.2 rfl).2 rfl rfl

/-! ## Circuits -/

/-- The gates; the flags invert the output. -/
inductive Gate
  | and (wid : Nat) (invert : Bool)
  | or (wid : Nat) (invert : Bool)
  | xor (wid : Nat) (invert : Bool)
  | equiv
  | impl
  | buf (wid : Nat)
  | not (wid : Nat)
  | muxz (wid : Nat)

namespace Gate

/-- The functor of a gate. -/
def cell : Gate → Cell (Fin 4) Vector4 NetMessage
  | and wid invert => funBoolean wid (runRunOp .and invert)
  | or wid invert => funBoolean wid (runRunOp .or invert)
  | xor wid invert => funBoolean wid (runRunOp .xor invert)
  | equiv => funBoolean 1 (runRunBit fun a b => (a.xor b).not)
  | impl => funBoolean 1 (runRunBit fun a b => a.not.or b)
  | buf wid => funBufNot wid (List.map .z2x)
  | not wid => funBufNot wid (List.map .not)
  | muxz wid => funMuxz wid

/-- What the ports hold at first. -/
def start : Gate → Fin 4 → Vector4
  | and wid _ | or wid _ | xor wid _ | buf wid | not wid => fun _ => List.replicate wid .z
  | equiv | impl => fun _ => List.replicate 1 .z
  | muxz wid => muxzStart wid

/-- The output that the values on the ports call for. -/
def table : Gate → (Fin 4 → Vector4) → Option Vector4
  | and _ invert => runRunOp .and invert
  | or _ invert => runRunOp .or invert
  | xor _ invert => runRunOp .xor invert
  | equiv => runRunBit fun a b => (a.xor b).not
  | impl => runRunBit fun a b => a.not.or b
  | buf _ => fun ins => some ((ins 0).map .z2x)
  | not _ => fun ins => some ((ins 0).map .not)
  | muxz _ => fun ins => some (muxzOut (selectOf (ins 2)) (ins 0) (ins 1))

/-- Each gate asks to be run if its output may have changed. -/
def lawful : (g : Gate) → g.cell.Lawful NetMessage.msgs g.start
  | and _ _ | or _ _ | xor _ _ | equiv | impl => funBoolean_lawful _ _
  | buf _ | not _ => funBufNot_lawful _ _
  | muxz wid => funMuxz_lawful wid

theorem table_lawful (g : Gate) : g.lawful.table = g.table := by
  cases g <;> rfl

end Gate

/-- Gates that are wired. What drives a port has its width. -/
structure Circuit (ι σ : Type) [DecidableEq ι] [DecidableEq σ] extends Wiring ι σ (Fin 4) where
  /-- The gates. -/
  gate : ι → Gate
  /-- The values at first. -/
  first : σ ⊕ ι → Vector4
  /-- They are what the ports hold. -/
  start_eq : ∀ {j k a}, driver j k = some a → (gate j).start k = first a

variable {ι σ : Type} [DecidableEq ι] [DecidableEq σ]

/-- The network of a circuit. -/
def Circuit.net (C : Circuit ι σ) : Net ι σ (Fin 4) Vector4 NetMessage where
  toWiring := C.toWiring
  msgs := NetMessage.msgs
  cell j := (C.gate j).cell
  first := C.first
  start j := (C.gate j).start
  start_eq := C.start_eq
  lawful j := (C.gate j).lawful

/-- An inverter and its input. -/
private def inverter : Circuit Unit Unit where
  fanout a := if a = .inl () then [((), 0)] else []
  driver _ k := if k = 0 then some (.inl ()) else none
  mem_fanout := by decide
  nodup := by decide
  gate _ := .not 1
  first _ := [.z]
  start_eq _ := rfl

/-- The inverter is sent bits, and run after each. -/
private def inverterActs (bits : List Bit4) : List (Act Unit Unit NetMessage) :=
  bits.flatMap fun b => [.drive () (.vec4 [b]), .run ()]

/-- The inverter afterwards. -/
private def inverterAfter (acts : List (Act Unit Unit NetMessage)) : inverter.net.State :=
  (Runs.run Net.step inverter.net.initial acts).getD inverter.net.initial

/-- In every state that is reached, a gate that is not scheduled has sent what the values last sent
to its ports call for; one that has never run has received nothing new. -/
theorem circuit_upToDate (C : Circuit ι σ) {acts : List (Act ι σ NetMessage)} {s : C.net.State}
    (hrun : Runs.run Net.step C.net.initial acts = some s) {j : ι} (hquiet : s.pending j = false) :
    if s.ran j then (C.gate j).table (C.net.ports s.value j) = some (s.value (.inr j))
    else s.value (.inr j) = C.first (.inr j) ∧ s.cells j = (C.gate j).cell.init := by
  have hfed := Net.allFed_of_run hrun j
  cases hran : s.ran j with
  | true =>
    have hsent := hfed.sent hran hquiet
    rw [show (C.net.lawful j).table = (C.gate j).table from (C.gate j).table_lawful] at hsent
    exact hsent
  | false => exact ⟨hfed.silent hran, hfed.new hran hquiet⟩

theorem circuit_upToDate_inverter :
    (inverterAfter (inverterActs [.one])).value (.inr ()) = [.zero] := by
  have hrun : Runs.run Net.step inverter.net.initial (inverterActs [.one]) =
      some (inverterAfter (inverterActs [.one])) := rfl
  have h := circuit_upToDate inverter hrun (j := ()) rfl
  have hran : (inverterAfter (inverterActs [.one])).ran () = true := rfl
  rw [if_pos hran] at h
  exact (Option.some.inj h).symm

/-- Without loops the values of the sources determine those of all gates that have run, whatever
was sent on the way there and in whatever order the gates ran. -/
theorem circuit_orderIndependent (C : Circuit ι σ) (rank : ι → Nat)
    (hrank : ∀ {j k i}, C.driver j k = some (.inr i) → rank i < rank j)
    {acts acts' : List (Act ι σ NetMessage)} {s t : C.net.State}
    (hs : Runs.run Net.step C.net.initial acts = some s)
    (ht : Runs.run Net.step C.net.initial acts' = some t)
    (hquiet : ∀ j, s.pending j = false ∧ t.pending j = false)
    (hsources : ∀ a, s.value (.inl a) = t.value (.inl a)) (hran : s.ran = t.ran) :
    s.value = t.value :=
  (Net.allFed_of_run hs).unique hrank (Net.allFed_of_run ht) (fun j => (hquiet j).1)
    (fun j => (hquiet j).2) hsources hran

theorem circuit_orderIndependent_inverter :
    (inverterAfter (inverterActs [.one])).value =
      (inverterAfter (inverterActs [.x, .one])).value := by
  have hone : Runs.run Net.step inverter.net.initial (inverterActs [.one]) =
      some (inverterAfter (inverterActs [.one])) := rfl
  have htwo : Runs.run Net.step inverter.net.initial (inverterActs [.x, .one]) =
      some (inverterAfter (inverterActs [.x, .one])) := rfl
  exact circuit_orderIndependent inverter (fun _ => 0) (by decide) hone htwo
    (fun _ => ⟨rfl, rfl⟩) (fun _ => rfl) rfl

/-- Without loops the gates settle: while no source sends anything, they run at most so often. -/
theorem circuit_settles [Fintype ι] (C : Circuit ι σ) (rank : ι → Nat) {width depth : Nat}
    (hrank : ∀ {j k i}, C.driver j k = some (.inr i) → rank i < rank j)
    (hwidth : ∀ j, (C.fanout (.inr j)).length ≤ width) (hdepth : ∀ j, rank j < depth)
    {s s' : C.net.State} {js : List ι} (hrun : Runs.run Net.step s (js.map .run) = some s') :
    js.length ≤ ∑ j, if s.pending j then (width + 1) ^ (depth - rank j) else 0 :=
  Net.length_le_weight hrank hwidth hdepth hrun

theorem circuit_settles_inverter : [()].length ≤ 1 := by
  have hrun : Runs.run Net.step (inverterAfter [.drive () (.vec4 [.one])]) ([()].map .run) =
      some (inverterAfter (inverterActs [.one])) := rfl
  have hwidth : ∀ j, (inverter.fanout (.inr j)).length ≤ 0 := by decide
  exact circuit_settles inverter (fun _ => 0) (by decide) hwidth (fun _ => Nat.one_pos) hrun

end Icarus.Vvp
