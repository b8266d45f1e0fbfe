import Icarus.Vvp.Callback.Walk

/-!
# The lists of callbacks

The links of the entries that have not been deleted make a list for each object,
and a walk stands between two entries of it. Registering puts an entry before
every walk. An entry may be deleted under a walk unless the walk has saved it as
its `next`.
-/

namespace Icarus.Vvp

open Core

variable {Arr Sig : Type} [DecidableEq Arr] [DecidableEq Sig]

namespace CallbackStore

variable {s s' : CallbackStore Arr Sig} {lists : CallbackObj Arr Sig → List Nat}
  {obj obj' : CallbackObj Arr Sig} {id cur : Nat} {prev next : Option Nat} {list togo : List Nat}

/-- An entry is as it was registered, and has its routine unless it was cancelled. -/
def Fits (s : CallbackStore Arr Sig) (id : Nat) (cb : ValueCallback) : Prop :=
  ∃ r, s.registered[id]? = some r ∧ cb.wordAddr = r.wordAddr ∧ cb.valueBits.isSome = r.part ∧
    (cb.cbRtn = false → id ∈ s.cancelled)

/-- The object on which a callback was registered. -/
def objOf (s : CallbackStore Arr Sig) (id : Nat) : Option (CallbackObj Arr Sig) :=
  (s.registered[id]?).map (·.obj)

/-- The links make the lists, which hold the entries that have not been deleted; only cancelled
ones have been. -/
structure Linked (s : CallbackStore Arr Sig) (lists : CallbackObj Arr Sig → List Nat) : Prop where
  fits : ∀ id cb, s.heap id = some cb → s.Fits id cb
  deleted : ∀ id < s.registered.length, s.heap id = none → id ∈ s.cancelled
  chain : ∀ obj, Chain s.next (s.vpiCallbacks obj) (lists obj)
  nodup : ∀ obj, (lists obj).Nodup
  mem : ∀ obj id, id ∈ lists obj ↔ (s.heap id).isSome ∧ s.objOf id = some obj

/-- A walk along a list stands before the entries it has still to visit. -/
structure Stands (s : CallbackStore Arr Sig) (list : List Nat) (prev next : Option Nat)
    (togo : List Nat) : Prop where
  suffix : togo <:+ list
  chain : Chain s.next next togo
  first : prev = none → togo = list
  known : ∀ p, prev = some p → p < s.registered.length
  after : ∀ p, prev = some p → (s.heap p).isSome → p :: togo <:+ list

omit [DecidableEq Arr] [DecidableEq Sig] in
theorem Linked.lt (h : s.Linked lists) (hid : id ∈ lists obj) : id < s.registered.length := by
  have hobj := ((h.mem obj id).mp hid).2
  rw [objOf, Option.map_eq_some_iff] at hobj
  obtain ⟨r, hr, -⟩ := hobj
  exact (List.getElem?_eq_some_iff.mp hr).1

omit [DecidableEq Arr] [DecidableEq Sig] in
/-- An entry is on one list. -/
theorem Linked.obj_eq (h : s.Linked lists) (hid : id ∈ lists obj) (hid' : id ∈ lists obj') :
    obj = obj' := by
  have hobj := ((h.mem obj id).mp hid).2
  rw [((h.mem obj' id).mp hid').2] at hobj
  exact (Option.some.inj hobj).symm

omit [DecidableEq Arr] [DecidableEq Sig] in
/-- A walk begins at the head of the list. -/
theorem Linked.stands (h : s.Linked lists) (obj : CallbackObj Arr Sig) :
    s.Stands (lists obj) none (s.vpiCallbacks obj) (lists obj) :=
  ⟨List.suffix_rfl, h.chain obj, fun _ => rfl, by simp, by simp⟩

omit [DecidableEq Arr] [DecidableEq Sig] in
/-- A walk goes on behind the entry it has visited. -/
theorem Linked.advance (h : s.Linked lists)
    (hst : s.Stands (lists obj) prev (some cur) (cur :: togo)) :
    s.Stands (lists obj) (some cur) (s.next cur) togo := by
  refine ⟨(List.suffix_cons cur togo).trans hst.suffix, ?_, by simp, ?_, ?_⟩
  · obtain ⟨rest, heq, hrest⟩ := hst.chain.exists_eq_cons
    obtain ⟨-, rfl⟩ := List.cons.inj heq
    exact hrest
  · rintro p ⟨⟩
    exact h.lt (hst.suffix.subset List.mem_cons_self)
  · rintro p ⟨⟩ -
    exact hst.suffix

/-! ## A change of a field -/

omit [DecidableEq Arr] [DecidableEq Sig] in
theorem next_modify {f : ValueCallback → ValueCallback} (hf : ∀ cb, (f cb).next = cb.next) :
    (s.modify id f).next = s.next := by
  ext u : 1
  rw [CallbackStore.next, CallbackStore.next, modify]
  dsimp only
  rcases eq_or_ne u id with rfl | hne
  · rw [Function.update_self]
    cases s.heap u with
    | none => rfl
    | some cb => exact hf cb
  · rw [Function.update_of_ne hne]

omit [DecidableEq Arr] [DecidableEq Sig] in
@[simp] theorem isSome_modify (f : ValueCallback → ValueCallback) (u : Nat) :
    ((s.modify id f).heap u).isSome = (s.heap u).isSome := by
  rw [modify]
  dsimp only
  rcases eq_or_ne u id with rfl | hne
  · rw [Function.update_self, Option.isSome_map]
  · rw [Function.update_of_ne hne]

omit [DecidableEq Arr] [DecidableEq Sig] in
/-- A change of a field other than the link. -/
theorem Linked.modify (h : s.Linked lists) {f : ValueCallback → ValueCallback}
    (hf : ∀ cb, (f cb).next = cb.next)
    (hfits : ∀ cb, s.Fits id cb → s.Fits id (f cb)) : (s.modify id f).Linked lists := by
  constructor
  · intro u cb hcb
    rw [CallbackStore.modify] at hcb
    dsimp only at hcb
    rcases eq_or_ne u id with rfl | hne
    · rw [Function.update_self, Option.map_eq_some_iff] at hcb
      obtain ⟨cb, hcb, rfl⟩ := hcb
      exact hfits cb (h.fits u cb hcb)
    · rw [Function.update_of_ne hne] at hcb
      exact h.fits u cb hcb
  · intro u hu hnone
    apply h.deleted u hu
    rw [← Option.isSome_eq_false_iff.trans Option.isNone_iff_eq_none] at hnone ⊢
    rwa [isSome_modify] at hnone
  · intro obj
    rw [next_modify hf]
    exact h.chain obj
  · exact h.nodup
  · intro obj u
    rw [isSome_modify]
    exact h.mem obj u

omit [DecidableEq Arr] [DecidableEq Sig] in
theorem Stands.modify (h : s.Stands list prev next togo) {f : ValueCallback → ValueCallback}
    (hf : ∀ cb, (f cb).next = cb.next) : (s.modify id f).Stands list prev next togo := by
  refine ⟨h.suffix, ?_, h.first, h.known, ?_⟩
  · rw [next_modify hf]
    exact h.chain
  · intro p hp hsome
    rw [isSome_modify] at hsome
    exact h.after p hp hsome

omit [DecidableEq Arr] [DecidableEq Sig] in
/-- A callback is cancelled. -/
theorem Linked.vpiRemoveCb (h : s.Linked lists) (id : Nat) : (s.vpiRemoveCb id).Linked lists := by
  have hmore : Linked { s with cancelled := id :: s.cancelled } lists := by
    refine ⟨?_, ?_, h.chain, h.nodup, h.mem⟩
    · intro u cb hcb
      obtain ⟨r, hr, haddr, hpart, hrtn⟩ := h.fits u cb hcb
      exact ⟨r, hr, haddr, hpart, fun hfalse => List.mem_cons_of_mem id (hrtn hfalse)⟩
    · intro u hu hnone
      exact List.mem_cons_of_mem id (h.deleted u hu hnone)
  have hf : ∀ cb : ValueCallback, { cb with cbRtn := false }.next = cb.next := fun _ => rfl
  apply hmore.modify hf
  rintro cb ⟨r, hr, haddr, hpart, -⟩
  exact ⟨r, hr, haddr, hpart, fun _ => List.mem_cons_self⟩

/-! ## A new entry -/

theorem heap_addCallback_self (index : BitVec 32) (wordAddr : Int)
    (valueBits : Option (List Char)) :
    (s.addCallback obj index wordAddr valueBits).heap s.registered.length =
      some ⟨s.vpiCallbacks obj, true, index, wordAddr, valueBits⟩ := Function.update_self ..

theorem heap_addCallback_of_ne (index : BitVec 32) (wordAddr : Int)
    (valueBits : Option (List Char)) (hne : id ≠ s.registered.length) :
    (s.addCallback obj index wordAddr valueBits).heap id = s.heap id :=
  Function.update_of_ne hne _ _

theorem next_addCallback_of_ne (index : BitVec 32) (wordAddr : Int)
    (valueBits : Option (List Char)) (hne : id ≠ s.registered.length) :
    (s.addCallback obj index wordAddr valueBits).next id = s.next id := by
  rw [CallbackStore.next, heap_addCallback_of_ne _ _ _ hne]
  rfl

theorem registered_addCallback_of_ne (index : BitVec 32) (wordAddr : Int)
    (valueBits : Option (List Char)) (hne : id ≠ s.registered.length) :
    (s.addCallback obj index wordAddr valueBits).registered[id]? = s.registered[id]? := by
  rw [addCallback]
  dsimp only
  rcases Nat.lt_or_ge id s.registered.length with hlt | hge
  · rw [List.getElem?_append_left hlt]
  · rw [List.getElem?_eq_none hge, List.getElem?_eq_none]
    rw [List.length_append, List.length_singleton]
    omega

theorem registered_addCallback_self (index : BitVec 32) (wordAddr : Int)
    (valueBits : Option (List Char)) :
    (s.addCallback obj index wordAddr valueBits).registered[s.registered.length]? =
      some ⟨obj, wordAddr, valueBits.isSome⟩ := List.getElem?_concat_length

theorem vpiCallbacks_addCallback_self (index : BitVec 32) (wordAddr : Int)
    (valueBits : Option (List Char)) :
    (s.addCallback obj index wordAddr valueBits).vpiCallbacks obj = some s.registered.length :=
  Function.update_self ..

theorem vpiCallbacks_addCallback_of_ne (index : BitVec 32) (wordAddr : Int)
    (valueBits : Option (List Char)) (hne : obj' ≠ obj) :
    (s.addCallback obj index wordAddr valueBits).vpiCallbacks obj' = s.vpiCallbacks obj' :=
  Function.update_of_ne hne _ _

/-- A callback is registered. -/
theorem Linked.addCallback (h : s.Linked lists) (obj : CallbackObj Arr Sig) (index : BitVec 32)
    (wordAddr : Int) (valueBits : Option (List Char)) :
    (s.addCallback obj index wordAddr valueBits).Linked
      (Function.update lists obj (s.registered.length :: lists obj)) := by
  have hnew : ∀ obj, s.registered.length ∉ lists obj := fun obj hmem =>
    absurd (h.lt hmem) (Nat.lt_irrefl _)
  constructor
  · intro u cb hcb
    rcases eq_or_ne u s.registered.length with rfl | hne
    · rw [heap_addCallback_self, Option.some.injEq] at hcb
      subst hcb
      exact ⟨_, registered_addCallback_self .., rfl, rfl, by simp⟩
    · rw [heap_addCallback_of_ne _ _ _ hne] at hcb
      obtain ⟨r, hr, hfits⟩ := h.fits u cb hcb
      exact ⟨r, (registered_addCallback_of_ne _ _ _ hne).trans hr, hfits⟩
  · intro u hu hnone
    rcases eq_or_ne u s.registered.length with rfl | hne
    · rw [heap_addCallback_self] at hnone
      cases hnone
    · rw [heap_addCallback_of_ne _ _ _ hne] at hnone
      rw [CallbackStore.addCallback, List.length_append, List.length_singleton] at hu
      exact h.deleted u (by omega) hnone
  · intro obj'
    rcases eq_or_ne obj' obj with rfl | hne
    · rw [vpiCallbacks_addCallback_self, Function.update_self]
      apply (h.chain obj').push (hnew obj')
      · rw [CallbackStore.next, heap_addCallback_self]
        rfl
      · intro u hu
        exact next_addCallback_of_ne _ _ _ hu
    · rw [vpiCallbacks_addCallback_of_ne _ _ _ hne, Function.update_of_ne hne]
      apply (h.chain obj').congr
      intro u hu
      apply next_addCallback_of_ne
      rintro rfl
      exact hnew obj' hu
  · intro obj'
    rcases eq_or_ne obj' obj with rfl | hne
    · rw [Function.update_self]
      exact List.nodup_cons.mpr ⟨hnew obj', h.nodup obj'⟩
    · rw [Function.update_of_ne hne]
      exact h.nodup obj'
  · intro obj' u
    rw [objOf]
    rcases eq_or_ne u s.registered.length with rfl | hu
    · rw [heap_addCallback_self, registered_addCallback_self]
      rcases eq_or_ne obj' obj with rfl | hne
      · simp
      · rw [Function.update_of_ne hne]
        simp [hnew obj', hne.symm]
    · rw [heap_addCallback_of_ne _ _ _ hu, registered_addCallback_of_ne _ _ _ hu]
      rcases eq_or_ne obj' obj with rfl | hne
      · rw [Function.update_self, List.mem_cons, or_iff_right hu]
        exact h.mem obj' u
      · rw [Function.update_of_ne hne]
        exact h.mem obj' u

/-- A new entry is before every walk that has visited one. -/
theorem Stands.addCallback (hl : s.Linked lists) (h : s.Stands (lists obj') prev next togo)
    (hprev : prev ≠ none) (obj : CallbackObj Arr Sig) (index : BitVec 32) (wordAddr : Int)
    (valueBits : Option (List Char)) :
    (s.addCallback obj index wordAddr valueBits).Stands
      (Function.update lists obj (s.registered.length :: lists obj) obj') prev next togo := by
  have hlonger : lists obj' <:+
      Function.update lists obj (s.registered.length :: lists obj) obj' := by
    rcases eq_or_ne obj' obj with rfl | hne
    · rw [Function.update_self]
      exact List.suffix_cons ..
    · have hother := Function.update_of_ne hne (s.registered.length :: lists obj) lists
      exact hother ▸ List.suffix_rfl
  refine ⟨h.suffix.trans hlonger, ?_, fun hnone => absurd hnone hprev, ?_, ?_⟩
  · apply h.chain.congr
    intro u hu
    exact next_addCallback_of_ne _ _ _ (Nat.ne_of_lt (hl.lt (h.suffix.subset hu)))
  · intro p hp
    rw [CallbackStore.addCallback, List.length_append]
    exact Nat.lt_add_right _ (h.known p hp)
  · intro p hp hsome
    rw [heap_addCallback_of_ne _ _ _ (Nat.ne_of_lt (h.known p hp))] at hsome
    exact (h.after p hp hsome).trans hlonger

/-! ## An entry deleted -/

/-- An entry of a list was unlinked and deleted. -/
structure Reaped (s s' : CallbackStore Arr Sig) (list : List Nat) (obj : CallbackObj Arr Sig)
    (cur : Nat) : Prop where
  registered : s'.registered = s.registered
  cancelled : s'.cancelled = s.cancelled
  gone : s'.heap cur = none
  entry : ∀ id ≠ cur, ∃ link : ValueCallback → Option Nat,
    s'.heap id = (s.heap id).map fun cb => { cb with next := link cb }
  link : ∀ id ∈ list, id ≠ cur →
    s'.next id = if s.next id = some cur then s.next cur else s.next id
  link_other : ∀ id ∉ list, s'.next id = s.next id
  head : s'.vpiCallbacks obj =
    if s.vpiCallbacks obj = some cur then s.next cur else s.vpiCallbacks obj
  head_other : ∀ obj' ≠ obj, s'.vpiCallbacks obj' = s.vpiCallbacks obj'

omit [DecidableEq Arr] [DecidableEq Sig] in
theorem heap_delete_of_ne (hne : id ≠ cur) : (s.delete cur).heap id = s.heap id :=
  Function.update_of_ne hne _ _

omit [DecidableEq Arr] [DecidableEq Sig] in
theorem heap_modify_of_ne {p : Nat} (hne : id ≠ p) (f : ValueCallback → ValueCallback) :
    (s.modify p f).heap id = s.heap id := Function.update_of_ne hne _ _

omit [DecidableEq Arr] [DecidableEq Sig] in
/-- Nothing in a list leads to its first entry. -/
theorem Linked.next_ne (h : s.Linked lists) (hlist : lists obj = cur :: togo)
    (hid : id ∈ lists obj) : s.next id ≠ some cur := by
  intro hlink
  have hmem := (h.chain obj).mem_tail hid hlink
  have hnodup := h.nodup obj
  rw [hlist] at hmem hnodup
  exact (List.nodup_cons.mp hnodup).1 hmem

/-- The first entry of a list is reaped. -/
theorem Linked.reap_first (h : s.Linked lists) (hlist : lists obj = cur :: togo) :
    ∃ s', s.reap obj none (s.next cur) cur = some s' ∧ s.Reaped s' (lists obj) obj cur := by
  have hhead : s.vpiCallbacks obj = some cur := by rw [(h.chain obj).start_eq, hlist]; rfl
  refine ⟨_, rfl, rfl, rfl, Function.update_self .., ?_, ?_, ?_, ?_, ?_⟩
  · intro id hne
    refine ⟨(·.next), ?_⟩
    rw [heap_delete_of_ne hne]
    exact Option.map_id'.symm
  · intro id hid hne
    rw [if_neg (h.next_ne hlist hid), CallbackStore.next, heap_delete_of_ne hne]
    rfl
  · intro id hid
    have hne : id ≠ cur := by
      rintro rfl
      exact hid (hlist ▸ List.mem_cons_self)
    rw [CallbackStore.next, heap_delete_of_ne hne]
    rfl
  · rw [if_pos hhead]
    exact Function.update_self ..
  · intro obj' hne
    exact Function.update_of_ne hne _ _

/-- An entry behind one that has not been deleted is reaped. -/
theorem Linked.reap_after (h : s.Linked lists) {p : Nat} (hlist : p :: cur :: togo <:+ lists obj)
    (hp : (s.heap p).isSome) :
    ∃ s', s.reap obj (some p) (s.next cur) cur = some s' ∧ s.Reaped s' (lists obj) obj cur := by
  have hmem : p ∈ lists obj := hlist.subset List.mem_cons_self
  have hcur : cur ∈ lists obj := hlist.subset (List.mem_cons_of_mem p List.mem_cons_self)
  have hpc : p ≠ cur := by
    have hnodup := (h.nodup obj).sublist hlist.sublist
    rintro rfl
    exact (List.nodup_cons.mp hnodup).1 List.mem_cons_self
  have hlink : s.next p = some cur := by
    obtain ⟨pre, hpre⟩ := hlist
    have hchain := h.chain obj
    rw [← hpre] at hchain
    exact hchain.after.start_eq
  refine ⟨_, if_pos hlink, rfl, rfl, Function.update_self .., ?_, ?_, ?_, ?_, ?_⟩
  · intro id hne
    rw [heap_delete_of_ne hne]
    rcases eq_or_ne id p with rfl | hidp
    · exact ⟨fun _ => s.next cur, Function.update_self ..⟩
    · refine ⟨(·.next), ?_⟩
      rw [heap_modify_of_ne hidp]
      exact Option.map_id'.symm
  · intro id hid hne
    rw [CallbackStore.next, heap_delete_of_ne hne]
    rcases eq_or_ne id p with rfl | hidp
    · obtain ⟨cb, hcb⟩ := Option.isSome_iff_exists.mp hp
      rw [if_pos hlink, CallbackStore.modify]
      dsimp only
      rw [Function.update_self, hcb]
      rfl
    · rw [heap_modify_of_ne hidp, if_neg]
      · rfl
      · intro hidl
        exact hidp ((h.chain obj).eq_of_link (h.nodup obj) hid hmem hidl hlink)
  · intro id hid
    have hne : id ≠ cur := fun heq => hid (heq ▸ hcur)
    have hidp : id ≠ p := fun heq => hid (heq ▸ hmem)
    rw [CallbackStore.next, heap_delete_of_ne hne, heap_modify_of_ne hidp]
    rfl
  · rw [if_neg]
    · rfl
    · intro hhead
      have hchain := h.chain obj
      rw [hhead] at hchain
      obtain ⟨rest, hrest, -⟩ := hchain.exists_eq_cons
      exact h.next_ne hrest hmem hlink
  · intro obj' _
    rfl

/-- What a walk finds to be cancelled it reaps, unless `prev` has been deleted. -/
theorem Linked.reap (h : s.Linked lists)
    (hst : s.Stands (lists obj) prev (some cur) (cur :: togo))
    (hprev : ∀ p, prev = some p → (s.heap p).isSome) :
    ∃ s', s.reap obj prev (s.next cur) cur = some s' ∧ s.Reaped s' (lists obj) obj cur := by
  cases prev with
  | none => exact h.reap_first (hst.first rfl).symm
  | some p => exact h.reap_after (hst.after p rfl (hprev p rfl)) (hprev p rfl)

omit [DecidableEq Arr] [DecidableEq Sig] in
theorem Reaped.isSome (h : s.Reaped s' list obj cur) (id : Nat) :
    (s'.heap id).isSome ↔ (s.heap id).isSome ∧ id ≠ cur := by
  rcases eq_or_ne id cur with rfl | hne
  · simp [h.gone]
  · obtain ⟨link, hlink⟩ := h.entry id hne
    simp [hlink, hne]

/-- What is left is linked. -/
theorem Reaped.linked (h : s.Reaped s' (lists obj) obj cur) (hl : s.Linked lists)
    (hcur : cur ∈ lists obj) (hcancelled : cur ∈ s.cancelled) :
    s'.Linked (Function.update lists obj ((lists obj).filter (· ≠ cur))) := by
  constructor
  · intro id cb hcb
    have hne : id ≠ cur := by
      rintro rfl
      rw [h.gone] at hcb
      cases hcb
    obtain ⟨link, hlink⟩ := h.entry id hne
    rw [hlink, Option.map_eq_some_iff] at hcb
    obtain ⟨cb, hcb, rfl⟩ := hcb
    obtain ⟨r, hr, hfits⟩ := hl.fits id cb hcb
    rw [Fits, h.registered, h.cancelled]
    exact ⟨r, hr, hfits⟩
  · intro id hid hnone
    rw [h.registered] at hid
    rw [h.cancelled]
    rcases eq_or_ne id cur with rfl | hne
    · exact hcancelled
    · obtain ⟨link, hlink⟩ := h.entry id hne
      rw [hlink, Option.map_eq_none_iff] at hnone
      exact hl.deleted id hid hnone
  · intro obj'
    rcases eq_or_ne obj' obj with rfl | hne
    · rw [Function.update_self, h.head]
      exact (hl.chain obj').unlink (hl.nodup obj') h.link
    · rw [Function.update_of_ne hne, h.head_other obj' hne]
      apply (hl.chain obj').congr
      intro id hid
      exact h.link_other id fun hid' => hne (hl.obj_eq hid hid')
  · intro obj'
    rcases eq_or_ne obj' obj with rfl | hne
    · rw [Function.update_self]
      exact (hl.nodup obj').filter _
    · rw [Function.update_of_ne hne]
      exact hl.nodup obj'
  · intro obj' id
    rw [h.isSome, objOf, h.registered, ← objOf, and_right_comm, ← hl.mem]
    rcases eq_or_ne obj' obj with rfl | hne
    · rw [Function.update_self, List.mem_filter, decide_eq_true_iff]
    · rw [Function.update_of_ne hne]
      refine ⟨fun hid => ⟨hid, ?_⟩, And.left⟩
      rintro rfl
      exact hne (hl.obj_eq hid hcur)

/-- A walk stands where it stood, and goes on behind the entry if that was its `next`. -/
theorem Reaped.stands (h : s.Reaped s' (lists obj) obj cur) (hl : s.Linked lists)
    (hcur : cur ∈ lists obj) (hst : s.Stands (lists obj') prev next togo) :
    s'.Stands (Function.update lists obj ((lists obj).filter (· ≠ cur)) obj') prev
      (if next = some cur then s.next cur else next) (togo.filter (· ≠ cur)) := by
  have hfilter : Function.update lists obj ((lists obj).filter (· ≠ cur)) obj' =
      (lists obj').filter (· ≠ cur) := by
    rcases eq_or_ne obj' obj with rfl | hne
    · rw [Function.update_self]
    · rw [Function.update_of_ne hne, List.filter_eq_self.mpr]
      intro id hid
      rw [decide_eq_true_iff]
      rintro rfl
      exact hne (hl.obj_eq hid hcur)
  rw [hfilter]
  refine ⟨hst.suffix.filter _, ?_, fun hnone => by rw [hst.first hnone], ?_, ?_⟩
  · apply hst.chain.unlink ((hl.nodup obj').sublist hst.suffix.sublist)
    intro id hid hne
    have hid := hst.suffix.subset hid
    rcases eq_or_ne obj' obj with rfl | hobj
    · exact h.link id hid hne
    · rw [h.link_other id fun hid' => hobj (hl.obj_eq hid hid'), if_neg]
      intro hlink
      have hmem := (hl.chain obj').mem_tail hid hlink
      exact hobj (hl.obj_eq (List.mem_of_mem_tail hmem) hcur)
  · intro p hp
    rw [h.registered]
    exact hst.known p hp
  · intro p hp hsome
    obtain ⟨hsome, hne⟩ := (h.isSome p).mp hsome
    have hafter := (hst.after p hp hsome).filter (· ≠ cur)
    rwa [List.filter_cons_of_pos (by simpa using hne)] at hafter

end CallbackStore

end Icarus.Vvp
