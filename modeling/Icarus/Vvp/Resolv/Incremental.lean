import Icarus.Core.QuadTree
import Icarus.Vvp.Strength
import Mathlib.Data.Set.Insert

/-!
# Resolver functors

A resolver keeps its port values and every branch of a quaternary tree over them
in one flattened array. A port update recomputes one path to the root and stops
at the first branch that does not change. The two families of resolvers share
this code up to the value type, the pairwise operation and the pull. Running past
the end of the array, or past the fuel of a loop, is `none`.
-/

namespace Icarus.Vvp.Resolv

open Icarus.Core

section Update

variable {α : Type} [DecidableEq α] (nil : α) (math : α → α → α) (pull : α → α)

/-- One value of a group folded into the output; vectors of size zero are skipped. -/
def merge (out v : α) : α :=
  if v = nil then out
  else if out = nil then v
  else math out v

/-- Resolve the group of nodes from `ip` up to `ll`. -/
def resolveGroup (val : List α) (ip ll : Nat) : Option α := do
  let out ← val[ip]?
  (List.range' (ip + 1) (ll - (ip + 1))).foldlM
    (fun out ip => (val[ip]?).map (merge nil math out)) out

/-- The loop of `recv_vec8_` from the level at `base`; yields the value sent, if any. -/
def propagate : Nat → List α → Nat → Nat → Nat → Option (List α × Option α)
  | 0, _, _, _, _ => none
  | fuel + 1, val, base, span, port =>
    if 1 < span then
      let nextBase := base + span
      let ip := base + port / 4 * 4
      let op := nextBase + port / 4
      let ll := min (ip + 4) nextBase
      do
        let out ← resolveGroup nil math val ip ll
        let old ← val[op]?
        if old = out then some (val, none)
        else propagate fuel (val.set op out) nextBase ((span + 3) / 4) (port / 4)
    else do
      let out ← val[base]?
      some (val.set base (pull out), some (pull out))

/-- A resolver: its nodes, and the last value it has sent. -/
structure Resolver (α : Type) where
  /-- `nports_`. -/
  nports : Nat
  /-- `val_`, leaf level first. -/
  val : List α
  /-- The value most recently given to `send_vec8` or `send_vec4`. -/
  sent : Option α

/-- The loop of the constructor over the levels of more than four nodes. -/
def countNodes : Nat → Nat → Nat → Nat
  | 0, _, nnodes => nnodes
  | fuel + 1, nports, nnodes =>
    if nports > 4 then countNodes fuel ((nports + 3) / 4) (nnodes + (nports + 3) / 4)
    else nnodes

/-- The number of nodes allocated for `nports` ports. -/
def nodeCount (nports : Nat) : Nat :=
  let nnodes := countNodes nports nports nports
  if nnodes > 1 then nnodes + 1 else nnodes

/-- A resolver that has not received a value yet. -/
def Resolver.new (nports : Nat) : Resolver α :=
  ⟨nports, List.replicate (nodeCount nports) nil, none⟩

/-- Receive a value on a port. -/
def Resolver.recv (s : Resolver α) (port : Nat) (bit : α) : Option (Resolver α) :=
  if port < s.nports then do
    let old ← s.val[port]?
    if old = bit then some s
    else do
      let (val, sent) ← propagate nil math pull (s.nports + 1) (s.val.set port bit) 0 s.nports port
      some ⟨s.nports, val, sent <|> s.sent⟩
  else none

/-- Receive a sequence of values. -/
def Resolver.run (s : Resolver α) (us : List (Nat × α)) : Option (Resolver α) :=
  us.foldlM (fun s u => s.recv nil math pull u.1 u.2) s

end Update

/-- The latest value of every port. -/
def latest {α : Type} (nil : α) (nports : Nat) (us : List (Nat × α)) : List α :=
  us.foldl (fun xs u => xs.set u.1 u.2) (List.replicate nports nil)

/-! ## The resolvers -/

/-- Blend a vector with the pull value, unless that is HiZ. -/
def pullVector (hizValue : Scalar) (val : Vector8) : Vector8 :=
  if hizValue.isHiz then val else val.map fun a => resolve a hizValue

/-- `resolv_tri::recv_vec8_`. -/
def recvTri (hizValue : Scalar) (s : Resolver Vector8) (port : Nat) (bit : Vector8) :
    Option (Resolver Vector8) :=
  s.recv [] resolveVector (pullVector hizValue) port bit

/-- A `resolv_tri` of `nports` ports after a sequence of values. -/
def runTri (hizValue : Scalar) (nports : Nat) (us : List (Nat × Vector8)) :
    Option (Resolver Vector8) :=
  us.foldlM (fun s u => recvTri hizValue s u.1 u.2) (Resolver.new [] nports)

/-- `resolv_tri::recv_vec4_`: the bits are driven with strength 6. -/
def recvTriVec4 (hizValue : Scalar) (s : Resolver Vector8) (port : Nat) (bit : Vector4) :
    Option (Resolver Vector8) :=
  recvTri hizValue s port (bit.map fun b => Scalar.ofBit4 b 6 6)

/-- `resolv_triand::wired_logic_math_` of two bits. -/
def triandBit (abit bbit : Bit4) : Bit4 :=
  if abit = .z then bbit
  else if bbit = .z then abit
  else if abit = .zero ∨ bbit = .zero then .zero
  else if abit = .x ∨ bbit = .x then .x
  else .one

/-- `resolv_trior::wired_logic_math_` of two bits. -/
def triorBit (abit bbit : Bit4) : Bit4 :=
  if abit = .z then bbit
  else if bbit = .z then abit
  else if abit = .one ∨ bbit = .one then .one
  else if abit = .x ∨ bbit = .x then .x
  else .zero

/-- `resolv_wired_logic::recv_vec4_`; there is no pull. -/
def recvWired (math : Bit4 → Bit4 → Bit4) (s : Resolver Vector4) (port : Nat) (bit : Vector4) :
    Option (Resolver Vector4) :=
  s.recv [] (List.zipWith math) id port bit

/-- `recv_vec4_` of a `resolv_triand`. -/
def recvTriand : Resolver Vector4 → Nat → Vector4 → Option (Resolver Vector4) :=
  recvWired triandBit

/-- `recv_vec4_` of a `resolv_trior`. -/
def recvTrior : Resolver Vector4 → Nat → Vector4 → Option (Resolver Vector4) :=
  recvWired triorBit

/-- A `resolv_triand` of `nports` ports after a sequence of values. -/
def runTriand (nports : Nat) (us : List (Nat × Vector4)) : Option (Resolver Vector4) :=
  us.foldlM (fun s u => recvTriand s u.1 u.2) (Resolver.new [] nports)

/-- A `resolv_trior` of `nports` ports after a sequence of values. -/
def runTrior (nports : Nat) (us : List (Nat × Vector4)) : Option (Resolver Vector4) :=
  us.foldlM (fun s u => recvTrior s u.1 u.2) (Resolver.new [] nports)

/-! ## Incremental resolution

The array of a resolver is the flattened tree over the latest port values, with
the pull applied to the root in place. Stopping early at an unchanged node is
right also at the root, where the node to compare with has been pulled already:
the pull leaves a pulled value as it is. -/

open Icarus.Core Icarus.Core.QuadTree

variable {α : Type} [DecidableEq α] {nil : α} {math : α → α → α} {pull : α → α}

/-! ## One group -/

private theorem foldlM_range' (val : List α) (i k : Nat) (out : α) (h : i + k ≤ val.length) :
    (List.range' i k).foldlM (fun out ip => (val[ip]?).map (merge nil math out)) out =
      some (((val.drop i).take k).foldl (merge nil math) out) := by
  induction k generalizing i out with
  | zero => simp
  | succ k ih =>
    have hi : i < val.length := by omega
    have hdrop : (val.drop i).take (k + 1) = val[i] :: (val.drop (i + 1)).take k := by
      rw [List.drop_eq_getElem_cons hi, List.take_succ_cons]
    rw [List.range'_succ, List.foldlM_cons, List.getElem?_eq_getElem hi, hdrop, List.foldl_cons]
    exact ih (i + 1) _ (by omega)

/-- Within the array, the group from `ip` up to `ll` is resolved from left to right. -/
private theorem resolveGroup_eq (val : List α) (ip ll : Nat) (h : ip < ll)
    (hll : ll ≤ val.length) :
    resolveGroup nil math val ip ll =
      group (merge nil math) ((val.drop ip).take (ll - ip)) := by
  have hip : ip < val.length := by omega
  have hk : ll - ip = ll - (ip + 1) + 1 := by omega
  unfold resolveGroup
  rw [List.getElem?_eq_getElem hip, hk, List.drop_eq_getElem_cons hip, List.take_succ_cons]
  simp only [group]
  exact foldlM_range' val (ip + 1) (ll - (ip + 1)) val[ip] (by omega)

/-- Inside a level the group is the level's own group of four. -/
private theorem resolveGroup_level (nil : α) (math : α → α → α) (pre xs ys : List α) (p : Nat)
    (hp : p < xs.length) :
    resolveGroup nil math (pre ++ (xs ++ ys)) (pre.length + p / 4 * 4)
        (min (pre.length + p / 4 * 4 + 4) (pre.length + xs.length)) =
      group (merge nil math) ((xs.drop (4 * (p / 4))).take 4) := by
  have hip : pre.length + p / 4 * 4 <
      min (pre.length + p / 4 * 4 + 4) (pre.length + xs.length) := by omega
  rw [resolveGroup_eq _ _ _ hip (by simp only [List.length_append]; omega)]
  congr 1
  apply List.ext_getElem?
  intro j
  by_cases hj : j < 4
  · by_cases hx : p / 4 * 4 + j < xs.length
    · have hlt : j < min (pre.length + p / 4 * 4 + 4) (pre.length + xs.length) -
          (pre.length + p / 4 * 4) := by omega
      rw [List.getElem?_take_of_lt hlt, List.getElem?_take_of_lt hj, List.getElem?_drop,
        List.getElem?_drop, List.getElem?_append_right (by omega),
        List.getElem?_append_left (by omega)]
      congr 1
      omega
    · rw [List.getElem?_take_eq_none (by omega), List.getElem?_take_of_lt hj,
        List.getElem?_drop, List.getElem?_eq_none (by omega)]
  · rw [List.getElem?_take_eq_none (by omega), List.getElem?_take_eq_none (by omega)]

/-! ## One path -/

/-- What an update of the leaf level leaves behind. -/
private def Updated (nil : α) (math : α → α → α) (pull : α → α) (xs xs' : List α)
    (ys : List α) (sent : Option α) : Prop :=
  Stored (merge nil math) pull xs' ys ∧
    (sent = some (pull (root (merge nil math) nil xs')) ∨
      sent = none ∧ pull (root (merge nil math) nil xs') = pull (root (merge nil math) nil xs))

/-- The loop brings the tree above one changed leaf up to date, within the array. -/
theorem propagate_stored (hpull : ∀ x, pull (pull x) = pull x) {xs ys : List α}
    (h : Stored (merge nil math) pull xs ys) :
    ∀ (fuel : Nat) (pre : List α) (p : Nat) (v : α), p < xs.length → xs.length ≤ fuel →
      ∃ ys' sent,
        propagate nil math pull fuel (pre ++ ys.set p v) pre.length xs.length p =
          some (pre ++ ys', sent) ∧ Updated nil math pull xs (xs.set p v) ys' sent := by
  induction h with
  | root x =>
    intro fuel pre p v hp hfuel
    obtain rfl : p = 0 := by simpa using hp
    obtain ⟨fuel, rfl⟩ : ∃ n, fuel = n + 1 := ⟨fuel - 1, by simp at hfuel; omega⟩
    refine ⟨[pull v], some (pull v), ?_, Stored.root v, Or.inl (by simp [QuadTree.root])⟩
    simp [propagate]
  | branch xs ys hlen hy ih =>
    intro fuel pre p v hp hfuel
    obtain ⟨fuel, rfl⟩ : ∃ n, fuel = n + 1 := ⟨fuel - 1, by omega⟩
    have hset : (xs ++ ys).set p v = xs.set p v ++ ys := List.set_append_left _ _ hp
    have hp' : p / 4 < (level (merge nil math) xs).length := by
      rw [length_level]
      omega
    have hgroup := resolveGroup_level nil math pre (xs.set p v) ys p (by simpa using hp)
    rw [List.length_set] at hgroup
    obtain ⟨out, hout⟩ : ∃ out, group (merge nil math)
        (((xs.set p v).drop (4 * (p / 4))).take 4) = some out := by
      rw [← getElem?_level]
      have hl : p / 4 < (level (merge nil math) (xs.set p v)).length := by
        rw [length_level, List.length_set, ← length_level (merge nil math)]
        exact hp'
      exact ⟨_, List.getElem?_eq_getElem hl⟩
    have hlevel := level_set (merge nil math) hout
    have hyl : p / 4 < ys.length := Nat.lt_of_lt_of_le hp' hy.length_le
    have hold : (pre ++ (xs.set p v ++ ys))[pre.length + xs.length + p / 4]? = ys[p / 4]? := by
      rw [List.getElem?_append_right (by omega), List.getElem?_append_right (by simp; omega)]
      congr 1
      simp only [List.length_set]
      omega
    have hroot : ∀ zs : List α, zs.length = xs.length →
        root (merge nil math) nil zs = root (merge nil math) nil (level (merge nil math) zs) :=
      fun zs hz => root_eq_level (merge nil math) nil (by omega)
    rw [hset]
    simp only [propagate, hlen, if_true, hgroup, hout, hold, List.getElem?_eq_getElem hyl,
      Option.bind_eq_bind, Option.bind_some]
    by_cases heq : ys[p / 4] = out
    · obtain ⟨hst, hr⟩ := hy.absorb nil hpull hp'
        (by rw [List.getElem?_eq_getElem hyl, heq])
      refine ⟨xs.set p v ++ ys, none, by simp only [heq, if_true], ?_, Or.inr ⟨rfl, ?_⟩⟩
      · refine Stored.branch _ _ (by simpa using hlen) ?_
        rw [hlevel]
        exact hst
      · rw [hroot _ (by simp), hroot xs rfl, hlevel]
        exact hr
    · have hnext : (pre ++ (xs.set p v ++ ys)).set (pre.length + xs.length + p / 4) out =
          (pre ++ xs.set p v) ++ ys.set (p / 4) out := by
        rw [← List.append_assoc, List.set_append_right _ _ (by simp)]
        congr 2
        simp only [List.length_append, List.length_set]
        omega
      obtain ⟨ys', sent, hprop, hst, hsent⟩ := ih fuel (pre ++ xs.set p v) (p / 4) out hp'
        (by rw [length_level]; omega)
      rw [length_level, List.length_append, List.length_set] at hprop
      refine ⟨xs.set p v ++ ys', sent, ?_, ?_, ?_⟩
      · simp only [heq, if_false, hnext]
        rw [hprop, List.append_assoc]
      · refine Stored.branch _ _ (by simpa using hlen) ?_
        rw [hlevel]
        exact hst
      · rw [hroot _ (by simp), hroot xs rfl, hlevel]
        exact hsent

/-! ## Every update -/

variable (nil math pull) in
/-- The array is the tree over the given port values, and its root has been sent. -/
structure Current (s : Resolver α) (xs : List α) : Prop where
  /-- One value for every port. -/
  length : xs.length = s.nports
  /-- The array is the flattened tree. -/
  stored : Stored (merge nil math) pull xs s.val
  /-- The last value sent is the root; nothing is sent before a value arrives. -/
  sent : s.sent = some (pull (root (merge nil math) nil xs)) ∨
    s.sent = none ∧ pull (root (merge nil math) nil xs) = nil

/-- Receiving a value stays within the array and keeps the array and the output current. -/
theorem Current.recv (hpull : ∀ x, pull (pull x) = pull x) {s : Resolver α} {xs : List α}
    (h : Current nil math pull s xs) {port : Nat} (hp : port < s.nports) (bit : α) :
    ∃ s', s.recv nil math pull port bit = some s' ∧ s'.nports = s.nports ∧
      Current nil math pull s' (xs.set port bit) := by
  have hp' : port < xs.length := by rw [h.length]; exact hp
  have hval : port < s.val.length := Nat.lt_of_lt_of_le hp' h.stored.length_le
  unfold Resolver.recv
  simp only [hp, if_true, List.getElem?_eq_getElem hval, Option.bind_eq_bind, Option.bind_some]
  by_cases heq : s.val[port] = bit
  · obtain ⟨hst, hr⟩ := h.stored.absorb nil hpull hp'
      (by rw [List.getElem?_eq_getElem hval, heq])
    refine ⟨s, by simp only [heq, if_true], rfl, by simpa using h.length, hst, ?_⟩
    rw [hr]
    exact h.sent
  · obtain ⟨ys, sent, hprop, hst, hsent⟩ :=
      propagate_stored hpull h.stored (s.nports + 1) [] port bit hp' (by rw [h.length]; omega)
    rw [List.length_nil, h.length, List.nil_append, List.nil_append] at hprop
    refine ⟨⟨s.nports, ys, sent <|> s.sent⟩, by simp only [heq, if_false, hprop,
      Option.bind_some], rfl, by simpa using h.length, hst, ?_⟩
    rcases hsent with rfl | ⟨rfl, hr⟩
    · exact Or.inl rfl
    · rw [hr]
      exact h.sent

/-! ## The constructor -/

/-- An untouched tree holds nothing but vectors of size zero. -/
private theorem stored_replicate (hnil : merge nil math nil nil = nil) (hpull : pull nil = nil)
    (n : Nat) (hn : 0 < n) :
    ∃ m, Stored (merge nil math) pull (List.replicate n nil) (List.replicate m nil) ∧
      root (merge nil math) nil (List.replicate n nil) = nil := by
  have hS : Resolves (merge nil math) {nil} := by
    constructor <;> simp [hnil]
  induction n using Nat.strong_induction_on with
  | _ n ih =>
    by_cases h1 : n = 1
    · subst h1
      have hr : Stored (merge nil math) pull [nil] [pull nil] := Stored.root nil
      rw [hpull] at hr
      exact ⟨1, hr, by simp [root]⟩
    · have hlen : 1 < (List.replicate n nil).length := by simp; omega
      have hlevel : level (merge nil math) (List.replicate n nil) =
          List.replicate ((n + 3) / 4) nil := by
        rw [List.eq_replicate_iff, length_level, List.length_replicate]
        refine ⟨rfl, ?_⟩
        intro x hx
        simpa using (hS.group_level (by simp)).2 x hx
      obtain ⟨m, hst, hroot⟩ := ih ((n + 3) / 4) (by omega) (by omega)
      refine ⟨n + m, ?_, ?_⟩
      · rw [← List.replicate_append_replicate]
        refine Stored.branch _ _ hlen ?_
        rw [hlevel]
        exact hst
      · rw [root_eq_level _ _ hlen, hlevel]
        exact hroot

/-- The constructor counts the branches above the leaves, all but the last. -/
private theorem countNodes_eq {xs ys : List α} (h : Stored (merge nil math) pull xs ys)
    (hlen : 1 < xs.length) (fuel acc : Nat) (hfuel : xs.length ≤ fuel) :
    countNodes fuel xs.length acc + 1 + xs.length = acc + ys.length := by
  induction h generalizing fuel acc with
  | root x => simp at hlen
  | branch xs ys _ hy ih =>
    obtain ⟨fuel, rfl⟩ : ∃ n, fuel = n + 1 := ⟨fuel - 1, by omega⟩
    rw [List.length_append]
    by_cases h4 : xs.length > 4
    · have hl := length_level (merge nil math) xs
      have := ih (by omega) fuel (acc + (xs.length + 3) / 4) (by omega)
      rw [hl] at this
      simp only [countNodes, h4, if_true]
      omega
    · have hone : (level (merge nil math) xs).length = 1 := by
        rw [length_level]
        omega
      have hy1 : ys.length = 1 := by
        generalize level (merge nil math) xs = zs at hy hone
        cases hy with
        | root x => rfl
        | branch _ _ h' _ => omega
      simp only [countNodes, h4, if_false]
      omega

/-- The constructor allocates exactly the nodes of the tree. -/
private theorem nodeCount_eq {xs ys : List α} (h : Stored (merge nil math) pull xs ys) :
    nodeCount xs.length = ys.length := by
  cases h with
  | root x => simp [nodeCount, countNodes]
  | branch xs ys hlen hy =>
    have hcount := countNodes_eq (Stored.branch xs ys hlen hy) hlen xs.length xs.length
      (Nat.le_refl _)
    have hle := hy.length_le
    rw [length_level] at hle
    rw [List.length_append] at hcount ⊢
    have hgt : countNodes xs.length xs.length xs.length > 1 := by omega
    simp only [nodeCount, hgt, if_true]
    omega

/-- A new resolver is current for ports that have not received a value. -/
theorem Current.new (hnil : merge nil math nil nil = nil) (hpull : pull nil = nil) {n : Nat}
    (hn : 0 < n) : Current nil math pull (Resolver.new nil n) (List.replicate n nil) := by
  obtain ⟨m, hst, hroot⟩ := stored_replicate hnil hpull n hn
  have hm := nodeCount_eq hst
  simp only [List.length_replicate] at hm
  refine ⟨by simp [Resolver.new], ?_, Or.inr ⟨rfl, ?_⟩⟩
  · simp only [Resolver.new, hm]
    exact hst
  · rw [hroot, hpull]

/-- Every sequence of updates runs within the array and leaves the resolver current. -/
theorem Current.run (hpull : ∀ x, pull (pull x) = pull x) {us : List (Nat × α)} {s : Resolver α}
    {xs : List α} (h : Current nil math pull s xs) (hu : ∀ u ∈ us, u.1 < s.nports) :
    ∃ s', s.run nil math pull us = some s' ∧
      Current nil math pull s' (us.foldl (fun xs u => xs.set u.1 u.2) xs) := by
  induction us generalizing s xs with
  | nil => exact ⟨s, rfl, h⟩
  | cons u us ih =>
    obtain ⟨t, ht, hports, hcur⟩ := h.recv hpull (hu u (by simp)) u.2
    obtain ⟨s', hs', hcur'⟩ := ih hcur fun w hw => by
      rw [hports]
      exact hu w (List.mem_cons_of_mem _ hw)
    refine ⟨s', ?_, hcur'⟩
    simp only [Resolver.run, List.foldlM_cons, ht] at hs' ⊢
    exact hs'

/-! ## What has been sent -/

/-- A level of empty vectors has empty vectors below it. -/
private theorem eq_nil_of_level (hmath : ∀ a b, a ≠ nil → b ≠ nil → math a b ≠ nil)
    (xs : List α) (h : ∀ x ∈ level (merge nil math) xs, x = nil) : ∀ x ∈ xs, x = nil := by
  have hmerge : ∀ {a b}, merge nil math a b = nil → a = nil ∧ b = nil := by
    intro a b hab
    unfold merge at hab
    split_ifs at hab with hb ha
    · exact ⟨hab, hb⟩
    · exact absurd hab hb
    · exact absurd hab (hmath a b ha hb)
  induction xs using level.induct with
  | case1 => simp
  | case2 a => simpa [level] using h
  | case3 a b =>
    obtain ⟨ha, hb⟩ := hmerge (h (merge nil math a b) (by simp [level]))
    simp [ha, hb]
  | case4 a b c =>
    obtain ⟨hab, hc⟩ := hmerge (h (merge nil math (merge nil math a b) c) (by simp [level]))
    obtain ⟨ha, hb⟩ := hmerge hab
    simp [ha, hb, hc]
  | case5 a b c d rest ih =>
    obtain ⟨habc, hd⟩ := hmerge (h (merge nil math (merge nil math (merge nil math a b) c) d)
      (by simp [level]))
    obtain ⟨hab, hc⟩ := hmerge habc
    obtain ⟨ha, hb⟩ := hmerge hab
    have hrest := ih fun x hx => h x (by simp [level, hx])
    intro x hx
    simp only [List.mem_cons] at hx
    rcases hx with rfl | rfl | rfl | rfl | hx
    · exact ha
    · exact hb
    · exact hc
    · exact hd
    · exact hrest x hx

/-- The tree evaluates to the empty vector only for ports that have no value. -/
private theorem eq_nil_of_root (hmath : ∀ a b, a ≠ nil → b ≠ nil → math a b ≠ nil)
    (xs : List α) (h : root (merge nil math) nil xs = nil) : ∀ x ∈ xs, x = nil := by
  induction xs using root.induct (merge nil math) with
  | case1 => simp
  | case2 x => simpa [root] using h
  | case3 x y rest ih =>
    rw [root] at h
    exact eq_nil_of_level hmath _ (ih h)

omit [DecidableEq α] in
/-- There is one latest value for every port. -/
theorem length_latest (nil : α) (n : Nat) (us : List (Nat × α)) :
    (latest nil n us).length = n := by
  have hfold : ∀ xs : List α, (us.foldl (fun xs u => xs.set u.1 u.2) xs).length = xs.length := by
    induction us with
    | nil =>
      intro xs
      rfl
    | cons u us ih =>
      intro xs
      rw [List.foldl_cons, ih, List.length_set]
  simpa [latest] using hfold (List.replicate n nil)

/-- After any updates the last value sent is the tree over the latest port values, pulled. -/
theorem run_sends_root (hmath : ∀ a b, a ≠ nil → b ≠ nil → math a b ≠ nil)
    (hpull : ∀ x, pull (pull x) = pull x) (hnil : ∀ x, pull x = nil ↔ x = nil) {n : Nat}
    (hn : 0 < n) {us : List (Nat × α)} (hu : ∀ u ∈ us, u.1 < n) :
    ∃ s, (Resolver.new nil n).run nil math pull us = some s ∧ s.val.length = nodeCount n ∧
      (s.sent = some (pull (root (merge nil math) nil (latest nil n us))) ∨
        s.sent = none ∧ ∀ x ∈ latest nil n us, x = nil) := by
  have hnew : Current nil math pull (Resolver.new nil n) (List.replicate n nil) :=
    Current.new (by simp [merge]) ((hnil nil).mpr rfl) hn
  obtain ⟨s, hs, hcur⟩ := hnew.run hpull hu
  refine ⟨s, hs, ?_, ?_⟩
  · rw [← nodeCount_eq hcur.stored]
    exact congrArg nodeCount (length_latest nil n us)
  · rcases hcur.sent with hsent | ⟨hsent, hroot⟩
    · exact Or.inl hsent
    · exact Or.inr ⟨hsent, eq_nil_of_root hmath _ ((hnil _).mp hroot)⟩

/-! ## The resolvers -/

private theorem zipWith_ne_nil {β : Type} (f : β → β → β) (a b : List β) (ha : a ≠ [])
    (hb : b ≠ []) : List.zipWith f a b ≠ [] := by
  simp [ha, hb]

/-- Pulling a vector twice is pulling it once. -/
theorem pullVector_pullVector {hizValue : Scalar} (hp : hizValue.isHiz ∨ hizValue.unambig)
    (v : Vector8) : pullVector hizValue (pullVector hizValue v) = pullVector hizValue v := by
  unfold pullVector
  split_ifs with hz
  · rfl
  · have hu := hp.resolve_left hz
    rw [List.map_map]
    apply List.map_congr_left
    intro a _
    exact resolve_resolve_unambig a hizValue hu

theorem pullVector_eq_nil (hizValue : Scalar) (v : Vector8) :
    pullVector hizValue v = [] ↔ v = [] := by
  unfold pullVector
  split_ifs <;> simp

/-- After any updates a `resolv_tri` has last sent the tree over the latest port values. -/
theorem runTri_sends_root {hizValue : Scalar} (hp : hizValue.isHiz ∨ hizValue.unambig) {n : Nat}
    (hn : 0 < n) {us : List (Nat × Vector8)} (hu : ∀ u ∈ us, u.1 < n) :
    ∃ s, runTri hizValue n us = some s ∧ s.val.length = nodeCount n ∧
      (s.sent = some (pullVector hizValue
          (root (merge [] resolveVector) [] (latest [] n us))) ∨
        s.sent = none ∧ ∀ v ∈ latest [] n us, v = []) :=
  run_sends_root (zipWith_ne_nil resolve) (pullVector_pullVector hp) (pullVector_eq_nil hizValue)
    hn hu

/-- After every update of a resolver the value last sent is the whole tree evaluated on the
latest port values and pulled; no index leaves the allocated nodes. -/
theorem resolver_sends_evaluated_tree {n : Nat} (hn : 0 < n) :
    (∀ (hizValue : Scalar) (us : List (Nat × Vector8)),
      hizValue.isHiz ∨ hizValue.unambig → (∀ u ∈ us, u.1 < n) →
      ∃ s, runTri hizValue n us = some s ∧ s.val.length = nodeCount n ∧
        (s.sent = some (pullVector hizValue
            (root (merge [] resolveVector) [] (latest [] n us))) ∨
          s.sent = none ∧ ∀ v ∈ latest [] n us, v = [])) ∧
    (∀ us : List (Nat × Vector4), (∀ u ∈ us, u.1 < n) →
      ∃ s, runTriand n us = some s ∧ s.val.length = nodeCount n ∧
        (s.sent = some (root (merge [] (List.zipWith triandBit)) [] (latest [] n us)) ∨
          s.sent = none ∧ ∀ v ∈ latest [] n us, v = [])) ∧
    (∀ us : List (Nat × Vector4), (∀ u ∈ us, u.1 < n) →
      ∃ s, runTrior n us = some s ∧ s.val.length = nodeCount n ∧
        (s.sent = some (root (merge [] (List.zipWith triorBit)) [] (latest [] n us)) ∨
          s.sent = none ∧ ∀ v ∈ latest [] n us, v = [])) := by
  refine ⟨?_, ?_, ?_⟩
  · intro hizValue us hp hu
    exact runTri_sends_root hp hn hu
  · intro us hu
    exact run_sends_root (zipWith_ne_nil triandBit) (fun _ => rfl) (fun _ => Iff.rfl) hn hu
  · intro us hu
    exact run_sends_root (zipWith_ne_nil triorBit) (fun _ => rfl) (fun _ => Iff.rfl) hn hu

/-- Five ports of a `tri1` net, two of them driven, one of them twice. -/
theorem resolver_sends_evaluated_tree_five :
    ∃ s, runTri (Scalar.ofBit4 .one 5 5) 5 [(4, [Scalar.ofBit4 .zero 6 6]),
          (0, [Scalar.ofBit4 .x 3 0]), (4, [Scalar.ofBit4 .z 6 6])] = some s ∧
      s.val.length = nodeCount 5 ∧
      (s.sent = some (pullVector (Scalar.ofBit4 .one 5 5)
          (root (merge [] resolveVector) [] (latest [] 5 [(4, [Scalar.ofBit4 .zero 6 6]),
            (0, [Scalar.ofBit4 .x 3 0]), (4, [Scalar.ofBit4 .z 6 6])]))) ∨
        s.sent = none ∧ ∀ v ∈ latest [] 5 [(4, [Scalar.ofBit4 .zero 6 6]),
          (0, [Scalar.ofBit4 .x 3 0]), (4, [Scalar.ofBit4 .z 6 6])], v = []) :=
  (resolver_sends_evaluated_tree (n := 5) (by decide)).1 _ _ (Or.inr (by decide)) (by decide)

end Icarus.Vvp.Resolv
