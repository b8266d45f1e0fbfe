import Mathlib.Data.List.Nodup
import Mathlib.Data.List.Pairwise
import Mathlib.Data.List.Perm.Basic
import Mathlib.Order.Basic

/-!
# Linked search trees

Binary trees of a heap whose cells have the addresses of their children and of their parent. A
path is the way from a subtree up to the root, with the subtrees on the other sides.
-/

namespace Icarus.Core.SearchTree

/-- A cell of the heap. -/
structure Cell (K V : Type) where
  key : K
  val : V
  left : Option Nat
  right : Option Nat
  up : Option Nat

/-- The shape of a tree: the addresses of its cells. -/
inductive Shape
  | nil
  | node (addr : Nat) (l r : Shape)

/-- The way up to the parent: the parent and what hangs on its other side. -/
inductive Frame
  | left (addr : Nat) (r : Shape)
  | right (addr : Nat) (l : Shape)

namespace Shape

/-- The addresses, from left to right. -/
def addrs : Shape → List Nat
  | nil => []
  | node a l r => l.addrs ++ a :: r.addrs

/-- The addresses, each before those of its subtrees. -/
def preorder : Shape → List Nat
  | nil => []
  | node a l r => a :: (l.preorder ++ r.preorder)

/-- The number of cells. -/
def size : Shape → Nat
  | nil => 0
  | node _ l r => l.size + r.size + 1

/-- The address of the root. -/
def root : Shape → Option Nat
  | nil => none
  | node a _ _ => some a

/-- The second tree hung below the last cell of the first. -/
def attach : Shape → Shape → Shape
  | nil, t => t
  | node a l r, t => node a l (r.attach t)

end Shape

namespace Frame

/-- The parent with a subtree. -/
def fill : Frame → Shape → Shape
  | left a r, t => .node a t r
  | right a l, t => .node a l t

/-- The address of the parent. -/
def addr : Frame → Nat
  | left a _ => a
  | right a _ => a

/-- The addresses of the parent and its other side. -/
def addrs : Frame → List Nat
  | left a r => a :: r.addrs
  | right a l => a :: l.addrs

end Frame

/-- The whole tree of a subtree and the path above it, which is given from below. -/
def fill (path : List Frame) (t : Shape) : Shape := path.foldl (fun t f => f.fill t) t

/-- The addresses on a path. -/
def pathAddrs (path : List Frame) : List Nat := path.flatMap Frame.addrs

variable {K V : Type}

/-- The cells of a tree are linked as its shape says, below a parent. -/
def Linked (h : Nat → Cell K V) : Option Nat → Shape → Prop
  | _, .nil => True
  | up, .node a l r => (h a).up = up ∧ (h a).left = l.root ∧ (h a).right = r.root ∧
      Linked h (some a) l ∧ Linked h (some a) r

/-- The cells of a path are linked, with a subtree of the given address below. -/
def Above (h : Nat → Cell K V) (root : Option Nat) : List Frame → Option Nat → Option Nat → Prop
  | [], up, sub => up = none ∧ sub = root
  | .left a r :: path, up, sub => up = some a ∧ (h a).left = sub ∧ (h a).right = r.root ∧
      Linked h (some a) r ∧ Above h root path (h a).up (some a)
  | .right a l :: path, up, sub => up = some a ∧ (h a).left = l.root ∧ (h a).right = sub ∧
      Linked h (some a) l ∧ Above h root path (h a).up (some a)

/-- The keys and values, from left to right. -/
def items (h : Nat → Cell K V) : Shape → List (K × V)
  | .nil => []
  | .node a l r => items h l ++ ((h a).key, (h a).val) :: items h r

/-- The items that a path has to the left of its subtree. -/
def before (h : Nat → Cell K V) : List Frame → List (K × V)
  | [] => []
  | .left _ _ :: path => before h path
  | .right a l :: path => before h path ++ (items h l ++ [((h a).key, (h a).val)])

/-- The items that a path has to the right of its subtree. -/
def after (h : Nat → Cell K V) : List Frame → List (K × V)
  | [] => []
  | .left a r :: path => ((h a).key, (h a).val) :: items h r ++ after h path
  | .right _ _ :: path => after h path

variable {h h' : Nat → Cell K V} {t l r : Shape} {path : List Frame} {f : Frame}
  {root up sub : Option Nat} {a : Nat}

/-! ## Trees and paths -/

@[simp] theorem fill_nil : fill [] t = t := rfl

@[simp] theorem fill_cons : fill (f :: path) t = fill path (f.fill t) := rfl

theorem fill_append_singleton : fill (path ++ [f]) t = f.fill (fill path t) := by
  rw [fill, List.foldl_append]
  rfl

theorem addrs_frame_fill : (f.fill t).addrs.Perm (t.addrs ++ f.addrs) := by
  cases f with
  | left a r => exact List.Perm.refl _
  | right a l =>
    show (l.addrs ++ a :: t.addrs).Perm (t.addrs ++ a :: l.addrs)
    refine (List.perm_middle).trans (List.Perm.trans ?_ (List.perm_middle).symm)
    exact List.Perm.cons a List.perm_append_comm

theorem addrs_fill : (fill path t).addrs.Perm (t.addrs ++ pathAddrs path) := by
  induction path generalizing t with
  | nil => simp [pathAddrs]
  | cons f path ih =>
    rw [fill_cons, pathAddrs, List.flatMap_cons]
    refine ih.trans ?_
    rw [← List.append_assoc]
    exact List.Perm.append_right _ addrs_frame_fill

theorem addrs_attach : (l.attach r).addrs = l.addrs ++ r.addrs := by
  induction l with
  | nil => rfl
  | node a l₁ l₂ _ ih => simp [Shape.attach, Shape.addrs, ih]

theorem preorder_perm : t.preorder.Perm t.addrs := by
  induction t with
  | nil => exact List.Perm.refl _
  | node a l r ihl ihr =>
    exact (List.Perm.cons a (ihl.append ihr)).trans List.perm_middle.symm

theorem root_mem (hroot : t.root = some a) : a ∈ t.addrs := by
  cases t with
  | nil => exact absurd hroot nofun
  | node b l r =>
    obtain rfl := Option.some.inj hroot
    simp [Shape.addrs]

theorem size_eq_length : t.size = t.addrs.length := by
  induction t with
  | nil => rfl
  | node a l r ihl ihr =>
    rw [Shape.size, Shape.addrs, List.length_append, List.length_cons, ihl, ihr]
    omega

/-! ## Items -/

theorem items_eq_map : items h t = t.addrs.map fun a => ((h a).key, (h a).val) := by
  induction t with
  | nil => rfl
  | node a l r ihl ihr => rw [items, Shape.addrs, List.map_append, List.map_cons, ihl, ihr]

theorem items_fill : items h (fill path t) = before h path ++ items h t ++ after h path := by
  induction path generalizing t with
  | nil => simp [before, after]
  | cons f path ih =>
    rw [fill_cons, ih]
    cases f <;> simp [Frame.fill, items, before, after]

theorem items_attach : items h (l.attach r) = items h l ++ items h r := by
  induction l with
  | nil => rfl
  | node a l₁ l₂ _ ih => simp [Shape.attach, items, ih]

theorem items_congr (hitem : ∀ b ∈ t.addrs, (h' b).key = (h b).key ∧ (h' b).val = (h b).val) :
    items h' t = items h t := by
  induction t with
  | nil => rfl
  | node a l r ihl ihr =>
    obtain ⟨hkey, hval⟩ := hitem a (by simp [Shape.addrs])
    rw [items, items, ihl fun b hb => hitem b (by simp [Shape.addrs, hb]),
      ihr fun b hb => hitem b (by simp [Shape.addrs, hb]), hkey, hval]

theorem before_congr
    (hitem : ∀ b ∈ pathAddrs path, (h' b).key = (h b).key ∧ (h' b).val = (h b).val) :
    before h' path = before h path := by
  induction path with
  | nil => rfl
  | cons f path ih =>
    rw [pathAddrs, List.flatMap_cons] at hitem
    have hrest := ih fun b hb => hitem b (List.mem_append_right _ hb)
    cases f with
    | left a r => exact hrest
    | right a l =>
      obtain ⟨hkey, hval⟩ := hitem a (by simp [Frame.addrs])
      rw [before, before, hrest, hkey, hval,
        items_congr fun b hb => hitem b (by simp [Frame.addrs, hb])]

theorem after_congr
    (hitem : ∀ b ∈ pathAddrs path, (h' b).key = (h b).key ∧ (h' b).val = (h b).val) :
    after h' path = after h path := by
  induction path with
  | nil => rfl
  | cons f path ih =>
    rw [pathAddrs, List.flatMap_cons] at hitem
    have hrest := ih fun b hb => hitem b (List.mem_append_right _ hb)
    cases f with
    | right a l => exact hrest
    | left a r =>
      obtain ⟨hkey, hval⟩ := hitem a (by simp [Frame.addrs])
      rw [after, after, hrest, hkey, hval,
        items_congr fun b hb => hitem b (by simp [Frame.addrs, hb])]

/-! ## Links -/

/-- Other keys and values do not matter to the links. -/
theorem Linked.of_links (hlinked : Linked h up t) (hlinks : ∀ b, (h' b).left = (h b).left ∧
    (h' b).right = (h b).right ∧ (h' b).up = (h b).up) : Linked h' up t := by
  induction t generalizing up with
  | nil => trivial
  | node a l r ihl ihr =>
    obtain ⟨hup, hleft, hright, hl, hr⟩ := hlinked
    obtain ⟨hleft', hright', hup'⟩ := hlinks a
    exact ⟨hup'.trans hup, hleft'.trans hleft, hright'.trans hright, ihl hl, ihr hr⟩

theorem Linked.congr (hlinked : Linked h up t) (hsame : ∀ b ∈ t.addrs, h' b = h b) :
    Linked h' up t := by
  induction t generalizing up with
  | nil => trivial
  | node a l r ihl ihr =>
    obtain ⟨hup, hleft, hright, hl, hr⟩ := hlinked
    have ha : h' a = h a := hsame a (by simp [Shape.addrs])
    rw [Linked, ha]
    exact ⟨hup, hleft, hright, ihl hl fun b hb => hsame b (by simp [Shape.addrs, hb]),
      ihr hr fun b hb => hsame b (by simp [Shape.addrs, hb])⟩

theorem Above.congr (habove : Above h root path up sub)
    (hsame : ∀ b ∈ pathAddrs path, h' b = h b) : Above h' root path up sub := by
  induction path generalizing up sub with
  | nil => exact habove
  | cons f path ih =>
    cases f with
    | left a r =>
      obtain ⟨hup, hleft, hright, hr, hrest⟩ := habove
      have ha : h' a = h a := hsame a (by simp [pathAddrs, Frame.addrs])
      rw [Above, ha]
      exact ⟨hup, hleft, hright,
        hr.congr fun b hb => hsame b (by simp [pathAddrs, Frame.addrs, hb]),
        ih hrest fun b hb => hsame b (by
          rw [pathAddrs, List.flatMap_cons]
          exact List.mem_append_right _ hb)⟩
    | right a l =>
      obtain ⟨hup, hleft, hright, hl, hrest⟩ := habove
      have ha : h' a = h a := hsame a (by simp [pathAddrs, Frame.addrs])
      rw [Above, ha]
      exact ⟨hup, hleft, hright,
        hl.congr fun b hb => hsame b (by simp [pathAddrs, Frame.addrs, hb]),
        ih hrest fun b hb => hsame b (by
          rw [pathAddrs, List.flatMap_cons]
          exact List.mem_append_right _ hb)⟩

/-- A linked tree is a linked subtree below a linked path. -/
theorem linked_fill_iff : Linked h none (fill path t) ∧ (fill path t).root = root ↔
    ∃ up, Above h root path up t.root ∧ Linked h up t := by
  induction path generalizing t with
  | nil =>
    constructor
    · exact fun ⟨hlinked, hroot⟩ => ⟨none, ⟨rfl, hroot⟩, hlinked⟩
    · rintro ⟨up, ⟨rfl, hroot⟩, hlinked⟩
      exact ⟨hlinked, hroot⟩
  | cons f path ih =>
    rw [fill_cons, ih]
    cases f with
    | left a r =>
      constructor
      · rintro ⟨up, habove, hup, hleft, hright, ht, hr⟩
        exact ⟨some a, ⟨rfl, hleft, hright, hr, hup.symm ▸ habove⟩, ht⟩
      · rintro ⟨up, ⟨rfl, hleft, hright, hr, habove⟩, ht⟩
        exact ⟨_, habove, rfl, hleft, hright, ht, hr⟩
    | right a l =>
      constructor
      · rintro ⟨up, habove, hup, hleft, hright, hl, ht⟩
        exact ⟨some a, ⟨rfl, hleft, hright, hl, hup.symm ▸ habove⟩, ht⟩
      · rintro ⟨up, ⟨rfl, hleft, hright, hl, habove⟩, ht⟩
        exact ⟨_, habove, rfl, hleft, hright, hl, ht⟩

/-! ## Changing links -/

/-- Fields of one cell. -/
def setLeft (h : Nat → Cell K V) (a : Nat) (sub : Option Nat) : Nat → Cell K V :=
  Function.update h a { h a with left := sub }

def setRight (h : Nat → Cell K V) (a : Nat) (sub : Option Nat) : Nat → Cell K V :=
  Function.update h a { h a with right := sub }

def setUp (h : Nat → Cell K V) (a : Nat) (up : Option Nat) : Nat → Cell K V :=
  Function.update h a { h a with up := up }

/-- The parent of a tree, if there is any tree. -/
def setRootUp (h : Nat → Cell K V) (sub : Option Nat) (up : Option Nat) : Nat → Cell K V :=
  match sub with
  | none => h
  | some a => setUp h a up

/-- The link of a parent to the subtree. -/
def setChild (h : Nat → Cell K V) (sub : Option Nat) : List Frame → Nat → Cell K V
  | [] => h
  | .left a _ :: _ => setLeft h a sub
  | .right a _ :: _ => setRight h a sub

variable {b : Nat}

theorem setLeft_of_ne (hne : b ≠ a) : setLeft h a sub b = h b := Function.update_of_ne hne _ _

theorem setRight_of_ne (hne : b ≠ a) : setRight h a sub b = h b := Function.update_of_ne hne _ _

theorem setUp_of_ne (hne : b ≠ a) : setUp h a up b = h b := Function.update_of_ne hne _ _

theorem setRootUp_of_not_mem (hb : b ∉ t.addrs) : setRootUp h t.root up b = h b := by
  cases t with
  | nil => rfl
  | node a l r => exact setUp_of_ne fun he => hb (he ▸ root_mem rfl)

/-- Keys and values are not links. -/
def SameItems (h h' : Nat → Cell K V) : Prop :=
  ∀ b, (h' b).key = (h b).key ∧ (h' b).val = (h b).val

theorem SameItems.trans {h₁ h₂ h₃ : Nat → Cell K V} (h₁₂ : SameItems h₁ h₂)
    (h₂₃ : SameItems h₂ h₃) : SameItems h₁ h₃ := fun b =>
  ⟨(h₂₃ b).1.trans (h₁₂ b).1, (h₂₃ b).2.trans (h₁₂ b).2⟩

theorem SameItems.refl : SameItems h h := fun _ => ⟨rfl, rfl⟩

private theorem sameItems_update {cell : Cell K V} (hkey : cell.key = (h a).key)
    (hval : cell.val = (h a).val) : SameItems h (Function.update h a cell) := by
  intro b
  by_cases hb : b = a
  · rw [hb, Function.update_self]
    exact ⟨hkey, hval⟩
  · rw [Function.update_of_ne hb]
    exact ⟨rfl, rfl⟩

theorem sameItems_setLeft : SameItems h (setLeft h a sub) := sameItems_update rfl rfl

theorem sameItems_setRight : SameItems h (setRight h a sub) := sameItems_update rfl rfl

theorem sameItems_setUp : SameItems h (setUp h a up) := sameItems_update rfl rfl

theorem sameItems_setRootUp : SameItems h (setRootUp h sub up) := by
  cases sub with
  | none => exact SameItems.refl
  | some a => exact sameItems_setUp

theorem sameItems_setChild : SameItems h (setChild h sub path) := by
  obtain - | ⟨⟨a, r⟩ | ⟨a, l⟩, path⟩ := path
  · exact SameItems.refl
  · exact sameItems_setLeft
  · exact sameItems_setRight

theorem setChild_of_not_mem (hb : b ∉ pathAddrs path) : setChild h sub path b = h b := by
  obtain - | ⟨⟨a, r⟩ | ⟨a, l⟩, path⟩ := path
  · rfl
  · exact setLeft_of_ne fun he => hb (by simp [pathAddrs, Frame.addrs, he])
  · exact setRight_of_ne fun he => hb (by simp [pathAddrs, Frame.addrs, he])

/-- A tree gets another parent. -/
theorem linked_setRootUp {up' : Option Nat} (hlinked : Linked h up t) (hnodup : t.addrs.Nodup) :
    Linked (setRootUp h t.root up') up' t := by
  cases t with
  | nil => trivial
  | node a l r =>
    obtain ⟨-, hleft, hright, hl, hr⟩ := hlinked
    rw [Shape.addrs, List.nodup_middle, List.nodup_cons, List.mem_append, not_or] at hnodup
    obtain ⟨⟨hal, har⟩, -⟩ := hnodup
    have hself : setRootUp h (Shape.node a l r).root up' a = { h a with up := up' } :=
      Function.update_self a _ h
    rw [Linked, hself]
    refine ⟨rfl, hleft, hright, hl.congr fun b hb => ?_, hr.congr fun b hb => ?_⟩
    · exact setUp_of_ne fun he => hal (he ▸ hb)
    · exact setUp_of_ne fun he => har (he ▸ hb)

/-- The root of the tree when the subtree of a path gets another root. -/
def newRoot (root sub : Option Nat) : List Frame → Option Nat
  | [] => sub
  | _ :: _ => root

/-- A path gets another subtree. -/
theorem above_setChild {sub' : Option Nat} (habove : Above h root path up sub)
    (hnodup : (pathAddrs path).Nodup) :
    Above (setChild h sub' path) (newRoot root sub' path) path up sub' := by
  obtain - | ⟨⟨a, r⟩ | ⟨a, l⟩, path⟩ := path
  · exact ⟨habove.1, rfl⟩
  · obtain ⟨hup, -, hright, hr, hrest⟩ := habove
    have hcons : pathAddrs (.left a r :: path) = a :: (r.addrs ++ pathAddrs path) := rfl
    rw [hcons, List.nodup_cons, List.mem_append, not_or] at hnodup
    obtain ⟨⟨har, hapath⟩, -⟩ := hnodup
    have hself : setChild h sub' (.left a r :: path) a = { h a with left := sub' } :=
      Function.update_self a _ h
    rw [Above, hself]
    refine ⟨hup, rfl, hright, hr.congr fun b hb => ?_, hrest.congr fun b hb => ?_⟩
    · exact setLeft_of_ne fun he => har (he ▸ hb)
    · exact setLeft_of_ne fun he => hapath (he ▸ hb)
  · obtain ⟨hup, hleft, -, hl, hrest⟩ := habove
    have hcons : pathAddrs (.right a l :: path) = a :: (l.addrs ++ pathAddrs path) := rfl
    rw [hcons, List.nodup_cons, List.mem_append, not_or] at hnodup
    obtain ⟨⟨hal, hapath⟩, -⟩ := hnodup
    have hself : setChild h sub' (.right a l :: path) a = { h a with right := sub' } :=
      Function.update_self a _ h
    rw [Above, hself]
    refine ⟨hup, hleft, rfl, hl.congr fun b hb => ?_, hrest.congr fun b hb => ?_⟩
    · exact setRight_of_ne fun he => hal (he ▸ hb)
    · exact setRight_of_ne fun he => hapath (he ▸ hb)

/-- Another tree in the place of a subtree: one link down and one link up are set. -/
theorem linked_replace {up' : Option Nat} (habove : Above h root path up sub)
    (hlinked : Linked h up' t) (hnodup : (t.addrs ++ pathAddrs path).Nodup) :
    Linked (setRootUp (setChild h t.root path) t.root up) none (fill path t) ∧
      (fill path t).root = newRoot root t.root path := by
  obtain ⟨htree, hpath, hdisjoint⟩ := List.nodup_append.mp hnodup
  apply linked_fill_iff.mpr
  refine ⟨up, ?_, ?_⟩
  · refine (above_setChild habove hpath).congr fun b hb => ?_
    exact setRootUp_of_not_mem fun hmem => hdisjoint b hmem b hb rfl
  · refine linked_setRootUp (hlinked.congr fun b hb => ?_) htree
    exact setChild_of_not_mem fun hmem => hdisjoint b hb b hmem rfl

/-- The last cell of a tree, by its links to the right. -/
def rightmost (h : Nat → Cell K V) : Nat → Nat → Option Nat
  | 0, _ => none
  | fuel + 1, tail =>
    match (h tail).right with
    | none => some tail
    | some next => rightmost h fuel next

/-- A tree is hung below the last cell of another. -/
theorem linked_attach {fuel : Nat} {up' : Option Nat} (hl : Linked h up (.node a l r))
    (ht : Linked h up' t) (hnodup : ((Shape.node a l r).addrs ++ t.addrs).Nodup)
    (hfuel : (Shape.node a l r).size ≤ fuel) :
    ∃ tail, rightmost h fuel a = some tail ∧ tail ∈ (Shape.node a l r).addrs ∧
      Linked (setRootUp (setRight h tail t.root) t.root (some tail)) up
        ((Shape.node a l r).attach t) := by
  induction r generalizing up a l fuel with
  | nil =>
    obtain ⟨hup, hleft, hright, hsub, -⟩ := hl
    obtain ⟨fuel, rfl⟩ : ∃ n, fuel = n + 1 := ⟨fuel - 1, by
      rw [Shape.size] at hfuel
      omega⟩
    have haddrs : (Shape.node a l .nil).addrs = l.addrs ++ [a] := rfl
    rw [haddrs, List.append_assoc, List.nodup_append] at hnodup
    obtain ⟨hlnodup, hanodup, hdisjoint⟩ := hnodup
    obtain ⟨hat, htnodup⟩ := List.nodup_cons.mp hanodup
    refine ⟨a, ?_, by simp [Shape.addrs], ?_⟩
    · rw [rightmost, hright]
      rfl
    · have hself : setRootUp (setRight h a t.root) t.root (some a) a =
          { h a with right := t.root } := by
        rw [setRootUp_of_not_mem hat]
        exact Function.update_self a _ h
      rw [Shape.attach, Linked, hself]
      refine ⟨hup, hleft, rfl, hsub.congr fun b hb => ?_,
        linked_setRootUp (ht.congr fun b hb => ?_) htnodup⟩
      · have hne : b ≠ a := hdisjoint b hb a (List.mem_append_left _ (List.mem_singleton_self a))
        rw [setRootUp_of_not_mem fun hmem => hdisjoint b hb b (List.mem_append_right _ hmem) rfl,
          setRight_of_ne hne]
      · exact setRight_of_ne fun he => hat (he ▸ hb)
  | node b l₂ r₂ _ ih =>
    obtain ⟨hup, hleft, hright, hsub, hrsub⟩ := hl
    obtain ⟨fuel, rfl⟩ : ∃ n, fuel = n + 1 := ⟨fuel - 1, by
      rw [Shape.size] at hfuel
      omega⟩
    have haddrs : (Shape.node a l (.node b l₂ r₂)).addrs =
        l.addrs ++ a :: (Shape.node b l₂ r₂).addrs := rfl
    rw [haddrs, List.append_assoc, List.cons_append, List.nodup_append] at hnodup
    obtain ⟨hlnodup, hrest, hdisjoint⟩ := hnodup
    obtain ⟨hat, hrnodup⟩ := List.nodup_cons.mp hrest
    have hfuel' : (Shape.node b l₂ r₂).size ≤ fuel := by
      have hsize : (Shape.node a l (.node b l₂ r₂)).size =
          l.size + (Shape.node b l₂ r₂).size + 1 := rfl
      omega
    obtain ⟨tail, hright', hmem, hlinked⟩ := ih hrsub hrnodup hfuel'
    have hmem' : tail ∈ (Shape.node b l₂ r₂).addrs ++ t.addrs := List.mem_append_left _ hmem
    have hkeep : ∀ c, c ∉ (Shape.node b l₂ r₂).addrs ++ t.addrs →
        setRootUp (setRight h tail t.root) t.root (some tail) c = h c := by
      intro c hc
      have hne : c ≠ tail := fun he => hc (he ▸ hmem')
      rw [setRootUp_of_not_mem fun hm => hc (List.mem_append_right _ hm), setRight_of_ne hne]
    refine ⟨tail, ?_, ?_, ?_⟩
    · rw [rightmost, hright]
      exact hright'
    · rw [haddrs]
      exact List.mem_append_right _ (List.mem_cons_of_mem _ hmem)
    · rw [Shape.attach, Linked, hkeep a hat]
      refine ⟨hup, hleft, hright, hsub.congr fun c hc => hkeep c fun hm => ?_, hlinked⟩
      exact hdisjoint c hc c (List.mem_cons_of_mem _ hm) rfl

end Icarus.Core.SearchTree
