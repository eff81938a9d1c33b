import Mathlib.Data.List.Nodup
import Mathlib.Tactic.Cases

/-!
# Binary trees linked through a heap with parent pointers

A node of a linked tree is a cell of a heap that stores the address of its parent and
of its two children next to some data.  `LinkedTree` is the tree as a value, labelled by the
addresses of its cells, and `Represents h root t` says that the heap `h` and the root
pointer hold exactly the tree `t`.

An operation on such a structure edits a few cells around one position.  A position is a
`Context`: the list of frames from the hole to the root, innermost first.
`represents_plug` splits the representation of a whole tree at a position, and
`Represents.replace` puts a new subtree in the hole from local facts only: the frame
keeps its cells, but for the pointer that leads to the hole.

How a node without a neighbour is written down differs between structures: some store a
null pointer, some the node's own address.  The function `e` gives, for a node, the
pointer it stores where it has no child, or no parent.

## Main definitions

* `Side`, `Cell`, `Heap`, `LinkedTree`: sides, cells, heaps and trees labelled by addresses.
* `Frame`, `plug`: positions in a tree and the tree around a subtree.
* `Represents`: the heap holds the tree, each address once.

## Main results

* `represents_plug`: the representation splits at every position.
* `Represents.replace`: replacing the subtree at a position.
* `Holds.reparent`: a subtree moves below another node by one write.
-/

namespace Gp2xKernel.Library

open List

/-- The two sides of a node. -/
inductive Side
  | left
  | right
  deriving DecidableEq, Repr

namespace Side

/-- The other side. -/
def flip : Side → Side
  | left => right
  | right => left

theorem eq_or_eq_flip (d d' : Side) : d' = d ∨ d' = d.flip := by
  cases d <;> cases d' <;> decide

end Side

/-- A cell of the heap: three pointers and the data of the node. -/
@[ext] structure Cell (α δ : Type*) where
  parent : α
  left : α
  right : α
  data : δ
  deriving DecidableEq

variable {α δ : Type*}

namespace Cell

/-- The pointer to the child on side `d`. -/
def child (d : Side) (c : Cell α δ) : α :=
  match d with
  | .left => c.left
  | .right => c.right

/-- Overwrite the pointer to the child on side `d`. -/
def setChild (d : Side) (x : α) (c : Cell α δ) : Cell α δ :=
  match d with
  | .left => { c with left := x }
  | .right => { c with right := x }

/-- Overwrite the pointer to the parent. -/
def setParent (x : α) (c : Cell α δ) : Cell α δ := { c with parent := x }

/-- Overwrite the data. -/
def setData (v : δ) (c : Cell α δ) : Cell α δ := { c with data := v }

/-- The cell with `near` on side `d` and `far` on the other side. -/
def join (d : Side) (parent near far : α) (v : δ) : Cell α δ :=
  match d with
  | .left => ⟨parent, near, far, v⟩
  | .right => ⟨parent, far, near, v⟩

variable (d : Side) (p x y : α) (v : δ)

@[simp] theorem child_join : (join d p x y v).child d = x := by
  cases d <;> rfl

@[simp] theorem child_flip_join :
    (join d p x y v).child d.flip = y := by
  cases d <;> rfl

@[simp] theorem parent_join : (join d p x y v).parent = p := by
  cases d <;> rfl

@[simp] theorem data_join : (join d p x y v).data = v := by
  cases d <;> rfl

@[simp] theorem setChild_join (z : α) :
    (join d p x y v).setChild d z = join d p z y v := by
  cases d <;> rfl

@[simp] theorem setChild_flip_join (z : α) :
    (join d p x y v).setChild d.flip z = join d p x z v := by
  cases d <;> rfl

@[simp] theorem setParent_join (q : α) :
    (join d p x y v).setParent q = join d q x y v := by
  cases d <;> rfl

@[simp] theorem setData_join (u : δ) :
    (join d p x y v).setData u = join d p x y u := by
  cases d <;> rfl

theorem join_flip : join d.flip p x y v = join d p y x v := by
  cases d <;> rfl

end Cell

/-- A heap of cells: `none` where no cell is allocated. -/
abbrev Heap (α δ : Type*) := α → Option (Cell α δ)

section

variable [DecidableEq α] (h : Heap α δ)

/-- Rewrite the cell at one address, if there is one. -/
def Heap.modify (a : α) (f : Cell α δ → Cell α δ) : Heap α δ :=
  fun b => if b = a then (h b).map f else h b

theorem Heap.modify_apply (a b : α) (f : Cell α δ → Cell α δ) :
    h.modify a f b = if b = a then (h b).map f else h b := rfl

@[simp] theorem Heap.modify_self (a : α) (f : Cell α δ → Cell α δ) :
    h.modify a f a = (h a).map f := by
  rw [Heap.modify_apply, if_pos rfl]

theorem Heap.modify_of_ne {a b : α} (hne : b ≠ a)
    (f : Cell α δ → Cell α δ) : h.modify a f b = h b := by
  rw [Heap.modify_apply, if_neg hne]

end

/-- A binary tree whose nodes are labelled with an address and data. -/
inductive LinkedTree (α δ : Type*)
  | nil
  | node (l : LinkedTree α δ) (a : α) (v : δ) (r : LinkedTree α δ)
  deriving DecidableEq, Repr

namespace LinkedTree

/-- The address of the root node. -/
def addr? : LinkedTree α δ → Option α
  | nil => none
  | node _ a _ _ => some a

/-- The addresses in symmetric order. -/
def addrs : LinkedTree α δ → List α
  | nil => []
  | node l a _ r => l.addrs ++ a :: r.addrs

/-- The nodes in symmetric order, each with its data. -/
def items : LinkedTree α δ → List (α × δ)
  | nil => []
  | node l a v r => l.items ++ (a, v) :: r.items

/-- The node with `near` on side `d` and `far` on the other side. -/
def join (d : Side) (near : LinkedTree α δ) (a : α) (v : δ) (far : LinkedTree α δ) :
    LinkedTree α δ :=
  match d with
  | .left => node near a v far
  | .right => node far a v near

variable (d : Side) (l r x y : LinkedTree α δ) (a : α) (v : δ)

@[simp] theorem addr?_nil : (nil : LinkedTree α δ).addr? = none := rfl

@[simp] theorem addr?_node : (node l a v r).addr? = some a := rfl

@[simp] theorem addr?_join :
    (join d x a v y).addr? = some a := by
  cases d <;> rfl

@[simp] theorem addrs_nil : (nil : LinkedTree α δ).addrs = [] := rfl

@[simp] theorem addrs_node :
    (node l a v r).addrs = l.addrs ++ a :: r.addrs := rfl

@[simp] theorem items_nil : (nil : LinkedTree α δ).items = [] := rfl

@[simp] theorem items_node :
    (node l a v r).items = l.items ++ (a, v) :: r.items := rfl

theorem addrs_eq_map (t : LinkedTree α δ) : t.addrs = t.items.map Prod.fst := by
  induction t with
  | nil => rfl
  | node l a v r ihl ihr => simp [ihl, ihr]

theorem addrs_perm_cons {s t : LinkedTree α δ} {p : α × δ} (h : t.items.Perm (p :: s.items)) :
    t.addrs.Perm (p.1 :: s.addrs) := by
  rw [addrs_eq_map, addrs_eq_map]
  exact h.map Prod.fst

theorem mem_addrs_of_mem_items {t : LinkedTree α δ} {a : α} {v : δ} (h : (a, v) ∈ t.items) :
    a ∈ t.addrs := by
  rw [addrs_eq_map]
  exact mem_map_of_mem h

theorem items_join_perm :
    (join d x a v y).items.Perm ((a, v) :: (x.items ++ y.items)) := by
  cases d with
  | left => exact perm_middle
  | right => exact perm_middle.trans (.cons _ perm_append_comm)

@[simp] theorem mem_items_join (p : α × δ) :
    p ∈ (join d x a v y).items ↔ p = (a, v) ∨ p ∈ x.items ∨ p ∈ y.items := by
  rw [(items_join_perm d x y a v).mem_iff]
  simp

theorem join_left : join .left x a v y = node x a v y := rfl

theorem join_right : join .right x a v y = node y a v x := rfl

theorem join_flip :
    join d.flip x a v y = join d y a v x := by
  cases d <;> rfl

/-- A node can be read with either of its subtrees in the near position. -/
theorem exists_join :
    ∃ x y, node l a v r = join d x a v y := by
  cases d with
  | left => exact ⟨l, r, rfl⟩
  | right => exact ⟨r, l, rfl⟩

/-- Induction that does not tell the two subtrees of a node apart. -/
theorem join_induction {motive : LinkedTree α δ → Prop} (nil : motive nil)
    (node : ∀ l a v r, (∀ d x y, node l a v r = join d x a v y → motive x) → motive (node l a v r))
    (t : LinkedTree α δ) : motive t := by
  induction t with
  | nil => exact nil
  | node l a v r ihl ihr =>
    refine node l a v r fun d x y h => ?_
    cases d with
    | left => exact (LinkedTree.node.inj h).1 ▸ ihl
    | right => exact (LinkedTree.node.inj h).2.2.2 ▸ ihr

@[simp] theorem mem_addrs_join (a b : α) (v : δ) :
    b ∈ (join d x a v y).addrs ↔ b = a ∨ b ∈ x.addrs ∨ b ∈ y.addrs := by
  cases d <;> simp [join] <;> tauto

theorem nodup_join :
    (join d x a v y).addrs.Nodup ↔
      a ∉ x.addrs ∧ a ∉ y.addrs ∧ x.addrs.Nodup ∧ y.addrs.Nodup ∧ ∀ b ∈ x.addrs, b ∉ y.addrs := by
  cases d <;> simp only [join, addrs_node] <;> grind

theorem addr?_mem {t : LinkedTree α δ} {a : α} (h : t.addr? = some a) : a ∈ t.addrs := by
  cases t with
  | nil => simp at h
  | node l b v r =>
    obtain rfl : b = a := by simpa using h
    simp

theorem addr?_eq_none {t : LinkedTree α δ} (h : t.addr? = none) : t = nil := by
  cases t with
  | nil => rfl
  | node l b v r => simp at h

end LinkedTree

/-! ## Positions -/

/-- One step of the path from the root to a position: the hole lies on side `side` of the
node `addr`, whose other subtree is `sibling`. -/
structure Frame (α δ : Type*) where
  side : Side
  addr : α
  data : δ
  sibling : LinkedTree α δ

/-- The tree with a subtree at a position; the frames are listed from the hole upwards. -/
def plug : List (Frame α δ) → LinkedTree α δ → LinkedTree α δ
  | [], s => s
  | f :: k, s => plug k (.join f.side s f.addr f.data f.sibling)

/-- The address above the hole. -/
def top : List (Frame α δ) → Option α
  | [] => none
  | f :: _ => some f.addr

/-- The addresses before the hole, in symmetric order. -/
def before : List (Frame α δ) → List α
  | [] => []
  | f :: k => before k ++ (match f.side with
    | .left => []
    | .right => f.sibling.addrs ++ [f.addr])

/-- The addresses after the hole, in symmetric order. -/
def after : List (Frame α δ) → List α
  | [] => []
  | f :: k => (match f.side with
    | .left => f.addr :: f.sibling.addrs
    | .right => []) ++ after k

/-- The addresses of a context. -/
def around (k : List (Frame α δ)) : List α := before k ++ after k

variable (f : Frame α δ) (k : List (Frame α δ)) (s : LinkedTree α δ)

@[simp] theorem plug_nil : plug [] s = s := rfl

@[simp] theorem plug_cons :
    plug (f :: k) s = plug k (.join f.side s f.addr f.data f.sibling) := rfl

/-- Moving the position to the child on the far side of a node. -/
theorem plug_far (d : Side) (x y : LinkedTree α δ) (a : α) (v : δ) :
    plug (⟨d.flip, a, v, x⟩ :: k) y = plug k (.join d x a v y) := by
  rw [plug_cons, LinkedTree.join_flip]

theorem plug_append (k' : List (Frame α δ)) :
    plug (k ++ k') s = plug k' (plug k s) := by
  induction k generalizing s with
  | nil => rfl
  | cons f k ih => exact ih _

@[simp] theorem top_nil : top ([] : List (Frame α δ)) = none := rfl

@[simp] theorem top_cons : top (f :: k) = some f.addr := rfl

theorem addrs_plug :
    (plug k s).addrs = before k ++ s.addrs ++ after k := by
  induction k generalizing s with
  | nil => simp [before, after]
  | cons f k ih =>
    rw [plug_cons, ih]
    rcases f with ⟨d, a, v, u⟩
    cases d <;> simp [before, after, LinkedTree.join]

/-- The nodes of a context, each with its data. -/
def aroundItems : List (Frame α δ) → List (α × δ)
  | [] => []
  | f :: k => (f.addr, f.data) :: f.sibling.items ++ aroundItems k

theorem items_plug_perm :
    (plug k s).items.Perm (s.items ++ aroundItems k) := by
  induction k generalizing s with
  | nil => simp [aroundItems]
  | cons f k ih =>
    refine (ih _).trans ?_
    refine ((LinkedTree.items_join_perm f.side s f.sibling f.addr f.data).append_right _).trans ?_
    simp only [cons_append, append_assoc]
    exact perm_middle.symm

@[simp] theorem mem_around_cons (b : α) :
    b ∈ around (f :: k) ↔ b = f.addr ∨ b ∈ f.sibling.addrs ∨ b ∈ around k := by
  rcases f with ⟨d, a, v, u⟩
  cases d <;> simp [around, before, after] <;> tauto

@[simp] theorem mem_around_nil (b : α) : b ∉ around ([] : List (Frame α δ)) := by
  simp [around, before, after]

@[simp] theorem mem_around_append (k' : List (Frame α δ)) (b : α) :
    b ∈ around (k ++ k') ↔ b ∈ around k ∨ b ∈ around k' := by
  induction k with
  | nil => simp
  | cons f k ih =>
    rw [cons_append, mem_around_cons, mem_around_cons]
    tauto

theorem mem_addrs_plug (b : α) :
    b ∈ (plug k s).addrs ↔ b ∈ s.addrs ∨ b ∈ around k := by
  simp only [addrs_plug, around, mem_append]
  tauto

theorem length_addrs_plug :
    (plug k s).addrs.length = s.addrs.length + (around k).length := by
  simp only [addrs_plug, around, length_append]
  omega

/-- The addresses of a tree are distinct when those of the subtree and those of the
context are, and the two do not meet. -/
theorem nodup_plug :
    (plug k s).addrs.Nodup ↔ s.addrs.Nodup ∧ (around k).Nodup ∧ ∀ b ∈ s.addrs, b ∉ around k := by
  simp only [addrs_plug, around]
  grind

theorem nodup_around_cons :
    (around (f :: k)).Nodup ↔ f.addr ∉ f.sibling.addrs ∧ f.addr ∉ around k ∧
      f.sibling.addrs.Nodup ∧ (around k).Nodup ∧ ∀ b ∈ f.sibling.addrs, b ∉ around k := by
  rcases f with ⟨d, a, v, u⟩
  cases d <;> simp only [around, before, after] <;> grind

theorem length_around_cons :
    (around (f :: k)).length = f.sibling.addrs.length + 1 + (around k).length := by
  rcases f with ⟨d, a, v, u⟩
  cases d <;> simp only [around, before, after, length_append, length_cons, length_nil] <;> omega

/-- A position is no deeper than the number of nodes around it. -/
theorem length_le_around : k.length ≤ (around k).length := by
  induction k with
  | nil => simp
  | cons f k ih =>
    rw [length_around_cons, length_cons]
    omega

variable {k s} {s' : LinkedTree α δ}

theorem addrs_plug_congr (h : s'.addrs = s.addrs) (k : List (Frame α δ)) :
    (plug k s').addrs = (plug k s).addrs := by
  rw [addrs_plug, addrs_plug, h]

/-- Adding a node to the subtree at a position adds it to the tree. -/
theorem items_plug_cons {p : α × δ}
    (h : s'.items.Perm (p :: s.items)) : (plug k s').items.Perm (p :: (plug k s).items) :=
  calc (plug k s').items.Perm (s'.items ++ aroundItems k) := items_plug_perm k s'
    _ |>.Perm (p :: (s.items ++ aroundItems k)) := h.append_right _
    _ |>.Perm (p :: (plug k s).items) := (items_plug_perm k s).symm.cons p

/-- Only the set of addresses of the subtree matters for the addresses to be distinct. -/
theorem nodup_plug_of_perm
    (h : (plug k s).addrs.Nodup) (hs : s'.addrs.Nodup) (hsub : ∀ b ∈ s'.addrs, b ∈ s.addrs) :
    (plug k s').addrs.Nodup := by
  rw [nodup_plug] at h ⊢
  exact ⟨hs, h.2.1, fun b hb => h.2.2 b (hsub b hb)⟩

/-- The addresses after taking one node out of the tree, if they are distinct. -/
theorem addrs_erase [BEq α] [LawfulBEq α] {l r : LinkedTree α δ} {a : α}
    {v : δ} (h : (plug k (.node l a v r)).addrs.Nodup) :
    (plug k (.node l a v r)).addrs.erase a = before k ++ (l.addrs ++ r.addrs) ++ after k := by
  obtain ⟨hnd, -, hout⟩ := (nodup_plug _ _).mp h
  have hl : a ∉ l.addrs := ((LinkedTree.nodup_join .left l r a v).mp hnd).1
  have hb : a ∉ before k := fun hb => hout a (by simp) (mem_append_left _ hb)
  rw [addrs_plug, LinkedTree.addrs_node, append_assoc, erase_append_right _ hb,
    append_assoc, erase_append_right _ hl]
  simp

/-- Every node of a tree is the root of the subtree at some position. -/
theorem exists_plug_of_mem {t : LinkedTree α δ} {a : α} (h : a ∈ t.addrs) :
    ∃ k l v r, t = plug k (.node l a v r) := by
  induction t with
  | nil => simp at h
  | node l b v r ihl ihr =>
    simp only [LinkedTree.addrs_node, mem_append, mem_cons] at h
    rcases h with h | rfl | h
    · obtain ⟨k, l', v', r', rfl⟩ := ihl h
      exact ⟨k ++ [⟨.left, b, v, r⟩], l', v', r', by rw [plug_append]; rfl⟩
    · exact ⟨[], l, v, r, rfl⟩
    · obtain ⟨k, l', v', r', rfl⟩ := ihr h
      exact ⟨k ++ [⟨.right, b, v, l⟩], l', v', r', by rw [plug_append]; rfl⟩

/-! ## Representation -/

section Representation

variable (e : α → α)

/-- The heap holds the tree, below the node `p` if there is one. -/
def Holds (h : Heap α δ) : Option α → LinkedTree α δ → Prop
  | _, .nil => True
  | p, .node l a v r =>
    h a = some ⟨p.getD (e a), l.addr?.getD (e a), r.addr?.getD (e a), v⟩ ∧
      Holds h (some a) l ∧ Holds h (some a) r

/-- The heap holds the nodes of the context, with the address `x` in the hole. -/
def ContextHolds (h : Heap α δ) (root : Option α) : Option α → List (Frame α δ) → Prop
  | x, [] => root = x
  | x, f :: k =>
    h f.addr = some (.join f.side ((top k).getD (e f.addr)) (x.getD (e f.addr))
        (f.sibling.addr?.getD (e f.addr)) f.data) ∧
      Holds e h (some f.addr) f.sibling ∧ ContextHolds h root (some f.addr) k

/-- The heap and the root pointer hold exactly the tree, whose addresses are distinct. -/
structure Represents (h : Heap α δ) (root : Option α) (t : LinkedTree α δ) : Prop where
  root_eq : root = t.addr?
  holds : Holds e h none t
  nodup : t.addrs.Nodup

variable {e} {h h' : Heap α δ} {root root' p q : Option α} {t : LinkedTree α δ} {a b : α} {v : δ}

theorem holds_join (d : Side) {x y : LinkedTree α δ} :
    Holds e h p (.join d x a v y) ↔
      h a = some (.join d (p.getD (e a)) (x.addr?.getD (e a)) (y.addr?.getD (e a)) v) ∧
        Holds e h (some a) x ∧ Holds e h (some a) y := by
  cases d with
  | left => exact Iff.rfl
  | right =>
    show _ ∧ Holds e h (some a) y ∧ Holds e h (some a) x ↔ _
    rw [and_comm (a := Holds e h (some a) y)]
    exact Iff.rfl

/-- Only the cells of the tree matter for its representation. -/
theorem Holds.congr (ht : Holds e h p t)
    (hh : ∀ b ∈ t.addrs, h' b = h b) : Holds e h' p t := by
  induction t generalizing p with
  | nil => trivial
  | node l a v r ihl ihr =>
    obtain ⟨ha, hl, hr⟩ := ht
    simp only [LinkedTree.addrs_node, mem_append, mem_cons] at hh
    exact ⟨(hh a (by simp)).trans ha, ihl hl fun b hb => hh b (.inl hb),
      ihr hr fun b hb => hh b (.inr (.inr hb))⟩

/-- Every address of a represented tree is allocated. -/
theorem Holds.isSome (ht : Holds e h p t)
    (hb : b ∈ t.addrs) : (h b).isSome := by
  induction t generalizing p with
  | nil => simp at hb
  | node l a v r ihl ihr =>
    obtain ⟨ha, hl, hr⟩ := ht
    simp only [LinkedTree.addrs_node, mem_append, mem_cons] at hb
    rcases hb with hb | rfl | hb
    · exact ihl hl hb
    · simp [ha]
    · exact ihr hr hb

theorem ContextHolds.congr {x : Option α} (hk : ContextHolds e h root x k)
    (hh : ∀ b ∈ around k, h' b = h b) : ContextHolds e h' root x k := by
  induction k generalizing x with
  | nil => exact hk
  | cons f k ih =>
    obtain ⟨hf, hsib, hk⟩ := hk
    simp only [mem_around_cons] at hh
    exact ⟨(hh _ (.inl rfl)).trans hf, hsib.congr fun b hb => hh b (.inr (.inl hb)),
      ih hk fun b hb => hh b (.inr (.inr hb))⟩

variable (k s) in
/-- **Splitting at a position.**  A tree is represented when its context and the subtree
at the position are, each knowing the other by one address. -/
theorem holds_plug :
    root = (plug k s).addr? ∧ Holds e h none (plug k s) ↔
      ContextHolds e h root s.addr? k ∧ Holds e h (top k) s := by
  induction k generalizing s with
  | nil => exact Iff.rfl
  | cons f k ih =>
    rw [plug_cons, ih, holds_join, LinkedTree.addr?_join]
    simp only [ContextHolds]
    tauto

variable (k s) in
theorem represents_plug :
    Represents e h root (plug k s) ↔
      ContextHolds e h root s.addr? k ∧ Holds e h (top k) s ∧ (plug k s).addrs.Nodup := by
  rw [← and_assoc, ← holds_plug]
  exact ⟨fun H => ⟨⟨H.root_eq, H.holds⟩, H.nodup⟩, fun H => ⟨H.1.1, H.1.2, H.2⟩⟩

variable [DecidableEq α]

variable (e) in
/-- Point the context at another subtree: one child pointer of the node above the hole. -/
def point (k : List (Frame α δ)) (y : Option α) (h : Heap α δ) : Heap α δ :=
  match k with
  | [] => h
  | f :: _ => h.modify f.addr (.setChild f.side (y.getD (e f.addr)))

/-- The root pointer once the context points at another subtree. -/
def pointRoot (k : List (Frame α δ)) (y root : Option α) : Option α :=
  match k with
  | [] => y
  | _ :: _ => root

variable (e) in
/-- Hang a subtree below another node: one parent pointer. -/
def adopt (t : LinkedTree α δ) (p : Option α) (h : Heap α δ) : Heap α δ :=
  match t with
  | .nil => h
  | .node _ a _ _ => h.modify a (.setParent (p.getD (e a)))

theorem adopt_of_notMem (hb : b ∉ t.addrs) (p : Option α)
    (h : Heap α δ) : adopt e t p h b = h b := by
  cases t with
  | nil => rfl
  | node l a v r =>
    refine h.modify_of_ne ?_ _
    rintro rfl
    exact hb (by simp)

theorem adopt_congr (hh : ∀ b ∈ t.addrs, h' b = h b) (p : Option α)
    (hb : b ∈ t.addrs) : adopt e t p h' b = adopt e t p h b := by
  cases t with
  | nil => simp at hb
  | node l a v r =>
    show h'.modify a _ b = h.modify a _ b
    rw [Heap.modify_apply, Heap.modify_apply, hh b hb]

theorem point_of_notMem (hb : b ∉ around k) (y : Option α)
    (h : Heap α δ) : point e k y h b = h b := by
  cases k with
  | nil => rfl
  | cons f k =>
    refine h.modify_of_ne ?_ _
    rintro rfl
    exact hb (by simp)

theorem point_congr (hh : ∀ b ∈ around k, h' b = h b) (y : Option α)
    (hb : b ∈ around k) : point e k y h' b = point e k y h b := by
  cases k with
  | nil => simp at hb
  | cons f k =>
    show h'.modify f.addr _ b = h.modify f.addr _ b
    rw [Heap.modify_apply, Heap.modify_apply, hh b hb]

theorem ContextHolds.point {x y : Option α}
    (hk : ContextHolds e h root x k) (hnd : (around k).Nodup) :
    ContextHolds e (point e k y h) (pointRoot k y root) y k := by
  cases k with
  | nil => rfl
  | cons f k =>
    obtain ⟨hf, hsib, hk⟩ := hk
    obtain ⟨hfs, hfk, -⟩ := (nodup_around_cons f k).mp hnd
    have hoff : ∀ b, b ≠ f.addr → Library.point e (f :: k) y h b = h b :=
      fun b hb => h.modify_of_ne hb _
    refine ⟨?_, hsib.congr fun b hb => hoff b ?_, hk.congr fun b hb => hoff b ?_⟩
    · simp [Library.point, hf]
    · rintro rfl
      exact hfs hb
    · rintro rfl
      exact hfk hb

/-- A represented subtree moves below another node by a write of its parent pointer. -/
theorem Holds.reparent (ht : Holds e h p t)
    (hnd : t.addrs.Nodup) (hh : ∀ b ∈ t.addrs, h' b = adopt e t q h b) : Holds e h' q t := by
  cases t with
  | nil => trivial
  | node l a v r =>
    obtain ⟨ha, hl, hr⟩ := ht
    have hnd' := (LinkedTree.nodup_join .left l r a v).mp hnd
    simp only [adopt, LinkedTree.addrs_node, mem_append, mem_cons] at hh
    refine ⟨?_, hl.congr fun b hb => ?_, hr.congr fun b hb => ?_⟩
    · rw [hh a (by simp), Heap.modify_self, ha]
      rfl
    · rw [hh b (.inl hb), h.modify_of_ne]
      rintro rfl
      exact hnd'.1 hb
    · rw [hh b (.inr (.inr hb)), h.modify_of_ne]
      rintro rfl
      exact hnd'.2.1 hb

/-- **Replacing a subtree.**  After an operation that only redirected the pointer to the
hole within the context, the tree with the new subtree is represented as soon as the new
subtree is. -/
theorem Represents.replace (H : Represents e h root (plug k s))
    (hctx : ∀ b ∈ around k, h' b = point e k s'.addr? h b)
    (hroot : root' = pointRoot k s'.addr? root) (hs : Holds e h' (top k) s')
    (hnd : (plug k s').addrs.Nodup) : Represents e h' root' (plug k s') := by
  rw [represents_plug] at H ⊢
  obtain ⟨hk, -, hnd0⟩ := H
  have hpoint := hk.point (y := s'.addr?) ((nodup_plug k s).mp hnd0).2.1
  exact ⟨hroot ▸ hpoint.congr hctx, hs, hnd⟩

omit [DecidableEq α] in
theorem Represents.congr (H : Represents e h root t)
    (hh : ∀ b ∈ t.addrs, h' b = h b) : Represents e h' root t :=
  ⟨H.root_eq, H.holds.congr hh, H.nodup⟩

/-- **Attaching a tree.**  Two writes hang a tree of its own in an empty position below a
node of another tree. -/
theorem Represents.attach {f : Frame α δ}
    (H : Represents e h root (plug (f :: k) .nil)) (Ht : Represents e h (some a) t)
    (hdisj : ∀ b ∈ t.addrs, b ∉ (plug (f :: k) .nil).addrs) :
    Represents e ((h.modify f.addr (.setChild f.side a)).modify a (.setParent f.addr)) root
      (plug (f :: k) t) := by
  have hout : ∀ b ∈ t.addrs, b ∉ around (f :: k) := fun b hb => by
    have := hdisj b hb
    rw [mem_addrs_plug] at this
    tauto
  have hroot := Ht.root_eq
  have hf : f.addr ∉ t.addrs := fun hf => hout _ hf (by simp)
  refine H.replace (fun b hb => ?_) rfl (Ht.holds.reparent Ht.nodup fun b hb => ?_) ?_
  · rw [Heap.modify_of_ne]
    · rw [← hroot]
      rfl
    · rintro rfl
      exact hout _ (LinkedTree.addr?_mem hroot.symm) hb
  · cases t with
    | nil => simp at hb
    | node l c v r =>
      obtain rfl : a = c := by simpa using hroot
      rw [Heap.modify_apply, Heap.modify_of_ne _ (ne_of_mem_of_not_mem hb hf)]
      rfl
  · refine (nodup_plug _ _).mpr ⟨Ht.nodup, ?_, hout⟩
    exact ((nodup_plug _ _).mp H.nodup).2.1

omit [DecidableEq α] in
/-- The cell of the node at a position. -/
theorem Represents.cell {d : Side} {x y : LinkedTree α δ}
    (H : Represents e h root (plug k (.join d x a v y))) :
    h a = some (.join d ((top k).getD (e a)) (x.addr?.getD (e a)) (y.addr?.getD (e a)) v) :=
  ((holds_join d).mp ((represents_plug _ _).mp H).2.1).1

end Representation

end Gp2xKernel.Library
