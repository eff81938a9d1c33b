import Gp2xKernel.Library.LinkedTree

/-!
# Binary trees linked downwards

A node of such a tree has pointers to its two children, but none to its parent.  Code that changes
the tree on the way back to the root keeps the addresses of the pointers it has followed: the root
pointer, or a child pointer of a node.  A position of the tree, given by the frames around it, is
the same as the list of these links.

## Main definitions

* `DownCell`, `DownMem`, `Link`: cells, a heap with a root pointer, and the addresses of pointers
* `Stores`: a heap holds a tree, each address once
* `link`, `links`: the link at a position, and the links from the root to it

## Main results

* `stores_plug`: the representation splits at every position
* `Stores.replace`: replacing the subtree at a position
-/

namespace Gp2xKernel.Library

open List LinkedTree

variable {α δ : Type*}

/-- A cell with two pointers and the data of the node. -/
@[ext] structure DownCell (α δ : Type*) where
  left : α
  right : α
  data : δ

namespace DownCell

/-- The pointer to the child on side `d`. -/
def child (d : Side) (c : DownCell α δ) : α :=
  match d with
  | .left => c.left
  | .right => c.right

/-- Overwrite the pointer to the child on side `d`. -/
def setChild (d : Side) (x : α) (c : DownCell α δ) : DownCell α δ :=
  match d with
  | .left => { c with left := x }
  | .right => { c with right := x }

/-- The cell with `near` on side `d` and `far` on the other side. -/
def join (d : Side) (near far : α) (v : δ) : DownCell α δ :=
  match d with
  | .left => ⟨near, far, v⟩
  | .right => ⟨far, near, v⟩

variable (d : Side)

@[simp] theorem child_join (x y : α) (v : δ) : (join d x y v).child d = x := by
  cases d <;> rfl

@[simp] theorem child_flip_join (x y : α) (v : δ) : (join d x y v).child d.flip = y := by
  cases d <;> rfl

@[simp] theorem data_join (x y : α) (v : δ) : (join d x y v).data = v := by
  cases d <;> rfl

@[simp] theorem setChild_join (x y z : α) (v : δ) : (join d x y v).setChild d z = join d z y v := by
  cases d <;> rfl

end DownCell

/-- A heap of cells, and the pointer to the root. -/
structure DownMem (α δ : Type*) where
  heap : α → DownCell α δ
  root : α

/-- The address of a pointer: of the root pointer, or of a pointer to a child. -/
inductive Link (α : Type*)
  | root
  | child (d : Side) (a : α)
  deriving DecidableEq

namespace DownMem

variable [DecidableEq α]

/-- The cell at one address is replaced. -/
def set (m : DownMem α δ) (a : α) (c : DownCell α δ) : DownMem α δ :=
  { m with heap := Function.update m.heap a c }

/-- The pointer at a link. -/
def read (m : DownMem α δ) : Link α → α
  | .root => m.root
  | .child d a => (m.heap a).child d

/-- The pointer at a link is replaced. -/
def write (m : DownMem α δ) (l : Link α) (x : α) : DownMem α δ :=
  match l with
  | .root => { m with root := x }
  | .child d a => m.set a ((m.heap a).setChild d x)

theorem set_heap_self (m : DownMem α δ) (a : α) (c : DownCell α δ) : (m.set a c).heap a = c :=
  Function.update_self _ _ _

theorem set_heap_of_ne (m : DownMem α δ) {a b : α} (h : b ≠ a) (c : DownCell α δ) :
    (m.set a c).heap b = m.heap b := Function.update_of_ne h _ _

end DownMem

/-- The link at a position. -/
def link : List (Frame α δ) → Link α
  | [] => .root
  | f :: _ => .child f.side f.addr

/-- The links from a position up to the root. -/
def links : List (Frame α δ) → List (Link α)
  | [] => [.root]
  | f :: k => .child f.side f.addr :: links k

theorem links_eq_cons (k : List (Frame α δ)) : links k = link k :: (links k).tail := by
  cases k <;> rfl

theorem tail_links_cons (f : Frame α δ) (k : List (Frame α δ)) : (links (f :: k)).tail = links k :=
  rfl

theorem length_links (k : List (Frame α δ)) : (links k).length = k.length + 1 := by
  induction k with
  | nil => rfl
  | cons f k ih => rw [links, length_cons, ih, length_cons]

theorem links_append (k k' : List (Frame α δ)) :
    links (k ++ k') = (k.map fun f => .child f.side f.addr) ++ links k' := by
  induction k with
  | nil => rfl
  | cons f k ih => rw [cons_append, links, ih, map_cons, cons_append]

/-! ## Representation -/

section Representation

variable (null : α)

/-- The pointer to a tree. -/
def ptr (t : LinkedTree α δ) : α := t.addr?.getD null

/-- The heap holds the tree. -/
def Below (heap : α → DownCell α δ) : LinkedTree α δ → Prop
  | .nil => True
  | .node l a v r =>
    (a ≠ null ∧ heap a = ⟨ptr null l, ptr null r, v⟩) ∧ Below heap l ∧ Below heap r

/-- The heap holds the nodes around a position, with the pointer `x` at it. -/
def Around (m : DownMem α δ) : α → List (Frame α δ) → Prop
  | x, [] => m.root = x
  | x, f :: k =>
    (f.addr ≠ null ∧ m.heap f.addr = .join f.side x (ptr null f.sibling) f.data) ∧
      Below null m.heap f.sibling ∧ Around m f.addr k

/-- The heap and the root pointer hold exactly the tree, whose addresses are distinct. -/
structure Stores (m : DownMem α δ) (t : LinkedTree α δ) : Prop where
  root_eq : m.root = ptr null t
  below : Below null m.heap t
  nodup : t.addrs.Nodup

variable {null} {m m' : DownMem α δ} {heap heap' : α → DownCell α δ}

@[simp] theorem ptr_join (d : Side) (x y : LinkedTree α δ) (a : α) (v : δ) :
    ptr null (.join d x a v y) = a := by
  cases d <;> rfl

variable {a x b : α} {v : δ} {t s u l r : LinkedTree α δ} {k : List (Frame α δ)}

theorem below_join (d : Side) {x y : LinkedTree α δ} :
    Below null heap (.join d x a v y) ↔
      (a ≠ null ∧ heap a = .join d (ptr null x) (ptr null y) v) ∧
        Below null heap x ∧ Below null heap y := by
  cases d with
  | left => exact Iff.rfl
  | right =>
    show _ ∧ Below null heap y ∧ Below null heap x ↔ _
    rw [and_comm (a := Below null heap y)]
    exact Iff.rfl

/-- Only the cells of the tree matter for its representation. -/
theorem Below.congr (ht : Below null heap t)
    (hh : ∀ b ∈ t.addrs, heap' b = heap b) : Below null heap' t := by
  induction t with
  | nil => trivial
  | node l a v r ihl ihr =>
    obtain ⟨⟨hne, ha⟩, hl, hr⟩ := ht
    refine ⟨⟨hne, (hh a (by simp)).trans ha⟩, ihl hl ?_, ihr hr ?_⟩
    · exact fun b hb => hh b (mem_append_left _ hb)
    · exact fun b hb => hh b (mem_append_right _ (mem_cons_of_mem _ hb))

theorem Below.ne_null (ht : Below null heap t) (ha : a ∈ t.addrs) : a ≠ null := by
  induction t with
  | nil => exact absurd ha not_mem_nil
  | node l b v r ihl ihr =>
    rw [addrs_node, mem_append, mem_cons] at ha
    rcases ha with ha | rfl | ha
    · exact ihl ht.2.1 ha
    · exact ht.1.1
    · exact ihr ht.2.2 ha

theorem Around.congr (hk : Around null m x k) (hroot : m'.root = m.root)
    (hh : ∀ b ∈ around k, m'.heap b = m.heap b) :
    Around null m' x k := by
  induction k generalizing x with
  | nil => exact hroot.trans hk
  | cons f k ih =>
    obtain ⟨⟨hne, hf⟩, hsib, hk⟩ := hk
    simp only [mem_around_cons] at hh
    exact ⟨⟨hne, (hh _ (Or.inl rfl)).trans hf⟩, hsib.congr fun b hb => hh b (Or.inr (Or.inl hb)),
      ih hk fun b hb => hh b (Or.inr (Or.inr hb))⟩

/-- **Splitting at a position.** -/
theorem stores_plug (k : List (Frame α δ)) (s : LinkedTree α δ) :
    Stores null m (plug k s) ↔
      Around null m (ptr null s) k ∧ Below null m.heap s ∧ (plug k s).addrs.Nodup := by
  have hsplit : m.root = ptr null (plug k s) ∧ Below null m.heap (plug k s) ↔
      Around null m (ptr null s) k ∧ Below null m.heap s := by
    induction k generalizing s with
    | nil => exact Iff.rfl
    | cons f k ih =>
      rw [plug_cons, ih, below_join, ptr_join]
      simp only [Around]
      tauto
  rw [← and_assoc, ← hsplit]
  exact ⟨fun H => ⟨⟨H.root_eq, H.below⟩, H.nodup⟩, fun H => ⟨H.1.1, H.1.2, H.2⟩⟩

variable [DecidableEq α]

omit [DecidableEq α] in
theorem Around.read_link (hk : Around null m x k) : m.read (link k) = x := by
  cases k with
  | nil => exact hk
  | cons f k =>
    obtain ⟨⟨-, hf⟩, -⟩ := hk
    rw [link, DownMem.read, hf, DownCell.child_join]

theorem write_heap_of_not_mem (hb : b ∉ around k) (x : α) :
    (m.write (link k) x).heap b = m.heap b := by
  cases k with
  | nil => rfl
  | cons f k =>
    refine m.set_heap_of_ne ?_ _
    rintro rfl
    exact hb (by simp)

theorem Around.write_link {y : α} (hk : Around null m x k)
    (hnd : (around k).Nodup) : Around null (m.write (link k) y) y k := by
  cases k with
  | nil => rfl
  | cons f k =>
    obtain ⟨⟨hne, hf⟩, hsib, hk⟩ := hk
    obtain ⟨hfs, hfk, -⟩ := (nodup_around_cons f k).mp hnd
    have hoff : ∀ b, b ≠ f.addr → (m.write (link (f :: k)) y).heap b = m.heap b :=
      fun b hb => m.set_heap_of_ne hb _
    refine ⟨⟨hne, ?_⟩, hsib.congr fun b hb => hoff b ?_, hk.congr rfl fun b hb => hoff b ?_⟩
    · rw [link, DownMem.write, DownMem.set_heap_self, hf, DownCell.setChild_join]
    · exact fun h => hfs (h ▸ hb)
    · exact fun h => hfk (h ▸ hb)

/-- **Replacing a subtree.**  After an operation that only redirected the link at a position, and
changed nothing else around it, the heap holds the tree with the new subtree as soon as it holds the
new subtree. -/
theorem Stores.replace (H : Stores null m (plug k s))
    (hroot : m'.root = (m.write (link k) (ptr null u)).root)
    (hctx : ∀ b ∈ around k, m'.heap b = (m.write (link k) (ptr null u)).heap b)
    (hs : Below null m'.heap u) (hnd : (plug k u).addrs.Nodup) :
    Stores null m' (plug k u) := by
  obtain ⟨hk, -, hnd0⟩ := (stores_plug k s).mp H
  have hpoint := hk.write_link (y := ptr null u) ((nodup_plug k s).mp hnd0).2.1
  exact (stores_plug k u).mpr ⟨hpoint.congr hroot hctx, hs, hnd⟩

theorem Below.set (ht : Below null m.heap t) (ha : a ∉ t.addrs)
    (c : DownCell α δ) : Below null (m.set a c).heap t :=
  ht.congr fun _ hb => m.set_heap_of_ne (ne_of_mem_of_not_mem hb ha) c

/-- A new subtree is built apart from the nodes around the position, and then linked. -/
theorem Stores.replace_write (H : Stores null m (plug k s)) (hroot : m'.root = m.root)
    (hctx : ∀ b ∈ around k, m'.heap b = m.heap b) (hs : Below null m'.heap u)
    (hnd : (plug k u).addrs.Nodup) :
    Stores null (m'.write (link k) (ptr null u)) (plug k u) := by
  have hout := ((nodup_plug k u).mp hnd).2.2
  refine H.replace ?_ ?_ (hs.congr fun b hb => write_heap_of_not_mem (hout b hb) _) hnd
  · cases k with
    | nil => rfl
    | cons f k => exact hroot
  · intro b hb
    cases k with
    | nil => exact hctx b hb
    | cons f k =>
      rw [link, DownMem.write, DownMem.write, hctx f.addr (by simp)]
      by_cases h : b = f.addr
      · rw [h, DownMem.set_heap_self, DownMem.set_heap_self]
      · rw [DownMem.set_heap_of_ne _ h, DownMem.set_heap_of_ne _ h]
        exact hctx b hb

theorem Stores.setData (H : Stores null m (plug k (.node l a v r))) (v' : δ) :
    Stores null (m.set a ⟨ptr null l, ptr null r, v'⟩) (plug k (.node l a v' r)) := by
  obtain ⟨hk, ⟨⟨hne, -⟩, hl, hr⟩, hnd⟩ := (stores_plug _ _).mp H
  obtain ⟨hnds, -, hout⟩ := (nodup_plug _ _).mp hnd
  obtain ⟨hal, har, -⟩ := (nodup_join .left l r a v).mp hnds
  have ha : a ∉ around k := hout a (by simp)
  refine (stores_plug _ _).mpr ⟨hk.congr rfl fun b hb => ?_,
    ⟨⟨hne, ?_⟩, hl.set hal _, hr.set har _⟩,
    ?_⟩
  · exact m.set_heap_of_ne (ne_of_mem_of_not_mem hb ha) _
  · exact m.set_heap_self _ _
  · rwa [addrs_plug] at hnd ⊢

/-- A new node takes the place of another, with the same subtrees. -/
theorem Stores.exchange (H : Stores null m (plug k (.node l a v r))) (hb0 : b ≠ null)
    (hb : b ∉ (plug k (.node l a v r)).addrs) (v' : δ) :
    Stores null ((m.write (link k) b).set b ⟨ptr null l, ptr null r, v'⟩)
      (plug k (.node l b v' r)) := by
  obtain ⟨-, ⟨-, hl, hr⟩, hnd⟩ := (stores_plug _ _).mp H
  obtain ⟨hnds, hndk, hout⟩ := (nodup_plug _ _).mp hnd
  obtain ⟨-, -, hndl, hndr, hdisj⟩ := (nodup_join .left l r a v).mp hnds
  have hbk : b ∉ around k := fun h => hb ((mem_addrs_plug _ _ _).mpr (Or.inr h))
  have hbs : b ∉ (LinkedTree.node l a v r).addrs :=
    fun h => hb ((mem_addrs_plug _ _ _).mpr (Or.inl h))
  simp only [addrs_node, mem_append, mem_cons, not_or] at hbs hout
  have hkeep : ∀ x, x ≠ b → x ∉ around k →
      ((m.write (link k) b).set b ⟨ptr null l, ptr null r, v'⟩).heap x = m.heap x := by
    intro x hxb hx
    rw [DownMem.set_heap_of_ne _ hxb, write_heap_of_not_mem hx]
  refine H.replace rfl ?_ ?_ ?_
  · exact fun x hx => DownMem.set_heap_of_ne _ (ne_of_mem_of_not_mem hx hbk) _
  · refine ⟨⟨hb0, DownMem.set_heap_self _ _ _⟩, hl.congr fun x hx => ?_, hr.congr fun x hx => ?_⟩
    · exact hkeep x (ne_of_mem_of_not_mem hx hbs.1) (hout x (Or.inl hx))
    · exact hkeep x (ne_of_mem_of_not_mem hx hbs.2.2) (hout x (Or.inr (Or.inr hx)))
  · refine (nodup_plug _ _).mpr ⟨?_, hndk, fun x hx => ?_⟩
    · exact (nodup_join .left l r b v').mpr ⟨hbs.1, hbs.2.2, hndl, hndr, hdisj⟩
    · rw [addrs_node, mem_append, mem_cons] at hx
      rcases hx with hx | rfl | hx
      · exact hout x (Or.inl hx)
      · exact hbk
      · exact hout x (Or.inr (Or.inr hx))

end Representation

end Gp2xKernel.Library
