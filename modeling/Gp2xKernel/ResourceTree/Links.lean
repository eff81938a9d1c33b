import Gp2xKernel.Library.LinkedTree
import Gp2xKernel.ResourceTree.Basic

/-!
# Lists of resources in memory

A list of sibling resources is read as a binary tree: the left subtree of a node is the list
of its children, the right subtree the list of the siblings after it.  A position is then a
place where a list starts or goes on, which is exactly what a `struct resource **` points
at: the `child` of the enclosing resource or the `sibling` of the resource before.

## Main definitions

* `Attr`: the range and the flags of a resource.
* `Holds`: memory holds a list of siblings with a given parent.
* `Frame.loc`, `parentAt`: the pointer that leads to a position, and the resource around it.
* `Tree`: memory holds a whole tree.

## Main results

* `holds_plug`: what memory holds splits at every position.
* `Tree.replace`: one pointer and the cells of a list give another tree.
-/

namespace Gp2xKernel.ResourceTree

open Library LinkedTree

/-- The fields of a resource that are not pointers. -/
structure Attr (w : ℕ) where
  start : BitVec w
  stop : BitVec w
  flags : BitVec 32
  deriving DecidableEq

variable {α : Type} {w : ℕ}

/-- The resource with the given pointers. -/
def Attr.cell (v : Attr w) (parent child sibling : Option α) : Resource α w :=
  ⟨v.start, v.stop, v.flags, parent, sibling, child⟩

variable (v : Attr w) (p c s : Option α)

@[simp] theorem Attr.cell_start : (v.cell p c s).start = v.start :=
  rfl

@[simp] theorem Attr.cell_stop : (v.cell p c s).stop = v.stop := rfl

@[simp] theorem Attr.cell_flags : (v.cell p c s).flags = v.flags :=
  rfl

@[simp] theorem Attr.cell_parent : (v.cell p c s).parent = p := rfl

@[simp] theorem Attr.cell_child : (v.cell p c s).child = c := rfl

@[simp] theorem Attr.cell_sibling : (v.cell p c s).sibling = s :=
  rfl

/-- A list of resources: the children of each one to its left, those after it to its right. -/
abbrev Resources (α : Type) (w : ℕ) : Type := LinkedTree α (Attr w)

/-- Memory holds the list, whose resources have the given parent. -/
def Holds (m : Mem α w) : Option α → Resources α w → Prop
  | _, .nil => True
  | parent, .node c a v s =>
    m a = some (v.cell parent c.addr? s.addr?) ∧ Holds m (some a) c ∧ Holds m parent s

variable {m m' : Mem α w} {parent ptr : Option α} {s t : Resources α w}
  {f : Frame α (Attr w)} {k : List (Frame α (Attr w))}

theorem Holds.congr (H : Holds m parent t) (h : ∀ b ∈ t.addrs, m' b = m b) : Holds m' parent t := by
  induction t generalizing parent with
  | nil => trivial
  | node c a v s ihc ihs =>
    obtain ⟨ha, hc, hs⟩ := H
    refine ⟨(h a (by simp)).trans ha, ihc hc fun b hb => h b (by simp [hb]),
      ihs hs fun b hb => h b (by simp [hb])⟩

/-! ## Positions -/

/-- The resource whose children the list at the position belongs to. -/
def parentAt : List (Frame α (Attr w)) → Option α
  | [] => none
  | ⟨.left, a, _, _⟩ :: _ => some a
  | ⟨.right, _, _, _⟩ :: k => parentAt k

/-- The parent of the resources in the other list of the frame. -/
def restParent (f : Frame α (Attr w)) (k : List (Frame α (Attr w))) : Option α :=
  match f.side with
  | .left => parentAt k
  | .right => some f.addr

/-- The resource of a frame, with the pointer that leads to the position. -/
def frameCell (f : Frame α (Attr w)) (k : List (Frame α (Attr w))) (ptr : Option α) :
    Resource α w :=
  match f.side with
  | .left => f.data.cell (parentAt k) ptr f.sibling.addr?
  | .right => f.data.cell (parentAt k) f.sibling.addr? ptr

/-- The pointer that leads to the position behind the frame. -/
def loc (f : Frame α (Attr w)) : Loc α :=
  match f.side with
  | .left => .child f.addr
  | .right => .sibling f.addr

/-- Memory holds everything around a position, and the pointer there is `ptr`. -/
def ContextHolds (m : Mem α w) : Option α → List (Frame α (Attr w)) → Prop
  | _, [] => True
  | ptr, f :: k =>
    m f.addr = some (frameCell f k ptr) ∧ Holds m (restParent f k) f.sibling ∧
      ContextHolds m (some f.addr) k

theorem holds_plug (k : List (Frame α (Attr w))) (s : Resources α w) :
    Holds m none (plug k s) ↔ ContextHolds m s.addr? k ∧ Holds m (parentAt k) s := by
  induction k generalizing s with
  | nil => simp [ContextHolds, parentAt]
  | cons f k ih =>
    rw [plug_cons, ih]
    rcases f with ⟨_ | _, a, v, u⟩
    all_goals
      simp only [join, Holds, ContextHolds]
      tauto

theorem ContextHolds.congr (H : ContextHolds m ptr k) (h : ∀ b ∈ around k, m' b = m b) :
    ContextHolds m' ptr k := by
  induction k generalizing ptr with
  | nil => trivial
  | cons f k ih =>
    obtain ⟨hf, hu, hk⟩ := H
    refine ⟨(h _ (by simp)).trans hf, hu.congr fun b hb => h b (by simp [hb]),
      ih hk fun b hb => h b (by simp [hb])⟩

/-- Positions further down the same list have the same parent. -/
theorem parentAt_append {passed : List (Frame α (Attr w))} (h : ∀ g ∈ passed, g.side = .right) :
    parentAt (passed ++ k) = parentAt k := by
  induction passed with
  | nil => rfl
  | cons g passed ih =>
    rcases g with ⟨_ | _, a, v, u⟩
    · simpa using h _ (List.mem_cons_self ..)
    · exact ih fun g hg => h g (List.mem_cons_of_mem _ hg)

/-! ## Trees -/

/-- Memory holds the tree. -/
structure Tree (m : Mem α w) (t : Resources α w) : Prop where
  holds : Holds m none t
  nodup : t.addrs.Nodup

theorem Tree.congr (H : Tree m t) (h : ∀ b ∈ t.addrs, m' b = m b) : Tree m' t :=
  ⟨H.holds.congr h, H.nodup⟩

variable {c : Resources α w} {a : α} {v : Attr w}

theorem Tree.cell (H : Tree m (plug k (.node c a v s))) :
    m a = some (v.cell (parentAt k) c.addr? s.addr?) :=
  ((holds_plug k _).mp H.holds).2.1

theorem Tree.frame (H : Tree m (plug (f :: k) s)) : m f.addr = some (frameCell f k s.addr?) :=
  ((holds_plug (f :: k) s).mp H.holds).1.1

theorem Tree.list (H : Tree m (plug k s)) :
    Holds m (parentAt k) s := ((holds_plug k s).mp H.holds).2

theorem Tree.nodup_list (H : Tree m (plug k s)) : s.addrs.Nodup := ((nodup_plug k s).mp H.nodup).1

theorem Tree.notMem_around (H : Tree m (plug k s)) {b : α} (hb : b ∈ s.addrs) : b ∉ around k :=
  ((nodup_plug k s).mp H.nodup).2.2 b hb

theorem Tree.ne_frame (H : Tree m (plug (f :: k) s)) {b : α} (hb : b ∈ s.addrs) : b ≠ f.addr := by
  rintro rfl
  exact H.notMem_around hb (by simp)

/-- **Replacing a list.**  A change of the pointer that leads to a position, and memory that
holds another list there, give the tree with that list. -/
theorem Tree.replace {s' : Resources α w} (H : Tree m (plug (f :: k) s))
    (hf : m' f.addr = some (frameCell f k s'.addr?))
    (hout : ∀ b ∈ around (f :: k), b ≠ f.addr → m' b = m b)
    (hs : Holds m' (parentAt (f :: k)) s') (hnd : s'.addrs.Nodup)
    (hdisj : ∀ b ∈ s'.addrs, b ∉ around (f :: k)) : Tree m' (plug (f :: k) s') := by
  obtain ⟨hctx, -⟩ := (holds_plug (f :: k) s).mp H.holds
  obtain ⟨-, hndk, -⟩ := (nodup_plug _ _).mp H.nodup
  obtain ⟨hfu, hfk, -⟩ := (nodup_around_cons f k).mp hndk
  refine ⟨(holds_plug (f :: k) s').mpr ⟨⟨hf, ?_, ?_⟩, hs⟩, (nodup_plug _ _).mpr ⟨hnd, hndk, hdisj⟩⟩
  · exact hctx.2.1.congr fun b hb => hout b (by simp [hb]) (ne_of_mem_of_not_mem hb hfu)
  · exact hctx.2.2.congr fun b hb => hout b (by simp [hb]) (ne_of_mem_of_not_mem hb hfk)

/-- A resource is taken out of a list, with its children. -/
theorem Tree.unlink (H : Tree m (plug (f :: k) (.node c a v s)))
    (hf : m' f.addr = some (frameCell f k s.addr?))
    (hoff : ∀ b, b ≠ a → b ≠ f.addr → m' b = m b) : Tree m' (plug (f :: k) s) := by
  obtain ⟨-, has, -, hnd, -⟩ := (nodup_join .left c s a v).mp H.nodup_list
  have hmem : ∀ b ∈ s.addrs, b ∈ (node c a v s).addrs := fun b hb => by simp [hb]
  refine H.replace hf (fun b hb hbf => hoff b ?_ hbf) (H.list.2.2.congr fun b hb => ?_) hnd
    fun b hb => H.notMem_around (hmem b hb)
  · rintro rfl
    exact H.notMem_around (by simp) hb
  · exact hoff b (ne_of_mem_of_not_mem hb has) (H.ne_frame (hmem b hb))

theorem read_loc (H : Tree m (plug (f :: k) s)) : m.read (loc f) = some s.addr? := by
  have hf := H.frame
  rcases f with ⟨_ | _, a, v, u⟩
  all_goals
    simp only [loc, Mem.read]
    rw [show m a = _ from hf]
    rfl

variable [DecidableEq α]

namespace Mem

@[simp] theorem set_self (m : Mem α w) (a : α) (r : Option (Resource α w)) : m.set a r a = r :=
  if_pos rfl

variable {a : α}

theorem set_of_ne (m : Mem α w) {b : α} (r : Option (Resource α w)) (h : b ≠ a) :
    m.set a r b = m b :=
  if_neg h

theorem set_eq_self (m : Mem α w) (a : α) : m.set a (m a) = m := by
  funext b
  by_cases hb : b = a
  · subst hb
    exact set_self ..
  · exact set_of_ne _ _ hb

@[simp] theorem set_set (m : Mem α w) (a : α) (x y : Option (Resource α w)) :
    (m.set a x).set a y = m.set a y := by
  funext b
  by_cases hb : b = a
  · subst hb
    rw [set_self, set_self]
  · rw [set_of_ne _ _ hb, set_of_ne _ _ hb, set_of_ne _ _ hb]

theorem assign_spec {r : Resource α w} (f : Resource α w → Resource α w)
    (ha : m a = some r) : m.assign a f = some (m.set a (some (f r))) := by
  simp [assign, ha]

end Mem

theorem Holds.set (H : Holds m parent t) (ha : a ∉ t.addrs) (r : Option (Resource α w)) :
    Holds (m.set a r) parent t :=
  H.congr fun _ hb => Mem.set_of_ne _ _ (ne_of_mem_of_not_mem hb ha)

theorem Tree.set (H : Tree m t) (ha : a ∉ t.addrs) (r : Option (Resource α w)) :
    Tree (m.set a r) t :=
  ⟨H.holds.set ha r, H.nodup⟩

/-- A resource of the tree changes its attributes in place. -/
theorem Tree.setAttr (v' : Attr w) (H : Tree m (plug k (.node c a v s))) :
    Tree (m.set a (some (v'.cell (parentAt k) c.addr? s.addr?))) (plug k (.node c a v' s)) := by
  obtain ⟨hctx, -, hc, hs⟩ := (holds_plug _ _).mp H.holds
  obtain ⟨hnd, hndk, hout⟩ := (nodup_plug _ _).mp H.nodup
  obtain ⟨hac, has, -⟩ := (nodup_join .left c s a v).mp hnd
  have hak : a ∉ around k := hout a (by simp)
  refine ⟨(holds_plug _ _).mpr ⟨?_, Mem.set_self .., ?_, ?_⟩, (nodup_plug _ _).mpr ⟨hnd, hndk,
    hout⟩⟩
  · exact hctx.congr fun b hb => Mem.set_of_ne _ _ (ne_of_mem_of_not_mem hb hak)
  · exact hc.set hac _
  · exact hs.set has _

/-- Writing the pointer that leads to a position. -/
theorem write_loc (x : Option α) (h : m f.addr = some (frameCell f k ptr)) :
    m.write (loc f) x = some (m.set f.addr (some (frameCell f k x))) := by
  rcases f with ⟨_ | _, a, v, u⟩
  · exact Mem.assign_spec _ h
  · exact Mem.assign_spec _ h

end Gp2xKernel.ResourceTree
