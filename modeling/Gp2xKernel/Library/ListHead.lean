import Mathlib.Data.List.Nodup

/-!
# Circular doubly linked lists

Nodes with links to the next and the previous node, in a ring that a head closes.  A node is
inserted between two neighbours, and taken out from between them.

## Main definitions

* `ListHead`, `Links`: the links of the nodes
* `Links.listAdd`, `Links.listDel`: insertion and removal
* `Circular`: the nodes behind a head, in a ring

## Main results

* `Circular.next_eq`, `Circular.prev_eq`: the neighbours of a place in the ring
* `Circular.listAdd`, `Circular.listDel`: the ring after an insertion and a removal
-/

namespace Gp2xKernel.Library

open List Function

variable {α : Type*}

/-- The links of a node. -/
structure ListHead (α : Type*) where
  next : α
  prev : α

/-- The links of all nodes. -/
abbrev Links (α : Type*) := α → ListHead α

namespace Links

variable [DecidableEq α]

/-- Assignment to `next`. -/
def setNext (l : Links α) (a b : α) : Links α := Function.update l a { l a with next := b }

/-- Assignment to `prev`. -/
def setPrev (l : Links α) (a b : α) : Links α := Function.update l a { l a with prev := b }

/-- `__list_add`. -/
def listAdd (l : Links α) (new prev next : α) : Links α :=
  (((l.setPrev next new).setNext new next).setPrev new prev).setNext prev new

/-- `list_del`, which leaves `poison` in the node. -/
def listDel (l : Links α) (poison : ListHead α) (entry : α) : Links α :=
  Function.update ((l.setPrev (l entry).next (l entry).prev).setNext (l entry).prev (l entry).next)
    entry poison

variable {entry x : α} (l : Links α)

theorem next_setNext (a b x : α) : (l.setNext a b x).next = if x = a then b else (l x).next := by
  rw [setNext, update_apply]
  split_ifs <;> rfl

theorem prev_setNext (a b x : α) : (l.setNext a b x).prev = (l x).prev := by
  rw [setNext, update_apply]
  split_ifs with h
  · rw [h]
  · rfl

theorem next_setPrev (a b x : α) : (l.setPrev a b x).next = (l x).next := by
  rw [setPrev, update_apply]
  split_ifs with h
  · rw [h]
  · rfl

theorem prev_setPrev (a b x : α) : (l.setPrev a b x).prev = if x = a then b else (l x).prev := by
  rw [setPrev, update_apply]
  split_ifs <;> rfl

theorem next_listAdd (new prev next x : α) :
    (l.listAdd new prev next x).next =
      if x = prev then new else if x = new then next else (l x).next := by
  rw [listAdd, next_setNext, next_setPrev, next_setNext, next_setPrev]

theorem prev_listAdd (new prev next x : α) :
    (l.listAdd new prev next x).prev =
      if x = new then prev else if x = next then new else (l x).prev := by
  rw [listAdd, prev_setNext, prev_setPrev, prev_setNext, prev_setPrev]

theorem next_listDel (poison : ListHead α) (h : x ≠ entry) :
    (l.listDel poison entry x).next =
      if x = (l entry).prev then (l entry).next else (l x).next := by
  rw [listDel, update_of_ne h, next_setNext, next_setPrev]

theorem prev_listDel (poison : ListHead α) (h : x ≠ entry) :
    (l.listDel poison entry x).prev =
      if x = (l entry).next then (l entry).prev else (l x).prev := by
  rw [listDel, update_of_ne h, prev_setNext, prev_setPrev]

end Links

/-! ## Segments -/

theorem getLastD_mem (xs ys : List α) (a : α) : xs.getLastD a ∈ a :: (xs ++ ys) :=
  mem_append_left ys getLastD_mem_cons

theorem headD_mem (xs ys : List α) (b : α) : ys.headD b ∈ xs ++ ys ++ [b] := by
  cases ys <;> simp

/-- The nodes `xs` are linked between `a` and `b`. -/
def Seg (l : Links α) : α → List α → α → Prop
  | a, [], b => (l a).next = b ∧ (l b).prev = a
  | a, x :: xs, b => ((l a).next = x ∧ (l x).prev = a) ∧ Seg l x xs b

variable {l : Links α} {a b : α} {xs : List α}

theorem Seg.congr {l' : Links α} (h : Seg l a xs b)
    (hnext : ∀ x ∈ a :: xs, (l' x).next = (l x).next)
    (hprev : ∀ x ∈ xs ++ [b], (l' x).prev = (l x).prev) : Seg l' a xs b := by
  induction xs generalizing a with
  | nil => exact ⟨(hnext a (by simp)).trans h.1, (hprev b (by simp)).trans h.2⟩
  | cons x xs ih =>
    obtain ⟨⟨hn, hp⟩, h⟩ := h
    refine ⟨⟨(hnext a (by simp)).trans hn, (hprev x (by simp)).trans hp⟩, ih h ?_ ?_⟩
    · exact fun y hy => hnext y (mem_cons_of_mem _ hy)
    · exact fun y hy => hprev y (mem_cons_of_mem _ hy)

theorem Seg.neighbours {ys : List α} (h : Seg l a (xs ++ ys) b) :
    (l (xs.getLastD a)).next = ys.headD b ∧ (l (ys.headD b)).prev = xs.getLastD a := by
  induction xs generalizing a with
  | nil =>
    cases ys with
    | nil => exact h
    | cons y ys => exact h.1
  | cons x xs ih =>
    rw [getLastD_cons]
    exact ih h.2

theorem seg_append {y : α} {ys : List α} :
    Seg l a (xs ++ y :: ys) b ↔ Seg l a xs y ∧ Seg l y ys b := by
  induction xs generalizing a with
  | nil => exact Iff.rfl
  | cons x xs ih => exact (and_congr_right' ih).trans and_assoc.symm

/-- Other nodes are put between two neighbours. -/
theorem Seg.splice {l' : Links α} {ys : List α} (zs ws : List α) (h : Seg l a (xs ++ (zs ++ ys)) b)
    (hmid : Seg l' (xs.getLastD a) ws (ys.headD b))
    (hnd : (a :: (xs ++ ys)).Nodup) (hnd' : (xs ++ ys ++ [b]).Nodup)
    (hnext : ∀ x ∈ a :: (xs ++ ys), x ≠ xs.getLastD a → (l' x).next = (l x).next)
    (hprev : ∀ x ∈ xs ++ ys ++ [b], x ≠ ys.headD b → (l' x).prev = (l x).prev) :
    Seg l' a (xs ++ (ws ++ ys)) b := by
  induction xs generalizing a with
  | nil =>
    cases ys with
    | nil => simpa using hmid
    | cons y ys =>
      -- behind the place only the link of the neighbour back to it is new
      have ha : a ∉ y :: ys := (nodup_cons.mp hnd).1
      have hy : y ∉ ys ++ [b] := (nodup_cons.mp hnd').1
      refine seg_append.mpr ⟨hmid, (seg_append.mp h).2.congr (fun x hx => ?_) fun x hx => ?_⟩
      · exact hnext x (mem_cons_of_mem _ hx) (ne_of_mem_of_not_mem hx ha)
      · exact hprev x (mem_cons_of_mem _ hx) (ne_of_mem_of_not_mem hx hy)
  | cons x xs ih =>
    rw [getLastD_cons] at hmid hnext
    obtain ⟨ha, hnd⟩ := nodup_cons.mp hnd
    obtain ⟨hx, hnd'⟩ := nodup_cons.mp hnd'
    have hlast : a ≠ xs.getLastD x := (ne_of_mem_of_not_mem (getLastD_mem xs ys x) ha).symm
    have hfirst : x ≠ ys.headD b := (ne_of_mem_of_not_mem (headD_mem xs ys b) hx).symm
    obtain ⟨⟨hn, hp⟩, h⟩ := h
    refine ⟨⟨(hnext a mem_cons_self hlast).trans hn, (hprev x mem_cons_self hfirst).trans hp⟩, ?_⟩
    refine ih h hmid hnd hnd' (fun z hz => ?_) fun z hz => ?_
    · exact hnext z (mem_cons_of_mem _ hz)
    · exact hprev z (mem_cons_of_mem _ hz)

section

variable [DecidableEq α] {l : Links α} {a b : α} {xs ys : List α}

/-- A node is inserted between neighbours. -/
theorem Seg.listAdd {new : α} (h : Seg l a (xs ++ ys) b) (hnext : (a :: (xs ++ ys)).Nodup)
    (hprev : (xs ++ ys ++ [b]).Nodup) (hnew : new ∉ a :: (xs ++ ys ++ [b])) :
    Seg (l.listAdd new (xs.getLastD a) (ys.headD b)) a (xs ++ new :: ys) b := by
  have hlast : xs.getLastD a ≠ new :=
    ne_of_mem_of_not_mem (mem_append_left [b] (getLastD_mem xs ys a)) hnew
  have hfirst : ys.headD b ≠ new :=
    ne_of_mem_of_not_mem (mem_cons_of_mem a (headD_mem xs ys b)) hnew
  refine Seg.splice [] [new] h ⟨⟨?_, ?_⟩, ?_, ?_⟩ hnext hprev
    (fun x hx hne => ?_) fun x hx hne => ?_
  · rw [Links.next_listAdd, if_pos rfl]
  · rw [Links.prev_listAdd, if_pos rfl]
  · rw [Links.next_listAdd, if_neg hlast.symm, if_pos rfl]
  · rw [Links.prev_listAdd, if_neg hfirst, if_pos rfl]
  · have hxn : x ≠ new := ne_of_mem_of_not_mem (mem_append_left [b] hx) hnew
    rw [Links.next_listAdd, if_neg hne, if_neg hxn]
  · have hxn : x ≠ new := ne_of_mem_of_not_mem (mem_cons_of_mem a hx) hnew
    rw [Links.prev_listAdd, if_neg hxn, if_neg hne]

/-- A node is taken out. -/
theorem Seg.listDel {e : α} (poison : ListHead α) (h : Seg l a (xs ++ e :: ys) b)
    (hnext : (a :: (xs ++ e :: ys)).Nodup) (hprev : (xs ++ e :: ys ++ [b]).Nodup) :
    Seg (l.listDel poison e) a (xs ++ ys) b := by
  obtain ⟨-, hpe⟩ := h.neighbours
  have hne := ((append_cons xs e ys ▸ h : Seg l a (xs ++ [e] ++ ys) b).neighbours).1
  rw [headD_cons] at hpe
  rw [getLastD_concat] at hne
  obtain ⟨he, hnd⟩ := nodup_cons.mp (nodup_middle.mp (show (a :: xs ++ e :: ys).Nodup from hnext))
  rw [append_assoc, cons_append] at hprev
  obtain ⟨he', hnd'⟩ := nodup_cons.mp (nodup_middle.mp hprev)
  rw [← append_assoc] at he' hnd'
  refine Seg.splice [e] [] h ⟨?_, ?_⟩ hnd hnd' (fun x hx hx' => ?_) fun x hx hx' => ?_
  · rw [Links.next_listDel _ _ (ne_of_mem_of_not_mem (getLastD_mem xs ys a) he), hpe,
      if_pos rfl, hne]
  · rw [Links.prev_listDel _ _ (ne_of_mem_of_not_mem (headD_mem xs ys b) he'), hne, if_pos rfl, hpe]
  · rw [Links.next_listDel _ _ (ne_of_mem_of_not_mem hx he), hpe, if_neg hx']
  · rw [Links.prev_listDel _ _ (ne_of_mem_of_not_mem hx he'), hne, if_neg hx']

end

/-! ## Rings -/

/-- The nodes `xs` stand in this order behind the head. -/
structure Circular (l : Links α) (head : α) (xs : List α) : Prop where
  seg : Seg l head xs head
  nodup : (head :: xs).Nodup

namespace Circular

variable {l : Links α} {head : α} {xs ys : List α}

theorem next_eq (h : Circular l head (xs ++ ys)) : (l (xs.getLastD head)).next = ys.headD head :=
  h.seg.neighbours.1

theorem prev_eq (h : Circular l head (xs ++ ys)) : (l (ys.headD head)).prev = xs.getLastD head :=
  h.seg.neighbours.2

theorem next_head (h : Circular l head ys) : (l head).next = ys.headD head :=
  next_eq (show Circular l head ([] ++ ys) from h)

variable {x : α}

theorem next_mid (h : Circular l head (xs ++ x :: ys)) : (l x).next = ys.headD head := by
  rw [append_cons] at h
  have hnext := h.next_eq
  rwa [getLastD_concat] at hnext

/-- A node of a ring with another node does not come before itself. -/
theorem ne_prev (h : Circular l head (xs ++ x :: ys)) : x ≠ (l x).prev := by
  have hprev := h.prev_eq
  rw [headD_cons] at hprev
  rw [hprev]
  rintro hx
  have hmem : xs.getLastD head ∈ head :: xs := getLastD_mem_cons
  rw [← hx] at hmem
  have hnd := h.nodup
  exact (nodup_append.mp hnd).2.2 x hmem x mem_cons_self rfl

theorem nodup_snoc (h : Circular l head xs) : (xs ++ [head]).Nodup :=
  (perm_append_singleton head xs).nodup_iff.mpr h.nodup

variable [DecidableEq α]

/-- **Insertion** between neighbours. -/
theorem listAdd {new : α} (h : Circular l head (xs ++ ys)) (hnew : new ∉ head :: (xs ++ ys)) :
    Circular (l.listAdd new (xs.getLastD head) (ys.headD head)) head (xs ++ new :: ys) := by
  refine ⟨h.seg.listAdd h.nodup h.nodup_snoc ?_, ?_⟩
  · rw [mem_cons, not_or] at hnew ⊢
    rw [mem_append, mem_singleton, not_or]
    exact ⟨hnew.1, hnew.2, hnew.1⟩
  · have hperm : (head :: (xs ++ new :: ys)).Perm (new :: head :: (xs ++ ys)) :=
      (perm_middle.cons head).trans (List.Perm.swap new head _)
    exact hperm.nodup_iff.mpr (nodup_cons.mpr ⟨hnew, h.nodup⟩)

/-- **Removal.** -/
theorem listDel {e : α} (poison : ListHead α) (h : Circular l head (xs ++ e :: ys)) :
    Circular (l.listDel poison e) head (xs ++ ys) := by
  refine ⟨h.seg.listDel poison h.nodup h.nodup_snoc, ?_⟩
  exact h.nodup.sublist (((sublist_cons_self e ys).append_left xs).cons_cons head)

end Circular

end Gp2xKernel.Library
