import Gp2xKernel.RbTree.Erase

/-!
# Walks over a red-black tree

`rb_first` and `rb_next` find their way with the pointers alone: down to the left, or up to the
first ancestor whose left subtree the walk comes from.

## Main results

* `climb_spec`: the way up ends at the first node behind the subtree
* `rbNext_inOrder`: the walk visits the nodes in symmetric order
-/

namespace Gp2xKernel.RbTree

open Library Mem

variable {w : ℕ}

def rbFirst (turns : ℕ) (m : Mem w) : Option (Ptr w) :=
  if m.rbNode = null then some null else leftmost turns m m.rbNode

/-- The loop of `rb_next`, for at most the given number of turns. -/
def climb : ℕ → Mem w → Ptr w → Option (Ptr w)
  | 0, _, _ => none
  | turns + 1, m, node => do
    let parent ← m.rbParent node
    if parent = null then return parent
    if node = (← m.child .right parent) then climb turns m parent else return parent

def rbNext (turns : ℕ) (m : Mem w) (node : Ptr w) : Option (Ptr w) := do
  if (← m.rbParent node) = node then return null
  let right ← m.child .right node
  if right ≠ null then leftmost turns m right else climb turns m node

open LinkedTree Mem.Holds

variable {m : Mem w} {k : List (Frame (Ptr w) Color)} {t l r : LinkedTree (Ptr w) Color} {a : Ptr w}
  {c : Color} {n : ℕ}

theorem leftmost_eq (H : m.Holds (plug k (.node l a c r))) (hn : l.addrs.length < n) :
    leftmost n m a = some ((l.node a c r).addrs.headD null) := by
  obtain ⟨kk, y, cy, yr, hrun, heq, hleft⟩ := leftmost_spec n H hn
  rw [hrun, heq, addrs_plug, before_eq_nil hleft]
  rfl

/-- A node and the root of a subtree apart from it are not the same. -/
theorem ne_root {d : Side} {s : LinkedTree (Ptr w) Color} {p : Ptr w} {v : Color}
    (H : m.Holds (plug k (.join d (.node l a c r) p v s))) : a ≠ s.addr?.getD null := by
  cases s with
  | nil => exact H.ne_null (by simp [mem_addrs_plug])
  | node x b u y =>
    have hdisj := ((nodup_join ..).mp ((nodup_plug _ _).mp H.nodup).1).2.2.2.2
    rintro rfl
    exact hdisj a (by simp) (by simp)

/-- **The way up** ends at the first node behind the subtree. -/
theorem climb_spec (H : m.Holds (plug k (.node l a c r))) (hn : k.length < n) :
    climb n m a = some ((after k).headD null) := by
  induction k generalizing n l a c r with
  | nil =>
    obtain ⟨j, rfl⟩ := Nat.exists_eq_add_of_lt hn
    simp [climb, rbParent_eq, cell (d := .left) H, Cell.join, after]
  | cons f k ih =>
    obtain ⟨j, rfl⟩ := Nat.exists_eq_add_of_lt hn
    obtain ⟨d, p, v, s⟩ := f
    have ha := cell (d := .left) H
    have hp := cell (k := k) (d := d) H
    have hp0 : p ≠ null := H.ne_null (by simp [addrs_plug])
    cases d with
    | left =>
      have hne := ne_root (k := k) (d := .left) H
      simp [climb, rbParent_eq, child_eq, ha, hp, Cell.join, Cell.child, hp0, hne, after]
    | right =>
      have hup := ih (n := k.length + 1 + j) (l := s) H (by omega)
      simpa [climb, rbParent_eq, child_eq, ha, hp, Cell.join, Cell.child, hp0, after] using hup

/-- **The walk.**  `rb_first` is the first node in symmetric order, and `rb_next` of each node is
the one behind it, and NULL behind the last. -/
theorem rbNext_inOrder (H : m.Holds t) (hn : t.addrs.length < n) :
    rbFirst n m = some (t.addrs.headD null) ∧ ∀ xs a ys, t.addrs = xs ++ a :: ys →
      rbNext n m a = some (ys.headD null) := by
  have hroot := H.root_eq
  constructor
  · cases t with
    | nil =>
      have h0 : m.rbNode = null := by simpa [Mem.root] using hroot
      simp [rbFirst, h0]
    | node l a c r =>
      have ha : a ≠ null := H.ne_null (by simp)
      have heq : m.rbNode = a := by
        simp only [Mem.root, addr?_node] at hroot
        split_ifs at hroot
        exact Option.some.inj hroot
      simp only [addrs_node, List.length_append] at hn
      rw [rbFirst, heq, if_neg ha]
      exact leftmost_eq (k := []) H (by omega)
  · intro xs a ys heq
    obtain ⟨k, l, c, r, rfl⟩ := exists_plug_of_mem (t := t) (a := a) (by simp [heq])
    have hnd := H.nodup
    have hlen := length_addrs_plug k (l.node a c r)
    have hk := length_le_around k
    obtain rfl : ys = r.addrs ++ after k := by
      rw [heq, List.nodup_middle, List.nodup_cons, List.mem_append, not_or] at hnd
      rw [addrs_plug, addrs_node, ← List.append_assoc, List.append_assoc] at heq
      exact ((List.append_cons_inj_of_notMem hnd.1.1 hnd.1.2).mp heq.symm).2.2
    have ha := cell (d := .left) H
    have hparent : (top k).getD null ≠ a := by
      cases k with
      | nil => exact (H.ne_null (by simp)).symm
      | cons f k =>
        rintro rfl
        exact ((nodup_plug _ _).mp H.nodup).2.2 f.addr (by simp) (by simp)
    cases r with
    | nil =>
      have hup := climb_spec H (n := n) (by omega)
      simpa [rbNext, rbParent_eq, child_eq, ha, Cell.join, Cell.child, hparent] using hup
    | node x b u y =>
      have hb : b ≠ null := H.ne_null (by simp [mem_addrs_plug])
      have hdown := leftmost_eq (k := ⟨.right, a, c, l⟩ :: k) (n := n) H (by simp at hlen; omega)
      simpa [rbNext, rbParent_eq, child_eq, ha, Cell.join, Cell.child, hparent, hb] using hdown

/-- The walk over a tree of four nodes: down to the first, up, down and off the end. -/
theorem rbNext_inOrder_fourNodes : rbFirst 5 fiveNodes = some ⟨4, by decide⟩ ∧
    rbNext 5 fiveNodes ⟨4, by decide⟩ = some ⟨8, by decide⟩ ∧
    rbNext 5 fiveNodes ⟨8, by decide⟩ = some ⟨16, by decide⟩ ∧
    rbNext 5 fiveNodes ⟨20, by decide⟩ = some null := by
  have hwalk := rbNext_inOrder (n := 5) fiveNodes_holds (by decide)
  exact ⟨hwalk.1, hwalk.2 [] _ _ rfl, hwalk.2 [_] _ _ rfl, hwalk.2 [_, _, _] _ _ rfl⟩

end Gp2xKernel.RbTree
