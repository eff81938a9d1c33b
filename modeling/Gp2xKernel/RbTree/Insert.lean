import Gp2xKernel.RbTree.Balance

/-!
# `rb_insert_color` restores the red-black invariant

The loop works at the position of a red node `x` below which the tree is sound, in a sound
context; only the edge between `x` and its parent may join two red nodes.  One turn either
moves the position two levels up, or rotates and leaves a black parent above it, so the
position gets strictly closer to the root.

## Main results

* `insertFix_spec`: what one turn of the loop does.
* `rbInsertColor_spec`: the tree after `rb_insert_color` is red-black, with the same nodes
  in the same order.
-/

namespace Gp2xKernel.RbTree

open Library Mem LinkedTree

variable {w : ℕ} {m : Mem w} {k : List (Frame (Ptr w) Color)}

/-- The run succeeds, and the memory then holds a red-black tree of the given nodes. -/
def Leaves (run : Option (Mem w)) (nodes : List (Ptr w)) : Prop :=
  ∃ m' t', run = some m' ∧ m'.Holds t' ∧ RedBlack t' ∧ t'.addrs = nodes

/-! ## Reading colours -/

variable {s A B : LinkedTree (Ptr w) Color} {c : Color}

/-- `p && rb_is_red(p)` on the root of a subtree. -/
theorem Mem.Holds.redAt (H : m.Holds (plug k s)) :
    m.redAt (s.addr?.getD null) = some (decide (color s = .red)) := by
  cases s with
  | nil => simp [Mem.redAt]
  | node l a c r =>
    have hne : a ≠ null := H.ne_null (by simp [addrs_plug])
    have hcell := Mem.Holds.cell (d := .left) H
    show m.redAt a = some (decide (c = .red))
    simp [Mem.redAt, hne, rbColor_eq, hcell]

/-- `p && rb_is_red(p)` on the node above a position. -/
theorem Mem.Holds.redAt_top (H : m.Holds (plug k s)) :
    m.redAt ((top k).getD null) = some (decide (k ≠ [] ∧ topColor k = .red)) := by
  cases k with
  | nil => simp [Mem.redAt]
  | cons f k =>
    have h := Mem.Holds.redAt (k := k) H
    simpa using h

/-- The position of the far child of a node. -/
theorem Mem.Holds.far {d : Side} {a : Ptr w} (H : m.Holds (plug k (.join d A a c B))) :
    m.Holds (plug (⟨d.flip, a, c, A⟩ :: k) B) := by
  rwa [plug_far]

/-- The two child pointers of a node differ, unless both are NULL. -/
theorem Mem.Holds.child_ne {d : Side} {a : Ptr w} (H : m.Holds (plug k (.join d A a c B)))
    (hne : A ≠ .nil ∨ B ≠ .nil) :
    A.addr?.getD null ≠ B.addr?.getD null := by
  have hnd := ((nodup_join ..).mp ((nodup_plug _ _).mp H.nodup).1).2.2.2.2
  have hnn : ∀ b, b ∈ A.addrs ∨ b ∈ B.addrs → b ≠ null := fun b hb =>
    H.ne_null (by rcases hb with hb | hb <;> simp [addrs_plug, hb])
  cases A with
  | nil =>
    cases B with
    | nil => simp at hne
    | node l b v r => exact (hnn b (.inr (by simp))).symm
  | node l b v r =>
    cases B with
    | nil => exact hnn b (.inl (by simp))
    | node l' b' v' r' =>
      rintro rfl
      exact hnd b (by simp) (by simp)

/-- The comparison with the left child of the parent finds the side of a position. -/
theorem Mem.Holds.side_eq {f : Frame (Ptr w) Color} (H : m.Holds (plug (f :: k) s))
    (hne : s ≠ .nil ∨ f.sibling ≠ .nil) :
    ∃ p, m.child .left f.addr = some p ∧
      (if s.addr?.getD null = p then Side.left else Side.right) = f.side := by
  have hcell := Mem.Holds.cell H
  have hptr := Mem.Holds.child_ne H hne
  refine ⟨_, by rw [child_eq, hcell]; rfl, ?_⟩
  rcases f with ⟨d, g, v, u⟩
  cases d with
  | left => simp [Cell.join, Cell.child]
  | right => exact if_neg hptr

/-! ## One turn of the loop -/

/-- What a turn of the loop leaves behind: again a red node with a sound subtree in a sound
context, closer to the root, in a tree with the same nodes in the same order. -/
structure Progress (m' : Mem w) (x : Ptr w) (depth : ℕ) (nodes : List (Ptr w))
    (k : List (Frame (Ptr w) Color)) (s : LinkedTree (Ptr w) Color) (n : ℕ) : Prop where
  holds : m'.Holds (plug k s)
  addr : s.addr? = some x
  red : color s = .red
  sound : Sound n s
  context : ContextSound n k
  closer : k.length < depth
  nodes_eq : (plug k s).addrs = nodes

variable [Fact (0 < w)]

variable {d e : Side} {x p g : Ptr w} {s S U : LinkedTree (Ptr w) Color} {n : ℕ}

/-- The uncle is red: recolour, and go on at the grandparent. -/
theorem insertFix_recolor (H : m.Holds (plug k (.join d (.join e s p .red S) g .black U)))
    (hs : Sound n s) (hS : Sound n S) (hU : Sound n U) (hUc : color U = .red)
    (hk : ContextSound (n + 1) k) :
    ∃ m' s', insertFix d m x p g = some (m', g) ∧
      Progress m' g (k.length + 2)
        (plug k (.join d (.join e s p .red S) g .black U)).addrs k s' (n + 1) := by
  have hg := H.cell
  obtain ⟨u1, u, u2, rfl, hu1, hu2, -⟩ := hU.exists_red hUc .left
  have hu : m.redAt u = some true := by simpa using H.far.redAt
  obtain ⟨m1, run1, H1⟩ := H.far.setBlack
  rw [plug_far] at H1
  obtain ⟨m2, run2, H2⟩ := Mem.Holds.setBlack (k := ⟨d, g, .black, _⟩ :: k) H1
  obtain ⟨m3, run3, (H3 : m3.Holds (plug k
      (.join d (.join e s p .black S) g .red (.join .left u1 u .black u2))))⟩ :=
    Mem.Holds.setRed (k := k) H2
  refine ⟨m3, _, ?_, H3, by simp, by simp, ?_, hk, by omega, addrs_plug_congr ?_ k⟩
  · simp [insertFix, child_eq, hg, hu, run1, run2, run3]
  · exact sound_red.mpr ⟨sound_black.mpr ⟨hs, hS⟩, sound_black.mpr ⟨hu1, hu2⟩, by simp, by simp⟩
  · cases d <;> cases e <;> simp [join]

/-- Painting the parent black and the grandparent red and rotating the grandparent: the end
of a turn when the uncle is black. -/
theorem insertFix_rotate {q : Ptr w} (H : m.Holds (plug k (.join d (.join d A q c B) g .black U))) :
    ∃ m1 m2 m', m.rbSetBlack q = some m1 ∧ m1.rbSetRed g = some m2 ∧
      rbRotate d.flip m2 g = some m' ∧
      m'.Holds (plug k (.join d A q .black (.join d B g .red U))) := by
  obtain ⟨m1, run1, H1⟩ := Mem.Holds.setBlack (k := ⟨d, g, .black, U⟩ :: k) H
  obtain ⟨m2, run2, H2⟩ := Mem.Holds.setRed (k := k) H1
  -- read from the other side, the parent is the far child of the grandparent
  have H2' : m2.Holds (plug k (.join d.flip U g .red (.join d.flip B q .black A))) := by
    rw [join_flip, join_flip]
    exact H2
  obtain ⟨m3, run3, H3⟩ := rbRotate_spec H2'
  rw [join_flip, join_flip] at H3
  exact ⟨m1, m2, m3, run1, run2, run3, H3⟩

/-- The uncle is black and the node is the outer grandchild: rotate the grandparent. -/
theorem insertFix_outer (H : m.Holds (plug k (.join d (.join d s p .red S) g .black U)))
    (hx : s.addr? = some x) (hred : color s = .red) (hs : Sound n s) (hS : Sound n S)
    (hSc : color S = .black) (hU : Sound n U) (hUc : color U = .black)
    (hk : ContextSound (n + 1) k) :
    ∃ m' k', insertFix d m x p g = some (m', x) ∧
      Progress m' x (k.length + 2)
        (plug k (.join d (.join d s p .red S) g .black U)).addrs k' s n := by
  have hg := H.cell
  have hp := Mem.Holds.cell (k := ⟨d, g, .black, U⟩ :: k) H
  have hu : m.redAt (U.addr?.getD null) = some false := by simpa [hUc] using H.far.redAt
  -- the inner child of the parent is another node
  have hinner : S.addr?.getD null ≠ x := by
    have := Mem.Holds.child_ne (k := ⟨d, g, .black, U⟩ :: k) H (.inl (by rintro rfl; simp at hx))
    simpa [hx] using this.symm
  obtain ⟨m1, m2, m3, run1, run2, run3, H3⟩ := insertFix_rotate H
  refine ⟨m3, ⟨d, p, .black, .join d S g .red U⟩ :: k, ?_, H3, hx, hred, hs, ?_, by simp,
    addrs_plug_congr ?_ k⟩
  · simp [insertFix, child_eq, hg, hu, hp, hinner, run1, run2, run3]
  · exact ⟨sound_red.mpr ⟨hS, hU, hSc, hUc⟩, by simp, hk⟩
  · cases d <;> simp [join]

/-- The uncle is black and the node is the inner grandchild: rotate the parent first, which
exchanges the roles of the node and its parent. -/
theorem insertFix_inner {C : LinkedTree (Ptr w) Color}
    (H : m.Holds (plug k (.join d (.join d S p .red (.join d B x .red C)) g .black U)))
    (hB : Sound n B) (hC : Sound n C) (hBc : color B = .black) (hCc : color C = .black)
    (hS : Sound n S) (hSc : color S = .black) (hU : Sound n U) (hUc : color U = .black)
    (hk : ContextSound (n + 1) k) :
    ∃ m' k' s', insertFix d m x p g = some (m', p) ∧
      Progress m' p (k.length + 2)
        (plug k (.join d (.join d S p .red (.join d B x .red C)) g .black U)).addrs k' s' n := by
  have hg := H.cell
  have hp := Mem.Holds.cell (k := ⟨d, g, .black, U⟩ :: k) H
  have hu : m.redAt (U.addr?.getD null) = some false := by simpa [hUc] using H.far.redAt
  obtain ⟨m0, run0, H0⟩ := rbRotate_spec (k := ⟨d, g, .black, U⟩ :: k) H
  obtain ⟨m1, m2, m3, run1, run2, run3, H3⟩ := insertFix_rotate H0
  refine ⟨m3, ⟨d, x, .black, .join d C g .red U⟩ :: k, .join d S p .red B, ?_, H3, by simp,
    by simp, sound_red.mpr ⟨hS, hB, hSc, hBc⟩, ?_, by simp, addrs_plug_congr ?_ k⟩
  · simp [insertFix, child_eq, hg, hu, hp, run0, run1, run2, run3]
  · exact ⟨sound_red.mpr ⟨hC, hU, hCc, hUc⟩, by simp, hk⟩
  · cases d <;> simp [join]

/-- **One turn of the loop of `rb_insert_color`**, at a red node whose parent is red. -/
theorem insertFix_spec (H : m.Holds (plug k (.join d (.join e s p .red S) g .black U)))
    (hx : s.addr? = some x) (hred : color s = .red) (hs : Sound n s) (hS : Sound n S)
    (hSc : color S = .black) (hU : Sound n U) (hk : ContextSound (n + 1) k) :
    ∃ m' x' k' s' n', insertFix d m x p g = some (m', x') ∧
      Progress m' x' (k.length + 2)
        (plug k (.join d (.join e s p .red S) g .black U)).addrs k' s' n' := by
  by_cases hUc : color U = .red
  · obtain ⟨m', s', hrun, hprog⟩ := insertFix_recolor H hs hS hU hUc hk
    exact ⟨m', g, k, s', n + 1, hrun, hprog⟩
  replace hUc := Color.ne_red_iff.mp hUc
  rcases Side.eq_or_eq_flip d e with rfl | rfl
  · obtain ⟨m', k', hrun, hprog⟩ := insertFix_outer H hx hred hs hS hSc hU hUc hk
    exact ⟨m', x, k', s, n, hrun, hprog⟩
  · obtain ⟨B, x', C, rfl, hB, hC, hBc, hCc⟩ := hs.exists_red hred d
    obtain rfl : x' = x := by simpa using hx
    rw [join_flip] at H ⊢
    obtain ⟨m', k', s', hrun, hprog⟩ := insertFix_inner H hB hC hBc hCc hS hSc hU hUc hk
    exact ⟨m', p, k', s', n, hrun, hprog⟩

/-! ## The whole loop -/

/-- The loop ends with a sound tree: the position is at the root or below a black node. -/
theorem insertLoop_spec (turns : ℕ) (H : m.Holds (plug k s)) (hx : s.addr? = some x)
    (hred : color s = .red) (hs : Sound n s) (hk : ContextSound n k)
    (hturns : k.length < turns) :
    ∃ m' t' n', insertLoop turns m x = some m' ∧ m'.Holds t' ∧ Sound n' t' ∧
      t'.addrs = (plug k s).addrs := by
  induction turns generalizing m k s x n with
  | zero => omega
  | succ turns ih =>
    have hparent : m.rbParent x = some ((top k).getD null) := by
      obtain ⟨A, a, B, rfl, -⟩ := hs.exists_red hred .left
      obtain rfl : a = x := by simpa using hx
      rw [rbParent_eq, H.cell, Option.map_some, Cell.parent_join]
    have htop := H.redAt_top
    by_cases hloop : k ≠ [] ∧ topColor k = .red
    · -- the parent is red, so it is not the root and the grandparent is black
      obtain ⟨e, p, S, d, g, U, k, rfl, hS, hSc, hU, hk⟩ := hk.exists_red hloop.1 hloop.2
      obtain ⟨q, hq, hside⟩ := Mem.Holds.side_eq (k := k) H (.inl (by cases e <;> simp [join]))
      have hgp : m.rbParent p = some g := by
        have := Mem.Holds.cell H
        rw [rbParent_eq, this, Option.map_some, Cell.parent_join]
        rfl
      obtain ⟨m1, x1, k1, s1, n1, hrun, hprog⟩ := insertFix_spec H hx hred hs hS hSc hU hk
      obtain ⟨m', t', n', hrun', H', hs', hnodes⟩ := ih hprog.holds hprog.addr hprog.red
        hprog.sound hprog.context (by
          have := hprog.closer
          simp only [List.length_cons] at hturns
          omega)
      refine ⟨m', t', n', ?_, H', hs', hnodes.trans hprog.nodes_eq⟩
      replace htop : m.redAt p = some true := by simpa using htop
      replace hside : (if p = q then Side.left else Side.right) = d := by simpa using hside
      simp [insertLoop, hparent, htop, hgp, hq, hside, hrun, hrun']
    · -- the position is at the root or the parent is black
      obtain ⟨n', hsound⟩ := hs.plug hk fun _ => by
        by_contra hne
        push Not at hne
        exact hloop ⟨hne.1, by cases h : topColor k <;> simp_all⟩
      refine ⟨m, plug k s, n', ?_, H, hsound, rfl⟩
      simp [insertLoop, hparent, htop, hloop]

/-- **`rb_insert_color` restores the invariant.**  Started at a red node in a sound
context, it ends with a red-black tree of the same nodes in the same order. -/
theorem rbInsertColor_spec (turns : ℕ) (H : m.Holds (plug k s)) (hx : s.addr? = some x)
    (hred : color s = .red) (hs : Sound n s) (hk : ContextSound n k)
    (hturns : k.length < turns) :
    Leaves (rbInsertColor turns m x) (plug k s).addrs := by
  obtain ⟨m1, t, n', hrun, H1, hsound, hnodes⟩ := insertLoop_spec turns H hx hred hs hk hturns
  cases t with
  | nil =>
    have hmem : x ∈ (plug k s).addrs := by simp [addrs_plug, addr?_mem hx]
    rw [← hnodes] at hmem
    simp at hmem
  | node l a c r =>
    have hroot : m1.rbNode = a := by
      have := H1.root_eq
      simp only [root, addr?_node] at this
      grind
    obtain ⟨m2, run2, H2⟩ := Mem.Holds.setBlack (k := []) (d := .left) H1
    refine ⟨m2, _, ?_, H2, redBlack_of_sound hsound, hnodes⟩
    simp [rbInsertColor, hrun, hroot, run2]

end Gp2xKernel.RbTree
