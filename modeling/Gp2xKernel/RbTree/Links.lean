import Gp2xKernel.RbTree.Basic

/-!
# What the pointer operations of `lib/rbtree.c` do to the tree

`Mem.view` forgets how colour and parent share a word, and `Mem.Holds m t` says that the
memory `m` holds the tree `t` as a linked tree.  Each operation is then described by the
tree it leaves behind, at an arbitrary position of the whole tree: the proofs about the
fix-up loops never look at a pointer again.

## Main results

* `Mem.Holds.setBlack`, `Mem.Holds.setRed`, `Mem.Holds.assignColor`: colouring one node.
* `rbRotate_spec`: a rotation exchanges a node with its child.
* `splice_spec`: taking a node with one child out.
* `takePlace_spec`: putting a fresh node in the place of another.
* `rbLinkNode_spec`: hanging a red leaf in an empty position.
-/

namespace Gp2xKernel.RbTree

open Library Option LinkedTree Heap

variable {w : ℕ}

/-! ## The packed word -/

variable {i : ℕ}

theorem getElem_three (hi : i < w) : (3#w)[i] = decide (i < 2) := by
  rw [← BitVec.getLsbD_eq_getElem, BitVec.getLsbD_ofNat]
  rcases i with _ | _ | i <;> simp [hi, Nat.testBit_succ]

/-- The two low bits of an aligned pointer are clear. -/
theorem getElem_aligned {p : BitVec w} (hp : p &&& 3 = 0) (hi : i < w) (h2 : i < 2) :
    p[i] = false := by
  have h := congrArg (·.getLsbD i) hp
  simpa [hi, getElem_three, h2] using h

namespace RbNode

/-- The node with colour and parent read out of their common word. -/
def cell (n : RbNode w) : Cell (Ptr w) Color := ⟨n.rbParent, n.rbLeft, n.rbRight, n.rbColor⟩

/-- Writing a parent keeps the colour. -/
theorem cell_rbSetParent (p : Ptr w) (n : RbNode w) :
    (n.rbSetParent p).cell = n.cell.setParent p := by
  have hparent : ((n.rbParentColor &&& 3) ||| p.val) &&& ~~~3 = p.val := by
    ext i hi
    have := getElem_aligned p.property hi
    by_cases h2 : i < 2 <;> simp [getElem_three, h2]
    exact this h2
  have hcolor : ((n.rbParentColor &&& 3) ||| p.val) &&& 1 = n.rbParentColor &&& 1 := by
    ext i hi
    have := getElem_aligned p.property hi
    rcases i with _ | i <;> simp_all [getElem_three]
  simp only [cell, rbSetParent, Cell.setParent, rbParent, rbColor, hparent, hcolor]

/-- Writing a colour keeps the parent. -/
theorem cell_rbSetRed (n : RbNode w) : n.rbSetRed.cell = n.cell.setData .red := by
  have hparent : (n.rbParentColor &&& ~~~1) &&& ~~~3 = n.rbParentColor &&& ~~~3 := by
    ext i hi
    rcases i with _ | i <;> simp [getElem_three]
  have hcolor : (n.rbParentColor &&& ~~~1) &&& 1 = 0 := by
    ext i hi
    rcases i with _ | i <;> simp
  simp only [cell, rbSetRed, Cell.setData, rbParent, rbColor, hparent, hcolor, if_true]

/-- The word `rb_link_node` writes is the address of the parent, in red. -/
theorem cell_link (p l r : Ptr w) : (RbNode.mk p.val r l).cell = ⟨p, l, r, .red⟩ := by
  have hparent : p.val &&& ~~~3 = p.val := by
    ext i hi
    have := getElem_aligned p.property hi
    by_cases h2 : i < 2 <;> simp [getElem_three, h2]
    exact this h2
  have hcolor : p.val &&& 1 = 0 := by
    ext i hi
    have := getElem_aligned p.property hi
    rcases i with _ | i <;> simp_all
  simp only [cell, rbParent, rbColor, hparent, hcolor, if_true]

variable [Fact (0 < w)]

theorem or_one_and_one_ne (x : BitVec w) : (x ||| 1) &&& 1 ≠ 0 := by
  intro h
  have hw : 0 < w := Fact.out
  have := congrArg (·.getLsbD 0) h
  simp [hw] at this

theorem cell_rbSetBlack (n : RbNode w) : n.rbSetBlack.cell = n.cell.setData .black := by
  have hparent : (n.rbParentColor ||| 1) &&& ~~~3 = n.rbParentColor &&& ~~~3 := by
    ext i hi
    rcases i with _ | i <;> simp [getElem_three]
  simp only [cell, rbSetBlack, Cell.setData, rbParent, rbColor, hparent,
    or_one_and_one_ne, if_false]

theorem cell_rbSetColor (c : Color) (n : RbNode w) : (n.rbSetColor c).cell = n.cell.setData c := by
  cases c with
  | red =>
    have : n.rbSetColor .red = n.rbSetRed := by simp [rbSetColor, rbSetRed, Color.bit]
    rw [this, cell_rbSetRed]
  | black =>
    -- clearing the bit first changes nothing, it is set right after
    have : n.rbSetColor .black = n.rbSetRed.rbSetBlack := rfl
    rw [this, cell_rbSetBlack, cell_rbSetRed]
    rfl

omit [Fact (0 < w)] in
theorem cell_setChild (d : Side) (x : Ptr w) (n : RbNode w) :
    (n.setChild d x).cell = n.cell.setChild d x := by
  cases d <;> rfl

end RbNode

/-! ## Reading and writing one node -/

namespace Mem

/-- The memory as a heap of unpacked cells. -/
def view (m : Mem w) : Heap (Ptr w) Color := fun a => (m.heap a).map RbNode.cell

/-- The address of the root node, if the tree is not empty. -/
def root (m : Mem w) : Option (Ptr w) := if m.rbNode = null then none else some m.rbNode

theorem rbParent_eq (m : Mem w) (a : Ptr w) : m.rbParent a = (m.view a).map Cell.parent := by
  simp [rbParent, view, Function.comp_def, RbNode.cell]

theorem rbColor_eq (m : Mem w) (a : Ptr w) : m.rbColor a = (m.view a).map Cell.data := by
  simp [rbColor, view, Function.comp_def, RbNode.cell]

theorem child_eq (d : Side) (m : Mem w) (a : Ptr w) :
    m.child d a = (m.view a).map (Cell.child d) := by
  rw [view, map_map]
  cases d <;> rfl

theorem view_null (m : Mem w) : m.view null = none := by
  simp [view, m.null_unmapped]

variable {m : Mem w} {a : Ptr w} {f : RbNode w → RbNode w}

theorem ne_null_of_view {c : Cell (Ptr w) Color} (h : m.view a = some c) : a ≠ null := by
  rintro rfl
  simp [view_null] at h

/-- An assignment to an allocated node succeeds and changes that node only. -/
theorem assign_spec {g : Cell (Ptr w) Color → Cell (Ptr w) Color} (hf : ∀ n, (f n).cell = g n.cell)
    (ha : (m.view a).isSome) :
    ∃ m', m.assign a f = some m' ∧ m'.view = m.view.modify a g ∧ m'.rbNode = m.rbNode := by
  have ha' : (m.heap a).isSome := by simpa [view] using ha
  refine ⟨_, if_pos ha', ?_, rfl⟩
  funext b
  by_cases hb : b = a
  · subst hb
    simp only [view, Function.update_self, modify_self, map_map]
    exact congrArg (fun q => (m.heap b).map q) (funext hf)
  · simp [view, Function.update_of_ne hb, modify_of_ne _ hb]

theorem setChild_spec (d : Side) (x : Ptr w) (ha : (m.view a).isSome) :
    ∃ m', m.setChild d a x = some m' ∧ m'.view = m.view.modify a (.setChild d x) ∧
      m'.rbNode = m.rbNode :=
  assign_spec (RbNode.cell_setChild d x) ha

theorem rbSetParent_spec (p : Ptr w) (ha : (m.view a).isSome) :
    ∃ m', m.rbSetParent a p = some m' ∧ m'.view = m.view.modify a (.setParent p) ∧
      m'.rbNode = m.rbNode :=
  assign_spec (RbNode.cell_rbSetParent p) ha

theorem root_congr {m' : Mem w} (h : m'.rbNode = m.rbNode) : m'.root = m.root := by
  rw [root, root, h]

/-- The representation of a tree in memory: NULL stands for every missing neighbour. -/
def Holds (m : Mem w) (t : LinkedTree (Ptr w) Color) : Prop :=
  Represents (fun _ => null) m.view m.root t

variable {m : Mem w} {k : List (Frame (Ptr w) Color)} {d : Side} {a x y : Ptr w} {c c' : Color}
  {A B C : LinkedTree (Ptr w) Color}

theorem Holds.cell (H : m.Holds (plug k (.join d A a c B))) :
    m.view a = some (.join d ((top k).getD null) (A.addr?.getD null) (B.addr?.getD null) c) :=
  Represents.cell H

theorem Holds.ne_null {t : LinkedTree (Ptr w) Color} (H : m.Holds t) (ha : a ∈ t.addrs) :
    a ≠ null := by
  rintro rfl
  have := Library.Holds.isSome H.holds ha
  simp [view_null] at this

/-- `if (p) rb_set_parent(p, parent)` hangs a subtree below another node. -/
theorem setParentIf_spec (hB : ∀ b ∈ B.addrs, (m.view b).isSome) (p : Option (Ptr w)) :
    ∃ m', m.setParentIf (B.addr?.getD null) (p.getD null) = some m' ∧
      m'.view = adopt (fun _ => null) B p m.view ∧ m'.rbNode = m.rbNode := by
  cases B with
  | nil => exact ⟨m, if_neg (by simp), rfl, rfl⟩
  | node l b v r =>
    have hb := hB b (by simp)
    obtain ⟨cell, hcell⟩ := isSome_iff_exists.mp hb
    obtain ⟨m', hrun, hview, hroot⟩ := rbSetParent_spec (p.getD null) hb
    exact ⟨m', (if_pos (ne_null_of_view hcell)).trans hrun, hview, hroot⟩

/-- Redirecting the parent of a node, or the root pointer, points the context elsewhere. -/
theorem changeChild_spec (d : Side) (old : Ptr w) {y : Option (Ptr w)} (hold : old ≠ null)
    (hk : ContextHolds (fun _ => null) m.view m.root (some old) k) (hout : old ∉ around k)
    (hy : ∀ b, y = some b → b ≠ null) :
    ∃ m', m.changeChild d ((top k).getD null) old (y.getD null) = some m' ∧
      m'.view = point (fun _ => null) k y m.view ∧ m'.root = pointRoot k y m.root := by
  cases k with
  | nil =>
    refine ⟨{ m with rbNode := y.getD null }, if_neg (by simp), rfl, ?_⟩
    cases y with
    | none => simp [root, pointRoot]
    | some b => simp [root, pointRoot, hy b rfl]
  | cons f k =>
    obtain ⟨hf, -, -⟩ := hk
    have hsome : (m.view f.addr).isSome := by simp [hf]
    -- the sibling's pointer differs from `old`, so the comparison finds the right side
    have hsib : f.sibling.addr?.getD null ≠ old := by
      cases hs : f.sibling.addr? with
      | none => exact hold.symm
      | some b =>
        rintro rfl
        exact hout (by simp [addr?_mem hs])
    have hside : m.changeChild d f.addr old (y.getD null) =
        m.setChild f.side f.addr (y.getD null) := by
      rw [changeChild, if_pos (ne_null_of_view hf), child_eq, hf]
      rcases Side.eq_or_eq_flip d f.side with h | h <;> rw [h]
      · simp
      · simp [Cell.join_flip, hsib.symm]
    obtain ⟨m', hrun, hview, hroot⟩ := setChild_spec f.side (y.getD null) hsome
    exact ⟨m', hside.trans hrun, hview, root_congr hroot⟩

/-- Colouring one node of the tree. -/
theorem Holds.assignColor (H : m.Holds (plug k (.join d A a c B)))
    (hf : ∀ n, (f n).cell = n.cell.setData c') :
    ∃ m', m.assign a f = some m' ∧ m'.Holds (plug k (.join d A a c' B)) := by
  obtain ⟨m', hrun, hview, hroot⟩ := assign_spec (m := m) (a := a) hf (by simp [H.cell])
  refine ⟨m', hrun, ?_⟩
  have hsplit := (represents_plug _ _).mp H
  obtain ⟨hcell, hA, hB⟩ := (holds_join d).mp hsplit.2.1
  have hout := (nodup_plug _ _).mp H.nodup
  obtain ⟨haA, haB, -⟩ := (nodup_join d A B a c).mp hout.1
  have hoff : ∀ b, b ≠ a → m'.view b = m.view b := fun b hb => by
    rw [hview, modify_of_ne _ hb]
  have hctx : ∀ b ∈ around k, m'.view b = m.view b := fun b hb => hoff b fun hba =>
    hout.2.2 a (by simp) (hba ▸ hb)
  refine (represents_plug _ _).mpr ⟨?_, (holds_join d).mpr ⟨?_, ?_, ?_⟩, ?_⟩
  · rw [root_congr hroot]
    simpa using hsplit.1.congr hctx
  · simp [hview, hcell]
  · exact hA.congr fun b hb => hoff b fun hba => haA (hba ▸ hb)
  · exact hB.congr fun b hb => hoff b fun hba => haB (hba ▸ hb)
  · refine nodup_plug_of_perm H.nodup ?_ fun b => by simp
    exact (nodup_join d A B a c').mpr ((nodup_join d A B a c).mp hout.1)

theorem Holds.setRed (H : m.Holds (plug k (.join d A a c B))) :
    ∃ m', m.rbSetRed a = some m' ∧ m'.Holds (plug k (.join d A a .red B)) :=
  H.assignColor RbNode.cell_rbSetRed

theorem Holds.setBlack [Fact (0 < w)] (H : m.Holds (plug k (.join d A a c B))) :
    ∃ m', m.rbSetBlack a = some m' ∧ m'.Holds (plug k (.join d A a .black B)) :=
  H.assignColor RbNode.cell_rbSetBlack

end Mem

/-! ## Moving nodes -/

section Moves

open Mem

variable {m : Mem w} {k : List (Frame (Ptr w) Color)} {d : Side} {x y : Ptr w} {c c' : Color}
  {A B C : LinkedTree (Ptr w) Color}

/-- **Rotation.**  The child of `x` on the far side takes the place of `x` and hands over
its inner subtree; the rest of the tree stays where it is. -/
theorem rbRotate_spec (H : m.Holds (plug k (.join d A x c (.join d B y c' C)))) :
    ∃ m', rbRotate d m x = some m' ∧ m'.Holds (plug k (.join d (.join d A x c B) y c' C)) := by
  obtain ⟨hk, hs, hnd⟩ := (represents_plug _ _).mp H
  obtain ⟨hx, hA, hy, hB, hC⟩ : _ ∧ _ ∧ _ ∧ _ ∧ _ := by
    simpa only [holds_join, getD_some] using hs
  obtain ⟨hnd1, -, hout⟩ := (nodup_plug _ _).mp hnd
  simp only [nodup_join, mem_addrs_join] at hnd1 hout
  have hxy : x ≠ y := by grind
  -- the writes, one by one
  obtain ⟨m1, run1, view1, root1⟩ :=
    setChild_spec d.flip (B.addr?.getD null) (m := m) (a := x) (by simp [hx])
  obtain ⟨m2, run2, view2, root2⟩ := setParentIf_spec (B := B) (fun b hb => by
      rw [view1, modify_of_ne _ (by grind)]
      exact hB.isSome hb) (some x)
  have off2 : ∀ b, b ≠ x → b ∉ B.addrs → m2.view b = m.view b := fun b hbx hbB => by
    rw [view2, adopt_of_notMem hbB, view1, modify_of_ne _ hbx]
  have at_y : m2.view y = some (.join d x (B.addr?.getD null) (C.addr?.getD null) c') :=
    (off2 y hxy.symm (by grind)).trans hy
  obtain ⟨m3, run3, view3, root3⟩ := setChild_spec d x (m := m2) (a := y) (by simp [at_y])
  obtain ⟨m4, run4, view4, root4⟩ :=
    rbSetParent_spec ((top k).getD null) (m := m3) (a := y) (by simp [view3, at_y])
  have off4 : ∀ b, b ≠ y → m4.view b = m2.view b := fun b hb => by
    rw [view4, modify_of_ne _ hb, view3, modify_of_ne _ hb]
  have ctx4 : ∀ b ∈ around k, m4.view b = m.view b := fun b hb => by
    rw [off4 b (by grind), off2 b (by grind) (by grind)]
  have hroot4 : m4.root = m.root := by
    rw [root_congr root4, root_congr root3, root_congr root2, root_congr root1]
  obtain ⟨m5, run5, view5, root5⟩ := changeChild_spec d x (m := m4)
    (y := some y) (ne_null_of_view hx) (by simpa [hroot4] using hk.congr ctx4) (by grind)
    (by rintro b ⟨⟩; exact ne_null_of_view hy)
  have at_x : m5.view x = some (.join d ((top k).getD null) (A.addr?.getD null)
      (B.addr?.getD null) c) := by
    rw [view5, point_of_notMem (by grind), off4 x hxy, view2, adopt_of_notMem (by grind), view1,
      modify_self, hx]
    simp
  obtain ⟨m6, run6, view6, root6⟩ := rbSetParent_spec y (m := m5) (a := x) (by simp [at_x])
  refine ⟨m6, ?_, ?_⟩
  · simp only [getD_some] at run2 run5
    simp [rbRotate, child_eq, rbParent_eq, hx, hy, run1, run2, run3, run4, run5, run6]
  -- the cells afterwards, by the part of the tree they belong to
  have off6 : ∀ b, b ≠ x → b ∉ around k → m6.view b = m4.view b := fun b hbx hbk => by
    rw [view6, modify_of_ne _ hbx, view5, point_of_notMem hbk]
  refine Represents.replace H ?_ ?_ ((holds_join d).mpr ⟨?_, (holds_join d).mpr ⟨?_, ?_, ?_⟩, ?_⟩)
    ?_
  · intro b hb
    rw [view6, modify_of_ne _ (by grind), view5, addr?_join]
    exact point_congr ctx4 _ hb
  · rw [root_congr root6, root5, hroot4, addr?_join]
  · rw [off6 y hxy.symm (by grind), view4, modify_self, view3, modify_self, at_y]
    simp
  · rw [view6, modify_self, at_x]
    simp
  · refine hA.congr fun b hb => ?_
    rw [off6 b (by grind) (by grind), off4 b (by grind), off2 b (by grind) (by grind)]
  · refine hB.reparent (by grind) fun b hb => ?_
    rw [off6 b (by grind) (by grind), off4 b (by grind), view2]
    refine adopt_congr (fun b hb => ?_) _ hb
    rw [view1, modify_of_ne _ (by grind)]
  · refine hC.congr fun b hb => ?_
    rw [off6 b (by grind) (by grind), off4 b (by grind), off2 b (by grind) (by grind)]
  · refine nodup_plug_of_perm hnd ?_ (by simp; grind)
    simp only [nodup_join, mem_addrs_join]
    grind

/-- **Splicing.**  A node with a single child leaves the tree when its child is hung below
its parent and its parent is pointed at the child. -/
theorem splice_spec {m1 m2 : Mem w} {s : LinkedTree (Ptr w) Color}
    (H : m.Holds (plug k (.join d s x c .nil)))
    (view1 : m1.view = adopt (fun _ => null) s (top k) m.view)
    (view2 : m2.view = point (fun _ => null) k s.addr? m1.view)
    (root2 : m2.root = pointRoot k s.addr? m.root) : m2.Holds (plug k s) := by
  obtain ⟨-, hs, hnd⟩ := (represents_plug _ _).mp H
  obtain ⟨-, hs, -⟩ := (holds_join d).mp hs
  obtain ⟨hnd1, -, hout⟩ := (nodup_plug _ _).mp hnd
  simp only [nodup_join, mem_addrs_join] at hnd1 hout
  refine Represents.replace H (fun b hb => ?_) root2 (hs.reparent hnd1.2.2.1 fun b hb => ?_) ?_
  · rw [view2]
    refine point_congr (fun b hb => ?_) _ hb
    rw [view1, adopt_of_notMem (by grind)]
  · rw [view2, point_of_notMem (by grind), view1]
  · exact nodup_plug_of_perm hnd hnd1.2.2.1 fun b hb => by simp [hb]

/-- **Transplanting.**  A node outside the tree takes over the place, the colour and the
subtrees of `old`, which has a left child. -/
theorem takePlace_spec {old : Ptr w} (node : Ptr w) (H : m.Holds (plug k (.node A old c B)))
    (hA : A ≠ .nil) (hnode : (m.view node).isSome)
    (hfresh : node ∉ (plug k (.node A old c B)).addrs) :
    ∃ m', takePlace m old node = some m' ∧ m'.Holds (plug k (.node A node c B)) := by
  obtain ⟨hk, hs, hnd⟩ := (represents_plug _ _).mp H
  obtain ⟨hold, hAs, hBs⟩ := hs
  obtain ⟨hnd1, hndk, hout⟩ := (nodup_plug _ _).mp hnd
  have hnd1' := (nodup_join .left A B old c).mp hnd1
  have hfresh' : node ∉ A.addrs ∧ node ≠ old ∧ node ∉ B.addrs ∧ node ∉ around k := by
    simp only [addrs_plug, addrs_node, List.mem_append, List.mem_cons, around] at hfresh ⊢
    grind
  obtain ⟨hnA, hno, hnB, hnk⟩ := hfresh'
  simp only [addrs_node, List.mem_append, List.mem_cons] at hout
  -- the fresh node becomes a copy of the old one
  obtain ⟨o, ho⟩ : ∃ o, m.heap old = some o := by
    cases ho : m.heap old with
    | none => simp [view, ho] at hold
    | some o => exact ⟨o, rfl⟩
  have hcell : o.cell = ⟨(top k).getD null, A.addr?.getD null, B.addr?.getD null, c⟩ := by
    simpa [view, ho] using hold
  obtain ⟨m1, run1, view1, root1⟩ := assign_spec
    (g := fun _ => o.cell) (fun n => rfl) hnode
  have off1 : ∀ b, b ≠ node → m1.view b = m.view b := fun b hb => by
    rw [view1, modify_of_ne _ hb]
  have old1 : m1.view old = some o.cell := by rw [off1 old hno.symm, hold, hcell]
  -- the parent of the old node points at the copy
  obtain ⟨m2, run2, view2, root2⟩ := changeChild_spec .left old (m := m1)
    (y := some node) (ne_null_of_view hold)
    (by simpa [root_congr root1] using hk.congr fun b hb => off1 b (by grind)) (by grind)
    (by
      rintro b ⟨⟩
      obtain ⟨cell, hn⟩ := isSome_iff_exists.mp hnode
      exact ne_null_of_view hn)
  have off2 : ∀ b, b ∉ around k → m2.view b = m1.view b := fun b hb => by
    rw [view2, point_of_notMem hb]
  have old2 : m2.view old = some o.cell := by rw [off2 old (by grind), old1]
  -- both subtrees are hung below the copy
  obtain ⟨m3, run3, view3, root3⟩ : ∃ m3, m2.rbSetParent (A.addr?.getD null) node = some m3 ∧
      m3.view = adopt (fun _ => null) A (some node) m2.view ∧ m3.rbNode = m2.rbNode := by
    cases A with
    | nil => exact absurd rfl hA
    | node l b v r =>
      refine rbSetParent_spec node ?_
      show (m2.view b).isSome
      rw [off2 b (by grind [addrs_node]), off1 b (by grind [addrs_node])]
      exact hAs.isSome (by simp)
  have off3 : ∀ b, b ∉ A.addrs → m3.view b = m2.view b := fun b hb => by
    rw [view3, adopt_of_notMem hb]
  have old3 : m3.view old = some o.cell := by rw [off3 old (by grind), old2]
  obtain ⟨m4, run4, view4, root4⟩ := setParentIf_spec (B := B) (fun b hb => by
      rw [off3 b (by grind), off2 b (by grind), off1 b (by grind)]
      exact hBs.isSome hb) (some node)
  have off4 : ∀ b, b ∉ B.addrs → m4.view b = m3.view b := fun b hb => by
    rw [view4, adopt_of_notMem hb]
  simp only [getD_some] at run2 run4
  refine ⟨m4, ?_, ?_⟩
  · simp [takePlace, ho, run1, rbParent_eq, old1, hcell, run2, child_eq, old2, Cell.child, run3,
      old3, run4]
  refine Represents.replace H (fun b hb => ?_) ?_ ⟨?_, ?_, ?_⟩ ?_
  · rw [off4 b (by grind), off3 b (by grind), view2]
    exact point_congr (fun b hb => off1 b (by grind)) _ hb
  · rw [root_congr root4, root_congr root3, root2, root_congr root1, addr?_node]
  · rw [off4 node hnB, off3 node hnA, off2 node hnk, view1, ← hcell]
    obtain ⟨cell, hn⟩ := isSome_iff_exists.mp hnode
    simp [hn]
  · refine hAs.reparent (by grind) fun b hb => ?_
    rw [off4 b (by grind), view3]
    refine adopt_congr (fun b hb => ?_) _ hb
    rw [off2 b (by grind), off1 b (by grind)]
  · refine hBs.reparent (by grind) fun b hb => ?_
    rw [view4]
    refine adopt_congr (fun b hb => ?_) _ hb
    rw [off3 b (by grind), off2 b (by grind), off1 b (by grind)]
  · refine (nodup_plug _ _).mpr ⟨?_, hndk, ?_⟩
    · exact (nodup_join .left A B node c).mpr (by grind)
    · simp only [addrs_node, List.mem_append, List.mem_cons]
      grind

/-- The address of the empty pointer at a position. -/
def linkAt : List (Frame (Ptr w) Color) → Link w
  | [] => .root
  | f :: _ => .child f.side f.addr

/-- **Linking.**  `rb_link_node` hangs a red leaf in an empty position. -/
theorem rbLinkNode_spec {node : Ptr w} (H : m.Holds (plug k .nil))
    (hnode : (m.view node).isSome) (hfresh : node ∉ (plug k .nil).addrs) :
    ∃ m', rbLinkNode m node ((top k).getD null) (linkAt k) = some m' ∧
      m'.Holds (plug k (.node .nil node .red .nil)) := by
  obtain ⟨hk, -, hnd⟩ := (represents_plug _ _).mp H
  have hout : node ∉ around k := by simpa [addrs_plug, around] using hfresh
  have hnull : node ≠ null := by
    obtain ⟨cell, hn⟩ := isSome_iff_exists.mp hnode
    exact ne_null_of_view hn
  obtain ⟨m1, run1, view1, root1⟩ := assign_spec
    (g := fun _ => ⟨(top k).getD null, null, null, .red⟩)
    (fun n => RbNode.cell_link ((top k).getD null) null null) hnode
  have off1 : ∀ b ∈ around k, m1.view b = m.view b := fun b hb => by
    rw [view1, modify_of_ne _ (by rintro rfl; exact hout hb)]
  obtain ⟨m2, run2, view2, root2⟩ : ∃ m2, rbLinkNode m node ((top k).getD null) (linkAt k) =
      some m2 ∧ m2.view = point (fun _ => null) k (some node) m1.view ∧
        m2.root = pointRoot k (some node) m.root := by
    cases k with
    | nil =>
      refine ⟨{ m1 with rbNode := node }, ?_, rfl, by simp [root, hnull, pointRoot]⟩
      rw [rbLinkNode, run1]
      rfl
    | cons f k =>
      obtain ⟨m2, run2, view2, root2⟩ := setChild_spec f.side node
        (by rw [off1 f.addr (by simp), hk.1]; rfl)
      refine ⟨m2, ?_, view2, (root_congr root2).trans (root_congr root1)⟩
      rw [rbLinkNode, run1]
      exact run2
  refine ⟨m2, run2, Represents.replace H (fun b hb => ?_) root2 ⟨?_, trivial, trivial⟩ ?_⟩
  · rw [view2]
    exact point_congr off1 _ hb
  · rw [view2, point_of_notMem hout, view1]
    obtain ⟨cell, hn⟩ := isSome_iff_exists.mp hnode
    simp [hn]
  · refine (nodup_plug _ _).mpr ⟨by simp, ((nodup_plug _ _).mp hnd).2.1, ?_⟩
    simpa using hout

end Moves

end Gp2xKernel.RbTree
