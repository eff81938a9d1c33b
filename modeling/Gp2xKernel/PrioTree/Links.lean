import Gp2xKernel.PrioTree.Basic

/-!
# What the pointer operations of `lib/prio_tree.c` do to the tree

A node without a neighbour points at itself, so `INIT_PRIO_TREE_NODE` makes a node a tree
of its own.  The operations are described at an arbitrary position of the whole tree, and
say which cells they leave alone: `prio_tree_expand` holds a chain of removed nodes next to
the tree while it edits the tree.

## Main results

* `prioTreeReplace_spec`: a node outside the tree takes the place of another.
* `attach_spec`: a tree of its own is hung below a node of another tree.
* `unlinkLeaf_spec`: a leaf leaves the tree.
-/

namespace Gp2xKernel.PrioTree

open Library LinkedTree List Heap

variable {α : Type} {w : ℕ} [DecidableEq α]

namespace Mem

/-- `get_index` with the flag of the root. -/
abbrev ix (m : Mem α w) : Entry w → Index w := getIndex m.root.raw

/-- The memory holds the tree below `root->prio_tree_node`. -/
def Holds (m : Mem α w) (t : LinkedTree α (Entry w)) : Prop :=
  Represents id m.heap m.root.prioTreeNode t

variable {m : Mem α w} {k : List (Frame α (Entry w))} {d : Side} {a b x : α}
  {A B : LinkedTree α (Entry w)} {v : Entry w}

omit [DecidableEq α] in
theorem Holds.cell (H : m.Holds (plug k (.join d A a v B))) :
    m.heap a = some (.join d ((top k).getD a) (A.addr?.getD a) (B.addr?.getD a) v) :=
  Represents.cell H

theorem assign_spec {f : Cell α (Entry w) → Cell α (Entry w)} (ha : (m.heap a).isSome) :
    ∃ m', m.assign a f = some m' ∧ m'.heap = m.heap.modify a f ∧ m'.root = m.root :=
  ⟨_, if_pos ha, rfl, rfl⟩

theorem setChild_spec (d : Side) (x : α) (ha : (m.heap a).isSome) :
    ∃ m', m.setChild d a x = some m' ∧ m'.heap = m.heap.modify a (.setChild d x) ∧
      m'.root = m.root :=
  assign_spec ha

theorem setParent_spec (x : α) (ha : (m.heap a).isSome) :
    ∃ m', m.setParent a x = some m' ∧ m'.heap = m.heap.modify a (.setParent x) ∧ m'.root = m.root :=
  assign_spec ha

end Mem

variable {a : α} {t A B : LinkedTree α (Entry w)} {c : Cell α (Entry w)} {f : Frame α (Entry w)}
  {v : Entry w}

theorem isSome_modify {h : Heap α (Entry w)} {b : α} {f : Cell α (Entry w) → Cell α (Entry w)} :
    (h.modify a f b).isSome = (h b).isSome := by
  rw [modify_apply]
  split <;> simp

omit [DecidableEq α] in
/-- The child pointers of a node tell an address below it from everything else. -/
theorem getD_ne {x : α} (hx : x ∉ t.addrs) (hax : a ≠ x) : t.addr?.getD a ≠ x := by
  cases ht : t.addr? with
  | none => exact hax
  | some b =>
    rintro rfl
    exact hx (addr?_mem ht)

variable {m : Mem α w} {k : List (Frame α (Entry w))} {x old : α}

/-! ## Trees of their own -/

/-- `INIT_PRIO_TREE_NODE` makes a node a tree of its own. -/
theorem init_spec (hx : m.heap x = some c) :
    ∃ m', m.initPrioTreeNode x = some m' ∧ m'.root = m.root ∧
      m'.heap x = some ⟨x, x, x, c.data⟩ ∧ (∀ b, b ≠ x → m'.heap b = m.heap b) ∧
      Represents id m'.heap (some x) (.node .nil x c.data .nil) := by
  obtain ⟨m', hrun, hheap, hroot⟩ := Mem.assign_spec (m := m) (a := x)
    (f := fun c => { c with left := x, right := x, parent := x }) (by simp [hx])
  have hcell : m'.heap x = some ⟨x, x, x, c.data⟩ := by simp [hheap, hx]
  refine ⟨m', hrun, hroot, hcell, fun b hb => ?_, rfl, ⟨hcell, trivial, trivial⟩, by simp⟩
  rw [hheap, modify_of_ne _ hb]

/-- Hanging a tree of its own in an empty position below a node of another tree. -/
theorem attach_spec {root : Option α} (H : Represents id m.heap root (plug (f :: k) .nil))
    (Ht : Represents id m.heap (some x) t) (hdisj : ∀ b ∈ t.addrs, b ∉ (plug (f :: k) .nil).addrs) :
    ∃ m1 m', m.setChild f.side f.addr x = some m1 ∧ m1.setParent x f.addr = some m' ∧
      m'.root = m.root ∧ (∀ b, b ≠ x → b ≠ f.addr → m'.heap b = m.heap b) ∧
      Represents id m'.heap root (plug (f :: k) t) := by
  have hf : (m.heap f.addr).isSome := by
    rw [Represents.cell H]
    rfl
  have hx : (m.heap x).isSome := Ht.holds.isSome (addr?_mem Ht.root_eq.symm)
  obtain ⟨m1, run1, heap1, root1⟩ := Mem.setChild_spec f.side x hf
  obtain ⟨m2, run2, heap2, root2⟩ := Mem.setParent_spec f.addr
    (by rw [heap1, isSome_modify]; exact hx)
  refine ⟨m1, m2, run1, run2, root2.trans root1, fun b hbx hbf => ?_, ?_⟩
  · rw [heap2, modify_of_ne _ hbx, heap1, modify_of_ne _ hbf]
  · rw [heap2, heap1]
    exact H.attach Ht hdisj

/-- Taking a leaf below another node out of the tree. -/
theorem unlinkLeaf_spec (H : m.Holds (plug (f :: k) (.node .nil x v .nil))) :
    ∃ m' p, m.heap f.addr = some p ∧
      (if p.right = x then m.setChild .right f.addr f.addr
        else m.setChild .left f.addr f.addr) = some m' ∧
      m'.root = m.root ∧ (∀ b, b ≠ f.addr → m'.heap b = m.heap b) ∧
      m'.Holds (plug (f :: k) .nil) := by
  have hcell := Mem.Holds.cell H
  obtain ⟨-, hndk, hout⟩ := (nodup_plug _ _).mp H.nodup
  have hxf := hout x (by simp)
  simp only [mem_around_cons, not_or] at hxf
  obtain ⟨m', hrun, hheap, hroot⟩ :=
    Mem.setChild_spec (m := m) (a := f.addr) f.side f.addr (by simp [hcell])
  refine ⟨m', _, hcell, ?_, hroot, fun b hb => ?_, ?_⟩
  · -- the right pointer of the parent is `x` exactly if the leaf is a right child
    rcases f with ⟨d, p, u, s⟩
    cases d with
    | left => exact (if_neg (getD_ne hxf.2.1 (Ne.symm hxf.1))).trans hrun
    | right => exact (if_pos rfl).trans hrun
  · rw [hheap, modify_of_ne _ hb]
  · refine Represents.replace H (fun b hb => by rw [hheap]; rfl) (by rw [hroot]; rfl) trivial ?_
    exact (nodup_plug _ _).mpr ⟨by simp, hndk, by simp⟩

/-! ## `prio_tree_replace` -/

/-- Moving one child of `old` below `x`, which has no child on that side yet. -/
theorem moveChild_spec (d : Side) {o : Cell α (Entry w)} (ho : m.heap old = some o)
    (hchild : o.child d = A.addr?.getD old) (hold : old ∉ A.addrs) (hx : m.heap x = some c)
    (hself : c.child d = x) (hxA : x ∉ A.addrs) (hA : ∀ b ∈ A.addrs, (m.heap b).isSome) :
    ∃ m', moveChild d m old x = some m' ∧ m'.root = m.root ∧
      m'.heap x = some (c.setChild d (A.addr?.getD x)) ∧
      ∀ b, b ≠ x → m'.heap b = adopt id A (some x) m.heap b := by
  cases A with
  | nil =>
    refine ⟨m, ?_, rfl, ?_, fun b _ => rfl⟩
    · simp [moveChild, ho, hchild]
    · -- a node without a child on this side already points at itself
      rw [hx, ← hself]
      cases d <;> rfl
  | node l a v r =>
    have hao : a ≠ old := by
      rintro rfl
      exact hold (by simp)
    have hxa : x ≠ a := by
      rintro rfl
      exact hxA (by simp)
    obtain ⟨m1, run1, heap1, root1⟩ := Mem.setChild_spec (m := m) (a := x) d a (by simp [hx])
    obtain ⟨m2, run2, heap2, root2⟩ := Mem.setParent_spec x
      (by rw [heap1, isSome_modify]; exact hA a (by simp))
    refine ⟨m2, ?_, root2.trans root1, ?_, fun b hb => ?_⟩
    · simp [moveChild, ho, hchild, hao, run1, run2]
    · rw [heap2, modify_of_ne _ hxa, heap1, modify_self, hx]
      rfl
    · show m2.heap b = m.heap.modify a _ b
      rw [heap2, modify_apply, heap1, modify_of_ne _ hb]
      rfl

/-- The parent of `old`, or the root, points at `x` instead, and `x` at that parent. -/
theorem replaceAbove_spec {m0 : Mem α w} (H : m0.Holds (plug k (.node A old v B)))
    (hroot : m.root = m0.root) (hheap : ∀ b, b ≠ x → m.heap b = m0.heap b) {c : Entry w}
    (hx : m.heap x = some ⟨x, x, x, c⟩) (hfresh : x ∉ (plug k (.node A old v B)).addrs) :
    ∃ m', replaceAbove m old x = some m' ∧
      m'.root = { m.root with prioTreeNode := pointRoot k (some x) m.root.prioTreeNode } ∧
      m'.heap x = some ⟨(top k).getD x, x, x, c⟩ ∧
      ∀ b, b ≠ x → m'.heap b = point id k (some x) m0.heap b := by
  rw [mem_addrs_plug] at hfresh
  simp only [addrs_node, mem_append, mem_cons, not_or] at hfresh
  obtain ⟨⟨-, hxo, -⟩, hxk⟩ := hfresh
  have hold := (hheap old (Ne.symm hxo)).trans (Mem.Holds.cell (d := .left) H)
  cases k with
  | nil =>
    have hr : m.root.prioTreeNode = some old := by rw [hroot]; exact H.root_eq
    obtain ⟨m1, run1, heap1, root1⟩ := Mem.setParent_spec (m := m) (a := x) x (by simp [hx])
    refine ⟨{ m1 with root := { m1.root with prioTreeNode := some x } }, ?_, ?_, ?_, fun b hb => ?_⟩
    · simp [replaceAbove, hold, Cell.join, hr, run1]
    · rw [root1]
      rfl
    · show m1.heap x = _
      rw [heap1, modify_self, hx]
      rfl
    · show m1.heap b = m0.heap b
      rw [heap1, modify_of_ne _ hb, hheap b hb]
  | cons f k =>
    have hof : old ≠ f.addr := by
      rintro rfl
      exact ((nodup_plug _ _).mp H.nodup).2.2 f.addr (by simp) (by simp)
    have hosib : old ∉ f.sibling.addrs := fun h =>
      ((nodup_plug _ _).mp H.nodup).2.2 old (by simp) (by simp [h])
    have hxf : f.addr ≠ x := by
      rintro rfl
      exact hxk (by simp)
    obtain ⟨m1, run1, heap1, root1⟩ :=
      Mem.setParent_spec (m := m) (a := x) f.addr (by simp [hx])
    have hp : m1.heap f.addr = m0.heap f.addr := by
      rw [heap1, modify_of_ne _ hxf, hheap _ hxf]
    have hcell := Mem.Holds.cell H
    obtain ⟨m2, run2, heap2, root2⟩ :=
      Mem.setChild_spec (m := m1) (a := f.addr) f.side x (by simp [hp, hcell])
    refine ⟨m2, ?_, by rw [root2, root1]; rfl, ?_, fun b hb => ?_⟩
    · -- the left pointer of the parent is `old` exactly if `old` is a left child
      have hside : ∀ p, m1.heap f.addr = some p →
          (if p.left = old then m1.setChild .left f.addr x else m1.setChild .right f.addr x) =
            some m2 := by
        intro p hp'
        obtain rfl := Option.some.inj ((hp'.symm.trans hp).trans hcell)
        rcases f with ⟨d, p, u, s⟩
        cases d with
        | left => exact (if_pos rfl).trans run2
        | right => exact (if_neg (getD_ne hosib hof.symm)).trans run2
      obtain ⟨p, hp'⟩ : ∃ p, m1.heap f.addr = some p := ⟨_, hp.trans hcell⟩
      simp [replaceAbove, hold, Cell.join, hof.symm, run1, hp', hside p hp']
    · rw [heap2, modify_of_ne _ hxf.symm, heap1, modify_self, hx]
      rfl
    · show m2.heap b = m0.heap.modify f.addr _ b
      rw [heap2, modify_apply, heap1, modify_of_ne _ hb, hheap b hb]
      rfl

/-- **`prio_tree_replace`.**  A node outside the tree takes the place of `old`, with its own
interval; the cell of `old` and everything outside the tree stay as they are. -/
theorem prioTreeReplace_spec (H : m.Holds (plug k (.node A old v B))) (hx : m.heap x = some c)
    (hfresh : x ∉ (plug k (.node A old v B)).addrs) :
    ∃ m', prioTreeReplace m old x = some (m', old) ∧ m'.Holds (plug k (.node A x c.data B)) ∧
      m'.root.indexBits = m.root.indexBits ∧ m'.root.raw = m.root.raw ∧
      m'.heap old = m.heap old ∧
      ∀ b, b ∉ (plug k (.node A old v B)).addrs → b ≠ x → m'.heap b = m.heap b := by
  obtain ⟨hctx, hsub, hnd⟩ := (represents_plug _ _).mp H
  obtain ⟨hold, hA, hB⟩ := hsub
  obtain ⟨hnd1, hndk, hout⟩ := (nodup_plug _ _).mp hnd
  have hnd1' := (nodup_join .left A B old v).mp hnd1
  obtain ⟨m1, run1, root1, cell1, off1, -⟩ := init_spec hx
  obtain ⟨m2, run2, root2, cell2, off2⟩ := replaceAbove_spec H root1 off1 cell1 hfresh
  rw [mem_addrs_plug] at hfresh
  simp only [addrs_node, mem_append, mem_cons, not_or] at hfresh hout
  obtain ⟨⟨hxA, hxo, hxB⟩, hxk⟩ := hfresh
  have off2' : ∀ b, b ≠ x → b ∉ around k → m2.heap b = m.heap b := fun b hbx hbk => by
    rw [off2 b hbx, point_of_notMem hbk]
  have old2 : m2.heap old = m.heap old := off2' old (Ne.symm hxo) (hout old (by simp))
  -- the two subtrees
  obtain ⟨m3, run3, root3, cell3, off3⟩ := moveChild_spec .left (old2.trans hold) rfl
    hnd1'.1 cell2 rfl hxA fun b hb => by
      rw [off2' b (ne_of_mem_of_not_mem hb hxA) (hout b (.inl hb))]
      exact hA.isSome hb
  have off3' : ∀ b, b ≠ x → b ∉ A.addrs → m3.heap b = m2.heap b := fun b hbx hbA => by
    rw [off3 b hbx, adopt_of_notMem hbA]
  have old3 : m3.heap old = m.heap old := (off3' old (Ne.symm hxo) hnd1'.1).trans old2
  obtain ⟨m4, run4, root4, cell4, off4⟩ := moveChild_spec .right (old3.trans hold) rfl
    hnd1'.2.1 cell3 rfl hxB fun b hb => by
      have hbx := ne_of_mem_of_not_mem hb hxB
      rw [off3' b hbx fun h => hnd1'.2.2.2.2 b h hb, off2' b hbx (hout b (.inr (.inr hb)))]
      exact hB.isSome hb
  have off4' : ∀ b, b ≠ x → b ∉ B.addrs → m4.heap b = m3.heap b := fun b hbx hbB => by
    rw [off4 b hbx, adopt_of_notMem hbB]
  refine ⟨m4, ?_, Represents.replace H (fun b hb => ?_) ?_ ⟨?_, ?_, ?_⟩ ?_, ?_, ?_, ?_,
    fun b hb hbx => ?_⟩
  · simp [prioTreeReplace, run1, run2, run3, run4]
  · have hbx : b ≠ x := ne_of_mem_of_not_mem hb hxk
    rw [off4' b hbx fun h => hout b (.inr (.inr h)) hb, off3' b hbx fun h => hout b (.inl h) hb,
      off2 b hbx]
    rfl
  · rw [root4, root3, root2, root1]
    rfl
  · rw [cell4]
    rfl
  · refine hA.reparent hnd1'.2.2.1 fun b hb => ?_
    have hbx := ne_of_mem_of_not_mem hb hxA
    rw [off4' b hbx (hnd1'.2.2.2.2 b hb), off3 b hbx]
    exact adopt_congr (fun b hb => off2' b (ne_of_mem_of_not_mem hb hxA) (hout b (.inl hb))) _ hb
  · refine hB.reparent hnd1'.2.2.2.1 fun b hb => ?_
    rw [off4 b (ne_of_mem_of_not_mem hb hxB)]
    refine adopt_congr (fun b hb => ?_) _ hb
    have hbx := ne_of_mem_of_not_mem hb hxB
    rw [off3' b hbx fun h => hnd1'.2.2.2.2 b h hb, off2' b hbx (hout b (.inr (.inr hb)))]
  · refine (nodup_plug _ _).mpr ⟨?_, hndk, ?_⟩
    · exact (nodup_join .left A B x c.data).mpr ⟨hxA, hxB, hnd1'.2.2⟩
    · intro b hb
      simp only [addrs_node, mem_append, mem_cons] at hb
      rcases hb with hb | rfl | hb
      · exact hout b (.inl hb)
      · exact hxk
      · exact hout b (.inr (.inr hb))
  · rw [root4, root3, root2, root1]
  · rw [root4, root3, root2, root1]
  · rw [off4' old (Ne.symm hxo) hnd1'.2.1, old3]
  · rw [mem_addrs_plug] at hb
    simp only [addrs_node, mem_append, mem_cons, not_or] at hb
    rw [off4' b hbx hb.1.2.2, off3' b hbx hb.1.1, off2' b hbx hb.2]

end Gp2xKernel.PrioTree
