import Gp2xKernel.RbTree.Insert

/-!
# `rb_erase` restores the red-black invariant

Taking a black node out leaves a position whose subtree is one black node short of what
the context expects.  The loop of `__rb_erase_color` works at such a `Deficient` position.
One turn either repairs the tree by a rotation and leaves the loop, or paints the sibling
red and moves the position to the parent; a red node at the position is painted black and
ends the loop.

## Main results

* `eraseFix_spec`: what one turn of the loop does.
* `rbEraseColor_spec`: `__rb_erase_color` makes the tree red-black.
* `rbErase_spec`: `rb_erase` removes exactly the given node.
-/

namespace Gp2xKernel.RbTree

open Library Mem LinkedTree List
open Mem.Holds (setBlack cell redAt)

variable {w : ℕ} {m : Mem w} {k : List (Frame (Ptr w) Color)}

/-- The subtree at a position is one black node short: it is black, or it is a red node
whose children may be red. -/
inductive Deficient (n : ℕ) : LinkedTree (Ptr w) Color → Prop
  | black {s : LinkedTree (Ptr w) Color} (hc : color s = .black) (hs : Sound n s) : Deficient n s
  | red {d : Side} {x y : LinkedTree (Ptr w) Color} {a : Ptr w} (hx : Sound n x) (hy : Sound n y) :
      Deficient n (.join d x a .red y)

variable {t : LinkedTree (Ptr w) Color}

/-- `root->rb_node` is the address of the root. -/
theorem Mem.Holds.rbNode_eq (H : m.Holds t) : m.rbNode = t.addr?.getD null := by
  have hroot := H.root_eq
  simp only [root] at hroot
  split at hroot <;> simp_all [← hroot]

variable {s : LinkedTree (Ptr w) Color}

/-- Below the root, the pointer at a position differs from the root pointer. -/
theorem Mem.Holds.ne_rbNode {f : Frame (Ptr w) Color}
    (H : m.Holds (plug (f :: k) s)) : s.addr?.getD null ≠ m.rbNode := by
  have hroot : ∃ b ∈ around (f :: k), m.rbNode = b := by
    obtain ⟨b, hb, h⟩ : ∃ b ∈ around (f :: k), (plug (f :: k) s).addr? = some b := by
      clear H
      induction k generalizing f s with
      | nil => exact ⟨f.addr, by simp, by simp⟩
      | cons f' k ih =>
        obtain ⟨b, hb, h⟩ := ih
        exact ⟨b, (mem_around_cons ..).mpr (.inr (.inr hb)), h⟩
    exact ⟨b, hb, by rw [H.rbNode_eq, h]; rfl⟩
  obtain ⟨b, hb, hroot⟩ := hroot
  rw [hroot]
  cases hs : s.addr? with
  | none =>
    refine (H.ne_null ?_).symm
    rw [addrs_plug]
    simp only [around, mem_append] at hb ⊢
    tauto
  | some a =>
    rintro rfl
    exact ((nodup_plug _ _).mp H.nodup).2.2 _ (addr?_mem hs) hb

theorem Sound.deficient {n : ℕ} (hs : Sound n s) : Deficient n s := by
  by_cases hc : color s = .red
  · obtain ⟨A, a, B, rfl, hA, hB, -⟩ := hs.exists_red hc .left
    exact .red hA hB
  · exact .black (Color.ne_red_iff.mp hc) hs

variable [Fact (0 < w)]

/-- `if (p) rb_set_black(p)` on the root of a tree, which is black already. -/
theorem Mem.Holds.setBlackIf (H : m.Holds t) (hc : color t = .black) :
    ∃ m', m.setBlackIf m.rbNode = some m' ∧ m'.Holds t := by
  rw [H.rbNode_eq]
  cases t with
  | nil => exact ⟨m, if_neg (by simp), H⟩
  | node l a c r =>
    obtain rfl : c = .black := hc
    obtain ⟨m', hrun, H'⟩ := setBlack (k := []) (d := .left) H
    have hne : a ≠ null := H.ne_null (by simp)
    exact ⟨m', (if_pos hne).trans hrun, H'⟩

/-! ## One turn of the loop -/

section Turn

variable {d : Side} {p : Ptr w} {c : Color} {s O : LinkedTree (Ptr w) Color} {n : ℕ}

/-- A red sibling is rotated above the parent, whose far child is then black. -/
theorem eraseRedSibling_spec (H : m.Holds (plug k (.join d s p c O))) (hO : Sound (n + 1) O)
    (hc : c = .red → color O = .black ∧ topColor k = .black)
    (hk : ContextSound (n + 1 + c.weight) k) :
    ∃ m' o k' c' O', eraseRedSibling d m p (O.addr?.getD null) = some (m', o) ∧
      m'.Holds (plug k' (.join d s p c' O')) ∧ O'.addr? = some o ∧ Sound (n + 1) O' ∧
      color O' = .black ∧ (c' = .red → topColor k' = .black) ∧
      ContextSound (n + 1 + c'.weight) k' ∧ (k' = k ∨ c' = .red) ∧
      (plug k' (.join d s p c' O')).addrs = (plug k (.join d s p c O)).addrs := by
  have Ho := H.far
  cases hOc : color O with
  | red =>
    obtain rfl : c = .black := by
      rw [← Color.ne_red_iff]
      exact fun h => absurd ((hc h).1.symm.trans hOc) (by decide)
    obtain ⟨B, o, C, rfl, hB, hC, hBc, -⟩ := hO.exists_red hOc d
    have ho := Ho.cell
    obtain ⟨m1, run1, H1⟩ := Ho.setBlack
    rw [plug_far] at H1
    obtain ⟨m2, run2, H2⟩ := H1.setRed
    obtain ⟨m3, run3, H3⟩ := rbRotate_spec H2
    have hp := cell (k := ⟨d, o, .black, C⟩ :: k) H3
    obtain ⟨b, hb⟩ : ∃ b, B.addr? = some b := by
      cases hb : B.addr? with
      | none => exact absurd (addr?_eq_none hb) hB.ne_nil
      | some b => exact ⟨b, rfl⟩
    refine ⟨m3, b, ⟨d, o, .black, C⟩ :: k, .red, B, ?_, H3, hb, hB, hBc, fun _ => rfl,
      ⟨hC, by simp, hk⟩, .inr rfl, addrs_plug_congr ?_ k⟩
    · simp [eraseRedSibling, rbColor_eq, ho, run1, run2, run3, child_eq, hp, hb]
    · cases d <;> simp [join]
  | black =>
    obtain ⟨B, o, C, rfl, -⟩ := hO.exists_black hOc d
    have ho := Ho.cell
    refine ⟨m, o, k, c, _, ?_, H, by simp, hO, hOc, fun h => (hc h).2, hk, .inl rfl, rfl⟩
    simp [eraseRedSibling, rbColor_eq, ho]

variable {o : Ptr w} {B C : LinkedTree (Ptr w) Color}

section

variable (H : m.Holds (plug k (.join d s p c (.join d B o .black C))))
include H

/-- A red inner nephew is rotated above the sibling, whose outer child is then red. -/
theorem eraseInnerNephew_spec (hB : Sound n B) (hC : Sound n C)
    (hred : color B = .red ∨ color C = .red) :
    ∃ m' o' B' C', eraseInnerNephew d m p o = some (m', o') ∧
      m'.Holds (plug k (.join d s p c (.join d B' o' .black C'))) ∧ Sound n B' ∧ Sound n C' ∧
      color C' = .red ∧
      (LinkedTree.join d B' o' .black C').addrs = (LinkedTree.join d B o .black C).addrs := by
  have Ho := H.far
  have ho := Ho.cell
  have hCred := Ho.far.redAt
  cases hCc : color C with
  | red =>
    refine ⟨m, o, B, C, ?_, H, hB, hC, hCc, rfl⟩
    simp [eraseInnerNephew, child_eq, ho, hCred, hCc]
  | black =>
    obtain ⟨B1, b, B2, rfl, h1, h2, -, h2c⟩ := hB.exists_red (by simpa [hCc] using hred) d
    obtain ⟨m1, run1, H1⟩ := setBlack (k := ⟨d, o, .black, C⟩ :: ⟨d.flip, p, c, s⟩ :: k) Ho
    have hb : b ≠ null := H.ne_null (by simp [addrs_plug])
    obtain ⟨m2, run2, H2⟩ := Mem.Holds.setRed (k := ⟨d.flip, p, c, s⟩ :: k) H1
    -- seen from the outer side, the inner nephew is the far child of the sibling
    have H2' : m2.Holds (plug (⟨d.flip, p, c, s⟩ :: k)
        (.join d.flip C o .red (.join d.flip B2 b .black B1))) := by
      rw [join_flip, join_flip]
      exact H2
    obtain ⟨m3, run3, H3⟩ := rbRotate_spec H2'
    rw [join_flip, join_flip, plug_far] at H3
    have hp := H3.cell
    refine ⟨m3, b, B1, .join d B2 o .red C, ?_, H3, h1, sound_red.mpr ⟨h2, hC, h2c, hCc⟩, by simp,
      ?_⟩
    · simp [eraseInnerNephew, child_eq, ho, hCred, hCc, Mem.setBlackIf, hb, run1, run2, run3, hp]
    · cases d <;> simp [join]

/-- With a red outer nephew, the last rotation gives the position its missing black node. -/
theorem eraseRotate_spec (hs : Sound n s) (hB : Sound n B) (hC : Sound n C) (hred : color C = .red)
    (hc : c = .red → topColor k = .black) (hk : ContextSound (n + 1 + c.weight) k) :
    Leaves (eraseRotate d m p o) (plug k (.join d s p c (.join d B o .black C))).addrs := by
  obtain ⟨C1, e, C2, rfl, h1, h2, -⟩ := hC.exists_red hred d
  have hp := H.cell
  obtain ⟨m1, run1, H1⟩ := H.far.assignColor (RbNode.cell_rbSetColor c)
  rw [plug_far] at H1
  obtain ⟨m2, run2, H2⟩ := H1.setBlack
  have ho := H2.far.cell
  obtain ⟨m3, run3, H3⟩ := H2.far.far.setBlack
  rw [plug_far, plug_far] at H3
  have hne : e ≠ null := H.ne_null (by simp [addrs_plug])
  obtain ⟨m4, run4, H4⟩ := rbRotate_spec H3
  refine ⟨m4, _, ?_, H4, redBlack_plug.mpr ⟨_, hk, ?_, by simpa using hc⟩, addrs_plug_congr ?_ k⟩
  · simp [eraseRotate, rbColor_eq, hp, Mem.rbSetColor, run1, run2, child_eq, ho,
      Mem.setBlackIf, hne,
      run3, run4]
  · exact sound_join.mpr ⟨n + 1, sound_black.mpr ⟨hs, hB⟩, sound_black.mpr ⟨h1, h2⟩, rfl, by simp⟩
  · cases d <;> simp [join]

end

omit [Fact (0 < w)] in
/-- The test whether both children of the sibling are black. -/
theorem nephews_black {c' : Color} (H : m.Holds (plug k (.join d s p c (.join d B o c' C)))) :
    ∃ l r bl br, m.child .left o = some l ∧ m.child .right o = some r ∧
      m.redAt l = some bl ∧ m.redAt r = some br ∧
      (bl = false ∧ br = false ↔ color B = .black ∧ color C = .black) := by
  have Ho := H.far
  have ho := Ho.cell
  have hB := redAt (k := ⟨d, o, c', C⟩ :: ⟨d.flip, p, c, s⟩ :: k) Ho
  have hC := Ho.far.redAt
  cases d with
  | left =>
    refine ⟨_, _, _, _, ?_, ?_, hB, hC, by simp [← Color.ne_red_iff]⟩ <;> rw [child_eq, ho] <;> rfl
  | right =>
    refine ⟨_, _, _, _, ?_, ?_, hC, hB, by simp [← Color.ne_red_iff, and_comm]⟩ <;>
      rw [child_eq, ho] <;> rfl

omit [Fact (0 < w)] in
theorem addrs_paint_far (u v : Color) :
    (plug k (.join d s p c (.join d B o v C))).addrs =
      (plug k (.join d s p c (.join d B o u C))).addrs :=
  addrs_plug_congr (by cases d <;> simp [join]) k

/-- **One turn of the loop of `__rb_erase_color`.**  Either the position moves to the
parent, still one black node short, or the loop is left with a red-black tree. -/
theorem eraseFix_spec (H : m.Holds (plug k (.join d s p c O))) (hs : Sound n s)
    (hO : Sound (n + 1) O) (hc : c = .red → color O = .black ∧ topColor k = .black)
    (hk : ContextSound (n + 1 + c.weight) k) :
    (∃ m' k' s' n', eraseFix d m p = some (m', p, some ((top k').getD null)) ∧
      m'.Holds (plug k' s') ∧ s'.addr? = some p ∧ Deficient n' s' ∧ ContextSound (n' + 1) k' ∧
      (k' = k ∨ color s' = .red) ∧ (plug k' s').addrs = (plug k (.join d s p c O)).addrs) ∨
    (∃ m' t', eraseFix d m p = some (m', m'.rbNode, none) ∧ m'.Holds t' ∧ RedBlack t' ∧
      t'.addrs = (plug k (.join d s p c O)).addrs) := by
  have hp := H.cell
  have hother : m.child d.flip p = some (O.addr?.getD null) := by simp [child_eq, hp]
  obtain ⟨m1, o, k', c', O', run1, H1, ho, hO', hOc, hc', hk', hor, hnodes⟩ :=
    eraseRedSibling_spec H hO hc hk
  obtain ⟨B, o', C, rfl, hB, hC⟩ := hO'.exists_black hOc d
  obtain rfl : o' = o := by simpa using ho
  obtain ⟨l, r, bl, br, hl, hr, hbl, hbr, hboth⟩ := nephews_black H1
  by_cases hBC : color B = .black ∧ color C = .black
  · -- both nephews are black: paint the sibling red and go on at the parent
    obtain ⟨m2, run2, H2⟩ := H1.far.setRed
    rw [plug_far] at H2
    have hp2 := H2.cell
    have hred : Sound n (.join d B o' .red C) := sound_red.mpr ⟨hB, hC, hBC.1, hBC.2⟩
    have hrun : eraseFix d m p = some (m2, p, some ((top k').getD null)) := by
      obtain ⟨rfl, rfl⟩ := hboth.mpr hBC
      simp [eraseFix, hother, run1, hl, hr, hbl, hbr, run2, rbParent_eq, hp2]
    left
    cases c' with
    | red =>
      exact ⟨m2, k', _, n, hrun, H2, by simp, .red hs hred, hk', .inr (by simp),
        (addrs_paint_far _ _).trans hnodes⟩
    | black =>
      obtain rfl : k' = k := by simpa using hor
      exact ⟨m2, k', _, n + 1, hrun, H2, by simp, .black (by simp) (sound_black.mpr ⟨hs, hred⟩),
        hk', .inl rfl, (addrs_paint_far _ _).trans hnodes⟩
  · right
    have hred : color B = .red ∨ color C = .red := by
      cases hb : color B <;> cases hc : color C <;> simp_all
    obtain ⟨m2, o2, B2, C2, run2, H2, hB2, hC2, hC2c, hnodes2⟩ :=
      eraseInnerNephew_spec H1 hB hC hred
    obtain ⟨m3, t', run3, H3, hrb, hnodes3⟩ := eraseRotate_spec H2 hs hB2 hC2 hC2c hc' hk'
    refine ⟨m3, t', ?_, H3, hrb, ?_⟩
    · have hnot : ¬ (bl = false ∧ br = false) := fun h => hBC (hboth.mp h)
      simp [eraseFix, hother, run1, hl, hr, hbl, hbr, hnot, run2, run3]
    · rw [hnodes3, ← hnodes]
      refine addrs_plug_congr ?_ k'
      cases d with
      | left => exact congrArg (fun q => s.addrs ++ p :: q) hnodes2
      | right => exact congrArg (fun q => q ++ p :: s.addrs) hnodes2

end Turn

/-! ## The whole loop -/

section Loop

variable {s : LinkedTree (Ptr w) Color} {n : ℕ}

/-- At a red node the loop is not entered; the node is painted black. -/
theorem rbEraseColor_red (turns : ℕ) (H : m.Holds (plug k s)) (hs : Deficient n s)
    (hc : color s = .red) (hk : ContextSound (n + 1) k) (parent : Ptr w) :
    Leaves (rbEraseColor (turns + 1) m (s.addr?.getD null) parent) (plug k s).addrs := by
  cases hs with
  | black hb => exact absurd (hb.symm.trans hc) (by decide)
  | @red d x y a hx hy =>
    have hred := H.redAt
    obtain ⟨m', hrun, H'⟩ := H.setBlack
    have hne : a ≠ null := H.ne_null (by simp [addrs_plug])
    refine ⟨m', _, ?_, H', redBlack_plug.mpr ⟨_, hk, sound_black.mpr ⟨hx, hy⟩, by simp⟩,
      addrs_plug_congr ?_ k⟩
    · simp only [addr?_join, Option.getD_some] at hred
      simp [rbEraseColor, hred, Mem.setBlackIf, hne, hrun]
    · cases d <;> rfl

/-- **`__rb_erase_color` restores the invariant** at a position that is one black node
short. -/
theorem rbEraseColor_spec (turns : ℕ) (H : m.Holds (plug k s)) (hs : Deficient n s)
    (hk : ContextSound (n + 1) k) (hturns : k.length + 1 < turns) :
    Leaves (rbEraseColor turns m (s.addr?.getD null) ((top k).getD null)) (plug k s).addrs := by
  induction turns generalizing m k s n with
  | zero => omega
  | succ turns ih =>
    by_cases hred : color s = .red
    · exact rbEraseColor_red turns H hs hred hk _
    have hblack := H.redAt
    simp only [hred, decide_false] at hblack
    replace hs : Sound n s := by
      cases hs with
      | black _ hs => exact hs
      | red => exact absurd (color_join ..) hred
    cases k with
    | nil =>
      -- at the root the tree as a whole is one black node lower
      have hroot := H.rbNode_eq
      rw [plug_nil] at hroot
      have hrb : RedBlack s := ⟨Color.ne_red_iff.mp hred, hs.1, _, hs.2⟩
      obtain ⟨m', hrun, H'⟩ := H.setBlackIf hrb.root_black
      rw [hroot] at hrun
      refine ⟨m', s, ?_, H', hrb, rfl⟩
      simp [rbEraseColor, hblack, hroot, hrun]
    | cons f k =>
      obtain ⟨hO, hc, hk⟩ := hk
      have hroot := H.ne_rbNode
      obtain ⟨q, hq, hside⟩ := H.side_eq (.inr hO.ne_nil)
      simp only [eq_comm (a := s.addr?.getD null)] at hside
      have hlt : k.length + 1 < turns := by
        simp only [length_cons] at hturns
        omega
      rcases eraseFix_spec H hs hO hc hk with
        ⟨m1, k1, s1, n1, hrun, H1, hp, hs1, hk1, hor, hnodes⟩ | ⟨m1, t, hrun, H1, hrb, hnodes⟩
      · -- the position moves up
        have hrec :
            Leaves (rbEraseColor turns m1 f.addr ((top k1).getD null)) (plug k1 s1).addrs := by
          have haddr : f.addr = s1.addr?.getD null := by rw [hp]; rfl
          rw [haddr]
          rcases hor with rfl | hred1
          · exact ih H1 hs1 hk1 hlt
          · obtain ⟨turns, rfl⟩ := Nat.exists_eq_add_of_lt hlt
            exact rbEraseColor_red _ H1 hs1 hred1 hk1 _
        obtain ⟨m', t', hrun', H', hrb', hnodes'⟩ := hrec
        refine ⟨m', t', ?_, H', hrb', hnodes'.trans hnodes⟩
        simp [rbEraseColor, hblack, hroot, hq, hside, hrun, hrun']
      · -- the loop is left; the root is painted black, which it is already
        obtain ⟨m', hrun', H'⟩ := H1.setBlackIf hrb.root_black
        refine ⟨m', t, ?_, H', hrb, hnodes⟩
        simp [rbEraseColor, hblack, hroot, hq, hside, hrun, hrun']

end Loop

/-! ## Taking a node out -/

section Removal

variable {s : LinkedTree (Ptr w) Color} {d : Side} {x : Ptr w} {c : Color} {n : ℕ} (turns : ℕ)

/-- Once a node with one child is spliced out, `__rb_erase_color` is called if it was
black. -/
theorem recolor_spec (H : m.Holds (plug k s)) (hs : Sound n s) (hk : ContextSound (n + c.weight) k)
    (hc : c = .red → color s = .black) (hturns : k.length + 1 < turns) :
    Leaves (if c = .black then rbEraseColor turns m (s.addr?.getD null) ((top k).getD null)
        else some m) (plug k s).addrs := by
  cases c with
  | red =>
    refine ⟨m, _, if_neg (by decide), H, redBlack_plug.mpr ⟨n, hk, hs, fun h => ?_⟩, rfl⟩
    exact absurd ((hc rfl).symm.trans h) (by decide)
  | black =>
    exact rbEraseColor_spec turns H hs.deficient hk hturns

theorem eraseOnlyChild_spec (H : m.Holds (plug k (.join d s x c .nil)))
    (hrb : RedBlack (plug k (.join d s x c .nil))) (hturns : k.length + 1 < turns) :
    Leaves (eraseOnlyChild turns m x (s.addr?.getD null)) (plug k s).addrs := by
  have hx := H.cell
  obtain ⟨hctx, hsub, hnd⟩ := (represents_plug _ _).mp H
  obtain ⟨-, hs, -⟩ := (holds_join d).mp hsub
  obtain ⟨hnd1, -, hout⟩ := (nodup_plug _ _).mp hnd
  simp only [nodup_join, mem_addrs_join] at hnd1 hout
  -- the pointers
  obtain ⟨m1, run1, view1, root1⟩ :=
    setParentIf_spec (fun b hb => hs.isSome hb) (top k)
  have off1 : ∀ b ∈ around k, m1.view b = m.view b := fun b hb => by
    rw [view1, adopt_of_notMem (by grind)]
  obtain ⟨m2, run2, view2, root2⟩ := changeChild_spec .left x (m := m1)
    (y := s.addr?) (ne_null_of_view hx)
    (by simpa [root_congr root1] using hctx.congr off1) (by grind)
    (fun b hb => H.ne_null (by simp [addrs_plug, addr?_mem hb]))
  have H2 : m2.Holds (plug k s) :=
    splice_spec H view1 view2 (by rw [root2, root_congr root1])
  -- the colours
  obtain ⟨n', hk, hsound, -⟩ := redBlack_plug.mp hrb
  obtain ⟨n, hs', -, rfl, hc⟩ := sound_join.mp hsound
  obtain ⟨m3, t', run3, H3, hrb', hnodes⟩ :=
    recolor_spec turns H2 hs' hk (fun h => (hc h).1) hturns
  refine ⟨m3, t', ?_, H3, hrb', hnodes⟩
  simp [eraseOnlyChild, rbParent_eq, rbColor_eq, hx, run1, run2, run3]

variable {l r A : LinkedTree (Ptr w) Color} {kk : List (Frame (Ptr w) Color)} {a y : Ptr w}

section

omit [Fact (0 < w)]

/-- The walk down the left children ends at the first node of the subtree. -/
theorem leftmost_spec (H : m.Holds (plug k (.node l x c r))) (hturns : l.addrs.length < turns) :
    ∃ kk y cy yr, leftmost turns m x = some y ∧
      LinkedTree.node l x c r = plug kk (.node .nil y cy yr) ∧ ∀ f ∈ kk, f.side = .left := by
  induction l generalizing turns k x c r with
  | nil =>
    obtain ⟨turns, rfl⟩ := Nat.exists_eq_add_of_lt hturns
    have hx := cell (d := .left) H
    refine ⟨[], x, c, r, ?_, rfl, by simp⟩
    simp [leftmost, child_eq, hx, Cell.join, Cell.child]
  | node ll a cl lr ihl ihr =>
    obtain ⟨turns, rfl⟩ := Nat.exists_eq_add_of_lt hturns
    have hx := cell (d := .left) H
    have ha : a ≠ null := H.ne_null (by simp [addrs_plug])
    obtain ⟨kk, y, cy, yr, hrun, heq, hleft⟩ := ihl
      ((node ll a cl lr).addrs.length + turns) (k := ⟨.left, x, c, r⟩ :: k) H (by simp; omega)
    refine ⟨kk ++ [⟨.left, x, c, r⟩], y, cy, yr, ?_, ?_, ?_⟩
    · simpa [leftmost, child_eq, hx, Cell.join, Cell.child, ha] using hrun
    · rw [plug_append, ← heq]
      rfl
    · intro f hf
      rcases mem_append.mp hf with hf | hf
      · exact hleft f hf
      · simp_all

/-- The soundness of a context does not depend on the addresses of its nodes. -/
theorem contextSound_readdress {b : Ptr w} (h : ContextSound n (kk ++ ⟨d, a, c, A⟩ :: k)) :
    ContextSound n (kk ++ ⟨d, b, c, A⟩ :: k) := by
  induction kk generalizing n with
  | nil => exact h
  | cons f kk ih =>
    obtain ⟨hsib, hred, hk⟩ := h
    refine ⟨hsib, fun hf => ⟨(hred hf).1, ?_⟩, ih hk⟩
    have := (hred hf).2
    cases kk <;> exact this

/-- A context of left frames has nothing before its hole. -/
theorem before_eq_nil (h : ∀ f ∈ kk, f.side = .left) : before kk = [] := by
  induction kk with
  | nil => rfl
  | cons f kk ih =>
    rw [forall_mem_cons] at h
    simp [before, h.1, ih h.2]

/-- Unlinking the successor of `old`: its right child takes its place. -/
theorem unlinkSuccessor_spec {old : Ptr w} {cy : Color} {yr : LinkedTree (Ptr w) Color}
    (hleft : ∀ f ∈ kk, f.side = .left)
    (H : m.Holds (plug (kk ++ ⟨.right, old, c, A⟩ :: k) (.join .right yr y cy .nil))) :
    ∃ parent m1 m2, top (kk ++ ⟨.right, old, c, A⟩ :: k) = some parent ∧
      m.setParentIf (yr.addr?.getD null) parent = some m1 ∧
      (if parent = old then m1.setChild .right parent (yr.addr?.getD null)
        else m1.setChild .left parent (yr.addr?.getD null)) = some m2 ∧
      m2.Holds (plug (kk ++ ⟨.right, old, c, A⟩ :: k) yr) ∧
      (m2.view y).isSome ∧
      ∀ b, top (kk ++ ⟨.right, b, c, A⟩ :: k) = some (if parent = old then b else parent) := by
  obtain ⟨hctx, hsub, hnd⟩ := (represents_plug _ _).mp H
  obtain ⟨hy, hyr, -⟩ := (holds_join .right).mp hsub
  obtain ⟨hnd1, hnda, hout⟩ := (nodup_plug _ _).mp hnd
  obtain ⟨m1, run1, view1, root1⟩ := setParentIf_spec
    (fun b hb => hyr.isSome hb) (top (kk ++ ⟨.right, old, c, A⟩ :: k))
  have hsome : ∀ b, (m.view b).isSome → (m1.view b).isSome := fun b hb => by
    rw [view1]
    cases yr with
    | nil => exact hb
    | node l' a' v' r' =>
      rw [adopt, Heap.modify_apply]
      split
      · simp_all
      · exact hb
  obtain ⟨f, k', hf⟩ : ∃ f k', kk ++ ⟨.right, old, c, A⟩ :: k = f :: k' := by
    cases kk <;> exact ⟨_, _, rfl⟩
  rw [hf] at hctx hnda hout run1 view1 H ⊢
  obtain ⟨m2, run2, view2, root2⟩ := setChild_spec f.side (yr.addr?.getD null)
    (hsome _ (by rw [hctx.1]; rfl))
  -- the frame above the successor is `old` itself or a left frame
  have hside : (if f.addr = old then Side.right else Side.left) = f.side ∧
      ∀ b, top (kk ++ ⟨.right, b, c, A⟩ :: k) = some (if f.addr = old then b else f.addr) := by
    cases kk with
    | nil =>
      obtain ⟨rfl, rfl⟩ := cons.inj hf
      simp
    | cons f' kk =>
      obtain ⟨rfl, rfl⟩ := cons.inj hf
      have hne : f'.addr ≠ old := by
        rintro rfl
        exact ((nodup_around_cons _ _).mp hnda).2.1 (by simp)
      simp [hne, hleft f' (by simp)]
  refine ⟨f.addr, m1, m2, rfl, run1, ?_, ?_, ?_, hside.2⟩
  · rw [← run2, ← hside.1]
    split <;> rfl
  · exact splice_spec H view1 view2 (by rw [root_congr root2, root_congr root1]; rfl)
  · rw [view2, Heap.modify_apply]
    have := hsome y (by rw [hy]; rfl)
    split <;> simp_all

/-- The run of `rb_erase` on a node with two children, up to the repair of the colours. -/
theorem eraseSuccessor_eq {child parent : Ptr w} {m1 m2 m3 : Mem w}
    (hright : m.child .right x = some a) (hy : leftmost turns m a = some y)
    (hchild : m.child .right y = some child) (hparent : m.rbParent y = some parent)
    (hcolor : m.rbColor y = some c) (run1 : m.setParentIf child parent = some m1)
    (run2 : (if parent = x then m1.setChild .right parent child
      else m1.setChild .left parent child) = some m2) (run3 : takePlace m2 x y = some m3) :
    eraseSuccessor turns m x =
      if c = .black then rbEraseColor turns m3 child (if parent = x then y else parent)
      else some m3 := by
  simp only [eraseSuccessor, hright, hy, Option.bind_eq_bind, Option.bind_some, Option.pure_def]
  split at run2 <;> simp_all only [if_true, if_false, Option.bind_some]

end

theorem eraseSuccessor_spec (H : m.Holds (plug k (.node l x c r)))
    (hrb : RedBlack (plug k (.node l x c r))) (hl : l ≠ .nil) (hr : r ≠ .nil)
    (hturns : (plug k (.node l x c r)).addrs.length + 1 < turns) :
    Leaves (eraseSuccessor turns m x) (before k ++ (l.addrs ++ r.addrs) ++ after k) := by
  have hx := cell (d := .left) H
  cases r with
  | nil => exact absurd rfl hr
  | node rl a ca rr =>
    have hlen := length_addrs_plug k (.node l x c (.node rl a ca rr))
    simp only [addrs_node, length_append, length_cons] at hlen
    obtain ⟨kk, y, cy, yr, run0, heq, hleft⟩ := leftmost_spec turns
      (k := ⟨.right, x, c, l⟩ :: k) H (by omega)
    -- the whole tree, seen from the successor
    have hplug : ∀ b s, plug (kk ++ ⟨.right, b, c, l⟩ :: k) s = plug k (.node l b c (plug kk s)) :=
      fun b s => by rw [plug_append]; rfl
    have htree : plug k (.node l x c (.node rl a ca rr)) =
        plug (kk ++ ⟨.right, x, c, l⟩ :: k) (.join .right yr y cy .nil) := by
      rw [hplug, heq]
      rfl
    rw [htree] at H hrb hlen hturns
    obtain ⟨parent, m1, m2, htop, run1, run2, H2, hy2, htop'⟩ := unlinkSuccessor_spec hleft H
    have hy := H.cell
    obtain ⟨hnd, -, hout⟩ := (nodup_plug _ _).mp H.nodup
    rw [hplug] at H2
    obtain ⟨m3, run3, H3⟩ := takePlace_spec y H2 hl hy2 (by
      rw [← hplug, mem_addrs_plug]
      have := ((nodup_join ..).mp hnd).1
      tauto)
    rw [← hplug] at H3
    -- the colours
    obtain ⟨n', hk, hsound, -⟩ := redBlack_plug.mp hrb
    obtain ⟨n, hyr, -, rfl, hc⟩ := sound_join.mp hsound
    have hdepth := length_le_around (kk ++ ⟨.right, x, c, l⟩ :: k)
    have hlen' := length_addrs_plug (kk ++ ⟨.right, x, c, l⟩ :: k) (.join .right yr y cy .nil)
    obtain ⟨m4, t', run4, H4, hrb', hnodes⟩ := recolor_spec turns H3 hyr
      (contextSound_readdress hk) (fun h => (hc h).1) (by
        simp only [length_append, length_cons] at hdepth ⊢
        omega)
    refine ⟨m4, t', ?_, H4, hrb', ?_⟩
    · rw [htop' y] at run4
      rw [htop] at hy
      refine (eraseSuccessor_eq turns ?_ run0 ?_ ?_ ?_ run1 run2 run3).trans run4
      · rw [child_eq, hx]
        rfl
      · rw [child_eq, hy]
        rfl
      · rw [rbParent_eq, hy]
        rfl
      · rw [rbColor_eq, hy]
        rfl
    · rw [hnodes, hplug, heq]
      simp [addrs_plug, before_eq_nil hleft]

/-- **`rb_erase` removes exactly the given node** and keeps the tree red-black. -/
theorem rbErase_spec (H : m.Holds t) (hrb : RedBlack t)
    (hx : x ∈ t.addrs) (hturns : t.addrs.length + 1 < turns) :
    Leaves (rbErase turns m x) (t.addrs.erase x) := by
  obtain ⟨k, l, c, r, rfl⟩ := exists_plug_of_mem hx
  have hcell := cell (d := .left) H
  have hleft : m.child .left x = some (l.addr?.getD null) := by rw [child_eq, hcell]; rfl
  have hright : m.child .right x = some (r.addr?.getD null) := by rw [child_eq, hcell]; rfl
  have hdepth := length_le_around k
  have hlen := length_addrs_plug k (.node l x c r)
  rw [addrs_erase H.nodup]
  cases l with
  | nil =>
    obtain ⟨m', t', hrun, H', hrb', hnodes⟩ :=
      eraseOnlyChild_spec turns (d := .right) H hrb (by omega)
    refine ⟨m', t', ?_, H', hrb', by rw [hnodes, addrs_plug]; rfl⟩
    simp [rbErase, hleft, hright, hrun]
  | node ll a ca lr =>
    have ha : a ≠ null := H.ne_null (by simp [addrs_plug])
    cases r with
    | nil =>
      obtain ⟨m', t', hrun, H', hrb', hnodes⟩ :=
        eraseOnlyChild_spec turns (d := .left) H hrb (by omega)
      refine ⟨m', t', ?_, H', hrb', by rw [hnodes, addrs_plug]; simp⟩
      simp only [addr?_node, Option.getD_some] at hrun
      simp [rbErase, hleft, hright, ha, hrun]
    | node rl b cb rr =>
      have hb : b ≠ null := H.ne_null (by simp [addrs_plug])
      obtain ⟨m', t', hrun, H', hrb', hnodes⟩ :=
        eraseSuccessor_spec turns H hrb (by simp) (by simp) hturns
      refine ⟨m', t', ?_, H', hrb', hnodes⟩
      simp [rbErase, hleft, hright, ha, hb, hrun]

end Removal

/-! ## The interface -/

/-- Linking a leaf at an empty position and calling `rb_insert_color` adds exactly that
node there and keeps the tree red-black. -/
theorem rbInsert_spec {node : Ptr w} {turns : ℕ} (H : m.Holds (plug k .nil))
    (hrb : RedBlack (plug k .nil)) (hnode : (m.heap node).isSome)
    (hfresh : node ∉ (plug k .nil).addrs) (hturns : (plug k .nil).addrs.length < turns) :
    Leaves (do
        let m ← rbLinkNode m node ((top k).getD null) (linkAt k)
        rbInsertColor turns m node) (before k ++ node :: after k) := by
  have hview : (m.view node).isSome := by simpa [view] using hnode
  obtain ⟨m1, run1, H1⟩ := rbLinkNode_spec H hview hfresh
  obtain ⟨n, hk, hnil, -⟩ := redBlack_plug.mp hrb
  obtain rfl := sound_nil.mp hnil
  have hdepth := length_le_around k
  have hlen := length_addrs_plug k (.nil : LinkedTree (Ptr w) Color)
  obtain ⟨m2, t', run2, H2, hrb', hnodes⟩ := rbInsertColor_spec turns H1 rfl rfl
    (sound_red (d := .left).mpr (by simp)) hk (by omega)
  refine ⟨m2, t', ?_, H2, hrb', ?_⟩
  · simp [run1, run2]
  · simp [hnodes, addrs_plug]

/-- **Red-black trees stay red-black.**  Let the memory hold a red-black tree.

* Linking a node that is not in the tree at any empty position and calling
  `rb_insert_color` succeeds, no dereference meets NULL, and the memory then holds a
  red-black tree with exactly that node added at the position.
* `rb_erase` of any node of the tree succeeds in the same sense, and the memory then holds
  a red-black tree with exactly that node removed.

The numbers of turns granted to the loops only need to exceed the number of nodes. -/
theorem rbTree_stays_redBlack {t : LinkedTree (Ptr w) Color} (H : m.Holds t) (hrb : RedBlack t) :
    (∀ k node turns, t = plug k .nil → (m.heap node).isSome → node ∉ t.addrs →
      t.addrs.length < turns →
      t.addrs = before k ++ after k ∧
      ∃ m' t', (do
          let m ← rbLinkNode m node ((top k).getD null) (linkAt k)
          rbInsertColor turns m node) = some m' ∧
        m'.Holds t' ∧ RedBlack t' ∧ t'.addrs = before k ++ node :: after k) ∧
    ∀ node ∈ t.addrs, ∀ turns, t.addrs.length + 1 < turns →
      ∃ m' t', rbErase turns m node = some m' ∧ m'.Holds t' ∧ RedBlack t' ∧
        t'.addrs = t.addrs.erase node := by
  constructor
  · rintro k node turns rfl hnode hfresh hturns
    exact ⟨by simp [addrs_plug], rbInsert_spec H hrb hnode hfresh hturns⟩
  · intro node hnode turns hturns
    exact rbErase_spec turns H hrb hnode hturns

/-- A memory with the tree `fourNodes` and a free node at address 24. -/
def fiveNodes : Mem 32 where
  heap a := match a.1.toNat with
    | 4 => some ⟨9, null, null⟩
    | 8 => some ⟨1, ⟨16, by decide⟩, ⟨4, by decide⟩⟩
    | 16 => some ⟨9, ⟨20, by decide⟩, null⟩
    | 20 => some ⟨16, null, null⟩
    | 24 => some ⟨0, null, null⟩
    | _ => none
  rbNode := ⟨8, by decide⟩
  null_unmapped := by decide

/-- A black root with two black children, the right one with a red child on its right. -/
def fourNodes : LinkedTree (Ptr 32) Color :=
  .node (.node .nil ⟨4, by decide⟩ .black .nil) ⟨8, by decide⟩ .black
    (.node .nil ⟨16, by decide⟩ .black (.node .nil ⟨20, by decide⟩ .red .nil))

theorem fiveNodes_holds : fiveNodes.Holds fourNodes :=
  ⟨by decide, ⟨by decide, ⟨by decide, trivial, trivial⟩, by decide, trivial, by decide, trivial,
    trivial⟩, by decide⟩

/-- Node 24 goes below the red node 20, and node 4 leaves its side of the tree without a black
node: both calls rotate. -/
theorem rbTree_stays_redBlack_fourNodes :
    (∃ m' t', (do
        let m ← rbLinkNode fiveNodes ⟨24, by decide⟩ ⟨20, by decide⟩ (.child .right ⟨20, by decide⟩)
        rbInsertColor 5 m ⟨24, by decide⟩) = some m' ∧
      m'.Holds t' ∧ RedBlack t' ∧ t'.addrs = fourNodes.addrs ++ [⟨24, by decide⟩]) ∧
    ∃ m' t', rbErase 6 fiveNodes ⟨4, by decide⟩ = some m' ∧ m'.Holds t' ∧ RedBlack t' ∧
      t'.addrs = [⟨8, by decide⟩, ⟨16, by decide⟩, ⟨20, by decide⟩] := by
  have : Fact (0 < 32) := ⟨by decide⟩
  have hrb : RedBlack fourNodes := ⟨rfl, by simp [fourNodes, NoRedRed],
    2, by simp [fourNodes, HasBlackHeight]⟩
  have h := rbTree_stays_redBlack fiveNodes_holds hrb
  exact ⟨(h.1 [⟨.right, ⟨20, by decide⟩, .red, .nil⟩, ⟨.right, ⟨16, by decide⟩, .black, .nil⟩,
      ⟨.right, ⟨8, by decide⟩, .black, .node .nil ⟨4, by decide⟩ .black .nil⟩] ⟨24, by decide⟩ 5 rfl
    (by decide) (by decide) (by decide)).2, h.2 ⟨4, by decide⟩ (by decide) 6 (by decide)⟩

end Gp2xKernel.RbTree
