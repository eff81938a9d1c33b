import Gp2xKernel.Library.Turns
import Gp2xKernel.PrioTree.Order

/-!
# `prio_tree_remove`

The walk down from the node ends at a leaf; the nodes on the way back up each take the
place of the one above them, until the node to be removed has been replaced.  The result
is the tree `pop` describes, at the position of the removed node.

## Main results

* `removeDescend_spec`, `removeClimb_spec`: the two loops.
* `prioTreeRemove_spec`: `prio_tree_remove` removes exactly the given node.
-/

namespace Gp2xKernel.PrioTree

open Library LinkedTree List

/-- Push the labels of a context up by one, starting with a new label at the hole; the
label at the outer end drops out. -/
def pushUp {α δ : Type*} : List (Frame α δ) → α × δ → LinkedTree α δ → LinkedTree α δ × (α × δ)
  | [], p, s => (s, p)
  | f :: k, p, s => pushUp k (f.addr, f.data) (.join f.side s p.1 p.2 f.sibling)

theorem pushUp_append {α δ : Type*} (k k' : List (Frame α δ)) (p : α × δ)
    (s : LinkedTree α δ) :
    pushUp (k ++ k') p s = pushUp k' (pushUp k p s).2 (pushUp k p s).1 := by
  induction k generalizing p s with
  | nil => rfl
  | cons f k ih => exact ih _ _

variable {α : Type} {w : ℕ} {m : Mem α w} {k : List (Frame α (Entry w))}

variable {a : α} {v : Entry w} {l r : LinkedTree α (Entry w)}

theorem Mem.Holds.index {d : Side} {A B : LinkedTree α (Entry w)}
    (H : m.Holds (plug k (.join d A a v B))) : m.index a = some (m.ix v) := by
  rw [Mem.index, H.cell, Option.map_some, Cell.data_join]

/-- The label that drops out is that of the outermost frame. -/
theorem pushUp_snd (kk : List (Frame α (Entry w))) (hne : kk ≠ []) (p : α × Entry w)
    (s : LinkedTree α (Entry w)) : (pushUp kk p s).2.1 ∈ around kk := by
  induction kk generalizing p s with
  | nil => exact absurd rfl hne
  | cons f kk ih =>
    rw [mem_around_cons]
    cases kk with
    | nil => exact .inl rfl
    | cons g kk => exact .inr (.inr (ih (by simp) _ _))

variable [DecidableEq α]

/-- **The walk down** follows the nodes that move up when the root of the subtree leaves. -/
theorem removeDescend_spec (t : LinkedTree α (Entry w)) (ht : t = .node l a v r)
    (H : m.Holds (plug k t)) :
    ∃ kk x u, After t.addrs.length (removeDescend · m a) (some x) ∧
      t = plug kk (.node .nil x u .nil) ∧ pushUp kk (x, u) .nil = (pop m.ix t, (a, v)) := by
  induction t using pop_induction m.ix generalizing k a v l r with
  | nil => exact absurd ht (by simp)
  | single a' v' =>
    obtain ⟨-, rfl, rfl, -⟩ := node.inj ht
    have hcell := Mem.Holds.cell (d := .left) H
    refine ⟨[], a', v', after_iff.mpr fun turns _ => ?_, rfl, rfl⟩
    simp [removeDescend, hcell, Cell.join]
  | move d A c u B S a' v' hpop hS ih =>
    obtain ⟨rfl, rfl⟩ : a' = a ∧ v' = v := by
      cases d <;> exact ⟨(node.inj ht).2.1, (node.inj ht).2.2.1⟩
    have hlen : (join d (.node A c u B) a' v' S).addrs.length =
        (node A c u B).addrs.length + S.addrs.length + 1 := by
      cases d <;> simp [join] <;> omega
    obtain ⟨kk, x, y, hrun, hplug, hpush⟩ := ih rfl (k := ⟨d, a', v', S⟩ :: k) H
    refine ⟨kk ++ [⟨d, a', v', S⟩], x, y, after_iff.mpr fun turns hturns => ?_, ?_, ?_⟩
    · rw [← hrun turns (by omega)]
      -- the pointers of the node, and the intervals the code compares
      have hcell := H.cell
      have hnd := ((nodup_plug _ _).mp H.nodup).1
      simp only [nodup_join, addrs_node, mem_append, mem_cons, not_or] at hnd
      have hc : c ≠ a' := fun h => hnd.1.2.1 h.symm
      have hu : m.index c = some (m.ix u) :=
        Mem.Holds.index (k := ⟨d, a', v', S⟩ :: k) (d := .left) H
      cases S with
      | nil =>
        cases d <;> simp [removeDescend, hcell, Cell.join, hc, hu]
      | node C e z D =>
        have hz : m.index e = some (m.ix z) := by
          rw [← plug_far] at H
          exact Mem.Holds.index (d := .left) H
        have hcmp := hS C e z D rfl
        cases d with
        | left =>
          have hge : (m.ix u).heap ≥ (m.ix z).heap := by
            simp only [BitVec.le_def, BitVec.lt_def, ← BitVec.toNat_inj] at hcmp ⊢
            omega
          simp [removeDescend, hcell, Cell.join, hc, hu, hz, hge]
        | right =>
          have hlt : ¬ (m.ix z).heap ≥ (m.ix u).heap := by
            simp only [BitVec.le_def, BitVec.lt_def, reduceCtorEq, false_and, or_false] at hcmp ⊢
            omega
          simp [removeDescend, hcell, Cell.join, hc, hu, hz, hlt]
    · rw [plug_append, ← hplug]
      rfl
    · rw [pushUp_append, hpush, hpop]
      rfl

/-- **The walk up.**  A detached node takes the place of the node above the hole, which
does the same in turn, until the node to be removed is detached. -/
theorem removeClimb_spec (kk : List (Frame α (Entry w))) {s : LinkedTree α (Entry w)} {x : α}
    {c : Cell α (Entry w)} (H : m.Holds (plug (kk ++ k) s)) (hx : m.heap x = some c)
    (hparent : ∀ f kk', kk = f :: kk' → c.parent = f.addr) (hfresh : x ∉ (plug (kk ++ k) s).addrs)
    (ha : (pushUp kk (x, c.data) s).2 = (a, v)) :
    ∃ m', After kk.length (removeClimb · m x a) (some m') ∧
      m'.Holds (plug k (pushUp kk (x, c.data) s).1) ∧ m'.root.indexBits = m.root.indexBits ∧
      m'.root.raw = m.root.raw ∧
      (∃ c', m'.heap a = some c' ∧ c'.data = v) ∧
      ∀ b, b ∉ (plug (kk ++ k) s).addrs → b ≠ x → m'.heap b = m.heap b := by
  induction kk generalizing m s x c with
  | nil =>
    obtain ⟨rfl, rfl⟩ := Prod.mk.inj ha
    exact ⟨m, after_iff.mpr fun turns _ => by simp [removeClimb], H, rfl, rfl, ⟨c, hx, rfl⟩,
      fun _ _ _ => rfl⟩
  | cons f kk ih =>
    -- the node to be removed is still in the tree
    have hxa : x ≠ a := by
      rintro rfl
      have hmem := pushUp_snd (f :: kk) (by simp) (x, c.data) s
      rw [ha] at hmem
      rw [mem_addrs_plug, mem_around_append] at hfresh
      exact hfresh (.inr (.inl hmem))
    have hp : c.parent = f.addr := hparent f kk rfl
    have hcell := Mem.Holds.cell H
    obtain ⟨m1, run1, H1, bits1, raw1, old1, off1⟩ :
        ∃ m1, prioTreeReplace m f.addr x = some (m1, f.addr) ∧
          m1.Holds (plug (kk ++ k) (.join f.side s x c.data f.sibling)) ∧
          m1.root.indexBits = m.root.indexBits ∧ m1.root.raw = m.root.raw ∧
          m1.heap f.addr = m.heap f.addr ∧
          ∀ b, b ∉ (plug (f :: kk ++ k) s).addrs → b ≠ x → m1.heap b = m.heap b := by
      rcases f with ⟨d, p, u, sib⟩
      cases d with
      | left | right => exact prioTreeReplace_spec H hx hfresh
    -- the replaced node is outside the tree now, and still knows its parent
    have hnd : f.addr ∉ s.addrs ∧ f.addr ∉ f.sibling.addrs ∧ f.addr ∉ around (kk ++ k) := by
      obtain ⟨-, hk, hout⟩ := (nodup_plug (f :: kk ++ k) s).mp H.nodup
      have hk := (nodup_around_cons f (kk ++ k)).mp hk
      exact ⟨fun h => hout _ h (by simp), hk.1, hk.2.1⟩
    have hxf : x ≠ f.addr := by
      rintro rfl
      exact hfresh ((mem_addrs_plug ..).mpr (.inr (by simp)))
    have hfresh1 : f.addr ∉ (plug (kk ++ k) (.join f.side s x c.data f.sibling)).addrs := by
      rw [mem_addrs_plug, mem_addrs_join]
      rintro ((h | h | h) | h)
      · exact hxf h.symm
      · exact hnd.1 h
      · exact hnd.2.1 h
      · exact hnd.2.2 h
    obtain ⟨m', run', H', bits', raw', hlast, off'⟩ := ih H1 (old1.trans hcell)
      (by rintro g kk' rfl; simp) hfresh1 (by simpa [pushUp] using ha)
    refine ⟨m', after_iff.mpr fun turns hturns => ?_, by simpa [pushUp] using H', bits'.trans bits1,
      raw'.trans raw1, hlast,
      fun b hb hbx => ?_⟩
    · simp [removeClimb, hxa, hx, hp, run1, run' turns hturns]
    · have hb' := hb
      rw [mem_addrs_plug, cons_append, mem_around_cons] at hb'
      rw [off' b ?_ ?_, off1 b hb hbx]
      · rw [mem_addrs_plug, mem_addrs_join]
        tauto
      · rintro rfl
        exact hb' (.inr (.inl rfl))

/-- **`prio_tree_remove` removes exactly the given node.**  An emptied tree starts again at
width 1. -/
theorem prioTreeRemove_spec (H : m.Holds (plug k (.node l a v r))) :
    ∃ m', After (plug k (.node l a v r)).addrs.length (prioTreeRemove · m a) (some m') ∧
      m'.Holds (plug k (pop m.ix (.node l a v r))) ∧
      m'.root.raw = m.root.raw ∧
      m'.root.indexBits =
        (if plug k (pop m.ix (.node l a v r)) = .nil then 1
          else m.root.indexBits) ∧
      (∃ c, m'.heap a = some c ∧ c.data = v) ∧
      ∀ b, b ∉ (plug k (.node l a v r)).addrs → m'.heap b = m.heap b := by
  obtain ⟨kk, x, u, run0, hplug, hpush⟩ := removeDescend_spec _ rfl H
  replace run0 := run0.mono (Nat.le.intro (length_addrs_plug k (.node l a v r)).symm)
  have hperm := items_plug_cons (k := k) (pop_items m.ix (rfl : node l a v r = _))
  have htree : plug k (.node l a v r) = plug (kk ++ k) (.node .nil x u .nil) := by
    rw [plug_append, ← hplug]
  rw [htree] at H run0 hperm ⊢
  have hx := Mem.Holds.cell (d := .left) H
  obtain ⟨-, -, hout⟩ := (nodup_plug _ _).mp H.nodup
  have hxk := hout x (by simp)
  rcases hkk : kk ++ k with _ | ⟨f, K⟩
  · -- the node is the only one
    obtain ⟨rfl, rfl⟩ := append_eq_nil_iff.mp hkk
    obtain ⟨hpop, hlabel⟩ := Prod.mk.inj hpush
    obtain ⟨rfl, rfl⟩ := Prod.mk.inj hlabel
    have hroot : m.root.prioTreeNode = some x := H.root_eq
    refine ⟨m.initPrioTreeRoot, fun turns hturns => ?_, ?_, rfl, ?_, ⟨_, hx, rfl⟩, fun b _ => rfl⟩
    · simp [prioTreeRemove, run0 turns hturns, hx, hroot]
    · rw [← hpop]
      exact ⟨rfl, trivial, by simp⟩
    · rw [← hpop]
      rfl
  · rw [hkk] at H run0 hx hxk
    have hxf : x ≠ f.addr := by
      rintro rfl
      exact hxk (by simp)
    obtain ⟨m1, p, hp, run1, root1, off1, H1⟩ := unlinkLeaf_spec H
    have hx1 := (off1 x hxf).trans hx
    have hdepth := length_le_around (f :: K)
    have hlen' := length_addrs_plug (f :: K) (node .nil x u .nil)
    have hkl : kk.length ≤ (f :: K).length := by
      rw [← hkk, length_append]
      omega
    have hfresh : x ∉ (plug (f :: K) .nil).addrs := by
      rw [mem_addrs_plug]
      simpa using hxk
    obtain ⟨m', run', H', bits', raw', hlast, off'⟩ := removeClimb_spec kk
      (by rw [hkk]; exact H1) hx1 (by
        rintro g kk' rfl
        obtain ⟨rfl, -⟩ := cons.inj hkk
        rfl) (by rw [hkk]; exact hfresh) (congrArg Prod.snd hpush)
    rw [hkk] at off'
    refine ⟨m', fun turns hturns => ?_, ?_, by rw [raw', root1], ?_, hlast, fun b hb => ?_⟩
    · have hpx : f.addr ≠ x := Ne.symm hxf
      have run' : removeClimb turns m1 x a = some m' := run' turns (by omega)
      by_cases hr : p.right = x <;> simp only [hr, if_true, if_false] at run1 <;>
        simp [prioTreeRemove, run0 turns hturns, hx, hpx, hp, hr, run1, run']
    · have hfst : (pushUp kk (x, u) .nil).1 = pop m.ix (.node l a v r) :=
        congrArg Prod.fst hpush
      rw [← hfst]
      exact H'
    · -- the parent of the leaf is still there
      rw [if_neg, bits', root1]
      intro hnil
      have hlen'' := hperm.length_eq
      rw [hnil, hkk] at hlen''
      rw [← length_map, ← addrs_eq_map, hlen'] at hlen''
      simp only [addrs_node, addrs_nil, nil_append, length_cons, items_nil] at hlen'' hdepth
      omega
    · rw [mem_addrs_plug] at hb
      simp only [addrs_node, addrs_nil, nil_append, mem_singleton, not_or] at hb
      rw [off' b ?_ hb.1, off1 b ?_]
      · rintro rfl
        exact hb.2 (by simp)
      · rw [mem_addrs_plug]
        simpa using hb.2

end Gp2xKernel.PrioTree
