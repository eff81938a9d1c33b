import Gp2xKernel.Library.Turns
import Gp2xKernel.ResourceTree.Order

/-!
# `__request_resource` and `__release_resource`

The loop of `__request_resource` passes the siblings that end before the new range and stops
at the first other one: either this one starts behind the new range, and the new resource is
linked in front of it, or it is in conflict.

## Main definitions

* `Spare`: a resource outside the tree, with children of its own.
* `Passed`: the siblings a search has passed.

## Main results

* `requestConflict_spec`: the three outcomes of `__request_resource`.
* `unlinkResource_spec`: `__release_resource` takes out a resource with its children.
-/

namespace Gp2xKernel.ResourceTree

open Library Option LinkedTree Mem List

variable {α : Type} {w : ℕ}

/-- The resource `new` and its list of children `c` are outside the tree. -/
structure Spare (m : Mem α w) (t : Resources α w) (new : α) (n : Attr w) (c : Resources α w) :
    Prop where
  cell : ∃ p s, m new = some (n.cell p c.addr? s)
  holds : Holds m (some new) c
  nodup : c.addrs.Nodup
  notMem : new ∉ c.addrs
  fresh : new ∉ t.addrs
  disjoint : ∀ b ∈ c.addrs, b ∉ t.addrs

/-- The frames are siblings that end before `start`. -/
def Passed (start : BitVec w) (passed : List (Frame α (Attr w))) : Prop :=
  ∀ g ∈ passed, g.side = .right ∧ g.data.stop < start

variable {m : Mem α w} {s c : Resources α w} {f : Frame α (Attr w)}
  {k : List (Frame α (Attr w))} {root new old : α} {n v : Attr w}

variable {g : Frame α (Attr w)} {p : α}

theorem plug_right (passed : List (Frame α (Attr w))) (hg : g.side = .right) (s : Resources α w) :
    plug (passed ++ [g]) s = .node g.sibling g.addr g.data (plug passed s) := by
  rw [plug_append, plug_cons, hg]
  rfl

/-- The range of a new resource is not reversed and lies inside its parent. -/
def InRange (n v : Attr w) : Prop := n.start ≤ n.stop ∧ v.start ≤ n.start ∧ n.stop ≤ v.stop

/-- Memory holds a tree with the given root, and the tree is in order if the operation was
used with care. -/
def Outcome (bottom : Frame α (Attr w)) (lo hi : ℕ) (care : Prop) (m : Mem α w) : Prop :=
  ∃ c, Tree m (plug [bottom] c) ∧ (care → Ordered lo hi (plug [bottom] c))

/-- The memory holds the tree `T` in order, and `root` is a resource of it at a position that ends
at `bottom`. -/
structure Within (m : Mem α w) (T : Resources α w) (lo hi : ℕ) (bottom : Frame α (Attr w))
    (k : List (Frame α (Attr w))) (c₀ : Resources α w) (root : α) (v : Attr w)
    (s₀ : Resources α w) : Prop where
  tree : Tree m T
  eq : T = plug k (.node c₀ root v s₀)
  bottom_eq : (⟨.left, root, v, s₀⟩ :: k).getLast? = some bottom
  order : Ordered lo hi T

/-- A position among the children of a resource below the root, with what the search for it
has established. -/
structure Place (T : Resources α w) (n : Attr w) (parent : α) (passed k : List (Frame α (Attr w)))
    (v : Attr w) (s₀ s' : Resources α w) : Prop where
  tree_eq : T = plug (passed ++ ⟨.left, parent, v, s₀⟩ :: k) s'
  inRange : InRange n v
  passed_lt : Passed n.start passed

variable {T c₀ s₀ s' : Resources α w} {passed : List (Frame α (Attr w))} {bottom : Frame α (Attr w)}
  {lo hi : ℕ}

/-- A tree with a list at a position below the root has this root. -/
theorem outcome_of_plug {l : List (Frame α (Attr w))} {care : Prop}
    (hl : l.getLast? = some bottom) (H : Tree m (plug l s))
    (hord : care → Ordered lo hi (plug l s)) : Outcome bottom lo hi care m := by
  obtain ⟨l', rfl⟩ := getLast?_eq_some_iff.mp hl
  rw [plug_append] at H hord
  exact ⟨plug l' s, H, hord⟩

theorem Place.bounds (lo hi : ℕ) (h : Place T n root passed k v s₀ s') :
    lowAt lo (passed ++ ⟨.left, root, v, s₀⟩ :: k) ≤ n.start.toNat ∧
      n.start.toNat ≤ n.stop.toNat ∧
      n.stop.toNat ≤ highAt hi (passed ++ ⟨.left, root, v, s₀⟩ :: k) := by
  refine ⟨lowAt_append_le h.passed_lt (BitVec.le_def.mp h.inRange.2.1),
    BitVec.le_def.mp h.inRange.1, ?_⟩
  rw [highAt_append fun g hg => (h.passed_lt g hg).1]
  exact BitVec.le_def.mp h.inRange.2.2

section

variable (h : Within m T lo hi bottom k c₀ root v s₀)
include h

theorem Within.length_lt : c₀.addrs.length < T.addrs.length := by
  rw [h.eq, length_addrs_plug, addrs_node, length_append, length_cons]
  omega

/-- Nothing has changed. -/
theorem Within.outcome {care : Prop} : Outcome bottom lo hi care m :=
  outcome_of_plug h.bottom_eq (show Tree m (plug k _) from h.eq ▸ h.tree) fun _ =>
    show Ordered lo hi (plug k _) from h.eq ▸ h.order

theorem Within.bottom_append (l : List (Frame α (Attr w))) :
    (l ++ ⟨.left, root, v, s₀⟩ :: k).getLast? = some bottom := by
  rw [getLast?_append_of_ne_nil _ (by simp)]
  exact h.bottom_eq

end

theorem Within.child {u : Attr w} {t : α} {r : Resources α w}
    (h : Within m T lo hi bottom k c₀ root v s₀)
    (hplace : Place T n root passed k v s₀ (.node c t u r)) :
    Within m T lo hi bottom (passed ++ ⟨.left, root, v, s₀⟩ :: k) c t u r :=
  { h with eq := hplace.tree_eq, bottom_eq := h.bottom_append (_ :: passed) }

/-- A position inside a resource lies behind some of its children. -/
theorem exists_passed (h : parentAt k = some p) :
    ∃ passed u s₀ k0, k = passed ++ ⟨.left, p, u, s₀⟩ :: k0 ∧ ∀ g ∈ passed, g.side = .right := by
  induction k with
  | nil => simp [parentAt] at h
  | cons f k ih =>
    rcases f with ⟨_ | _, a, u, s₀⟩
    · obtain rfl : a = p := by simpa [parentAt] using h
      exact ⟨[], u, s₀, k, rfl, by simp⟩
    · obtain ⟨passed, u', s', k0, rfl, hright⟩ := ih h
      refine ⟨⟨.right, a, u, s₀⟩ :: passed, u', s', k0, rfl, ?_⟩
      intro g hg
      rcases mem_cons.mp hg with rfl | hg
      · rfl
      · exact hright g hg

theorem ContextHolds.outer {q : List (Frame α (Attr w))} {ptr : Option α}
    (H : ContextHolds m ptr (q ++ f :: k)) : ∃ ptr', ContextHolds m ptr' (f :: k) := by
  induction q generalizing ptr with
  | nil => exact ⟨ptr, H⟩
  | cons g q ih => exact ih H.2.2

variable [DecidableEq α]

/-- Linking a spare resource at a position. -/
theorem linkNew_spec (H : Tree m (plug (f :: k) s)) (hs : Spare m (plug (f :: k) s) new n c)
    (hroot : parentAt (f :: k) = some root) :
    ∃ m', linkNew m root new (loc f) s.addr? = some m' ∧
      Tree m' (plug (f :: k) (.node c new n s)) := by
  obtain ⟨p, q, hnew⟩ := hs.cell
  have hfresh := hs.fresh
  rw [mem_addrs_plug, not_or] at hfresh
  have hfmem : f.addr ∈ around (f :: k) := by simp
  have hfn : f.addr ≠ new := ne_of_mem_of_not_mem hfmem hfresh.2
  have hdisj : ∀ b ∈ c.addrs, b ∉ s.addrs ∧ b ∉ around (f :: k) := by
    intro b hb
    have := hs.disjoint b hb
    rwa [mem_addrs_plug, not_or] at this
  -- the three assignments
  have run1 := assign_spec (fun r => { r with sibling := s.addr? }) hnew
  have hf1 : (m.set new (some { n.cell p c.addr? q with sibling := s.addr? })) f.addr =
      some (frameCell f k s.addr?) := by
    rw [set_of_ne _ _ hfn]
    exact H.frame
  have run2 := write_loc (some new) hf1
  set m2 := (m.set new (some { n.cell p c.addr? q with sibling := s.addr? })).set f.addr
    (some (frameCell f k (some new))) with hm2
  have hnew2 : m2 new = some { n.cell p c.addr? q with sibling := s.addr? } := by
    rw [hm2, set_of_ne _ _ (Ne.symm hfn), set_self]
  have run3 := assign_spec (fun r => { r with parent := some root }) hnew2
  have hoff : ∀ b, b ≠ new → b ≠ f.addr →
      m2.set new (some (n.cell (some root) c.addr? s.addr?)) b = m b := by
    intro b hbn hbf
    rw [set_of_ne _ _ hbn, hm2, set_of_ne _ _ hbf, set_of_ne _ _ hbn]
  refine ⟨m2.set new (some (n.cell (some root) c.addr? s.addr?)), ?_, ?_⟩
  · rw [linkNew, run1, bind_eq_bind, bind_some, run2, bind_some, run3]
    rfl
  · refine H.replace ?_ ?_ ⟨?_, ?_, ?_⟩ ?_ ?_
    · rw [set_of_ne _ _ hfn, hm2, set_self]
      rfl
    · exact fun b hb hbf => hoff b (ne_of_mem_of_not_mem hb hfresh.2) hbf
    · rw [set_self, hroot]
    · exact hs.holds.congr fun b hb => hoff b (ne_of_mem_of_not_mem hb hs.notMem)
        (ne_of_mem_of_not_mem hfmem (hdisj b hb).2).symm
    · exact H.list.congr fun b hb => hoff b (ne_of_mem_of_not_mem hb hfresh.1) (H.ne_frame hb)
    · exact (nodup_join .left c s new n).mpr
        ⟨hs.notMem, hfresh.1, hs.nodup, H.nodup_list, fun b hb => (hdisj b hb).1⟩
    · intro b hb
      rcases (mem_addrs_join .left c s new b n).mp hb with rfl | hb | hb
      · exact hfresh.2
      · exact (hdisj b hb).2
      · exact H.notMem_around hb

theorem requestLoop_spec (root new : α) (start stop : BitVec w) (H : Tree m (plug (f :: k) s)) :
    ∃ passed g k' s' out, passed ++ f :: k = g :: k' ∧ s = plug passed s' ∧ Passed start passed ∧
      After s.addrs.length (requestLoop · m root new start stop (loc f)) out ∧
      ((∃ c t u r, s' = .node c t u r ∧ u.start ≤ stop ∧ start ≤ u.stop ∧ out = some (m, some t)) ∨
        ((∀ c t u r, s' = .node c t u r → stop < u.start) ∧
          out = (linkNew m root new (loc g) s'.addr?).bind fun m => some (m, none))) := by
  induction s generalizing f k with
  | nil =>
    refine ⟨[], f, k, .nil, _, rfl, rfl, by simp [Passed], after_iff.mpr fun turns _ => ?_,
      .inr ⟨by simp, rfl⟩⟩
    rw [requestLoop, read_loc H]
    rfl
  | node c t u r _ ih =>
    have hcell := H.cell
    simp only [after_iff, requestLoop, read_loc H, addr?_node, bind_eq_bind, bind_some, hcell,
      Attr.cell_start, Attr.cell_stop, Option.pure_def]
    by_cases hgt : u.start > stop
    · refine ⟨[], f, k, .node c t u r, _, rfl, rfl, by simp [Passed], fun turns _ => if_pos hgt,
        .inr ⟨?_, rfl⟩⟩
      rintro c' t' u' r' heq
      obtain ⟨-, -, rfl, -⟩ := node.inj heq
      exact hgt
    · by_cases hlt : u.stop < start
      · -- one more sibling to pass
        obtain ⟨passed, g, k', s', out, hlist, rfl, hpassed, hafter, hout⟩ :=
          ih (f := ⟨.right, t, u, c⟩) (k := f :: k) H
        refine ⟨passed ++ [⟨.right, t, u, c⟩], g, k', s', out, by simpa using hlist,
          (plug_right passed (g := ⟨.right, t, u, c⟩) rfl s').symm, ?_, fun turns hturns => ?_,
          hout⟩
        · intro g hg
          rcases mem_append.mp hg with hg | hg
          · exact hpassed g hg
          · obtain rfl := mem_singleton.mp hg
            exact ⟨rfl, hlt⟩
        · rw [addrs_node, length_append, length_cons] at hturns
          simp only [hgt, hlt, if_false, if_true]
          exact hafter turns (by omega)
      · refine ⟨[], f, k, .node c t u r, _, rfl, rfl, by simp [Passed], fun turns _ => ?_,
          .inl ⟨c, t, u, r, rfl, BitVec.not_lt.mp hgt, BitVec.not_lt.mp hlt, rfl⟩⟩
        simp only [hgt, hlt, if_false]

/-- **The outcomes of `__request_resource`**: the range is refused, a child of the given
resource is in conflict, or the new resource is linked among these children. -/
theorem requestConflict_spec (hw : Within m T lo hi bottom k c₀ root v s₀)
    (hs : Spare m T new n c) :
    ∃ out, After c₀.addrs.length (requestConflict · m root new) (some out) ∧
      (out = (m, some root) ∨
        (∃ passed c' t u r, Place T n root passed k v s₀ (.node c' t u r) ∧ t ≠ root ∧
          c'.addrs.length < c₀.addrs.length ∧ out = (m, some t)) ∨
        ∃ m', out = (m', none) ∧
          Outcome bottom lo hi (Ordered n.start.toNat n.stop.toNat c) m') := by
  obtain ⟨p, q, hnew⟩ := hs.cell
  have H : Tree m (plug k (.node c₀ root v s₀)) := hw.eq ▸ hw.tree
  have hroot := H.cell
  have hrun : ∀ turns, requestConflict turns m root new =
      if n.stop < n.start then some (m, some root)
      else if n.start < v.start then some (m, some root)
      else if n.stop > v.stop then some (m, some root)
      else requestLoop turns m root new n.start n.stop (.child root) := by
    intro turns
    simp only [requestConflict, hnew, hroot, bind_eq_bind, bind_some,
      Attr.cell_start, Attr.cell_stop, Option.pure_def]
    rfl
  by_cases hrange : InRange n v
  · obtain ⟨passed, g, k', s', out, hlist, hsplit, hpassed, hafter, hout⟩ :=
      requestLoop_spec root new n.start n.stop (f := ⟨.left, root, v, s₀⟩) H
    have hafter' : After c₀.addrs.length (requestConflict · m root new) out := by
      intro turns hturns
      refine (hrun turns).trans ?_
      rw [if_neg (BitVec.not_lt.mpr hrange.1), if_neg (BitVec.not_lt.mpr hrange.2.1),
        if_neg (BitVec.not_lt.mpr hrange.2.2)]
      exact hafter turns hturns
    have hplace : Place T n root passed k v s₀ s' := by
      refine ⟨?_, hrange, hpassed⟩
      rw [hw.eq, hsplit, plug_append]
      rfl
    have HT := hplace.tree_eq ▸ hw.tree
    rcases hout with ⟨c', t, u, r, rfl, -, -, rfl⟩ | ⟨hnext, rfl⟩
    · refine ⟨_, hafter', .inr (.inl ⟨passed, c', t, u, r, hplace, ?_, ?_, rfl⟩)⟩
      · rintro rfl
        exact HT.notMem_around (b := t) (by simp) (by simp)
      · rw [hsplit, length_addrs_plug, addrs_node, length_append, length_cons]
        omega
    · have hparent : parentAt (passed ++ ⟨.left, root, v, s₀⟩ :: k) = some root :=
        parentAt_append fun g hg => (hpassed g hg).1
      have hs := hplace.tree_eq ▸ hs
      have hbottom := hw.bottom_append passed
      obtain ⟨h1, h2, h3⟩ := hplace.bounds lo hi
      have hord := hplace.tree_eq ▸ hw.order
      rw [hlist] at HT hs hparent hbottom h1 h3 hord
      obtain ⟨m', hlink, H'⟩ := linkNew_spec HT hs hparent
      rw [hlink] at hafter'
      exact ⟨_, hafter', .inr (.inr ⟨m', rfl, outcome_of_plug hbottom H' fun hc =>
        ordered_insertAt hord h1 h2 h3 hc fun c a u r hr => BitVec.lt_def.mp (hnext c a u r hr)⟩)⟩
  · refine ⟨_, fun turns _ => (hrun turns).trans ?_, .inl rfl⟩
    -- one of the three tests fails
    split_ifs with h1 h2 h3
    · rfl
    · rfl
    · rfl
    · exact absurd ⟨BitVec.not_lt.mp h1, BitVec.not_lt.mp h2, BitVec.not_lt.mp h3⟩ hrange

/-! ## Walks along a list -/

/-- The walk of `__release_resource` to a resource behind the siblings `passed`. -/
theorem releaseLoop_spec (passed : List (Frame α (Attr w))) (hright : ∀ g ∈ passed, g.side = .right)
    (H : Tree m (plug (passed ++ f :: k) (.node c old v s))) :
    ∃ m', After passed.length (releaseLoop · m old (loc f)) (some (m', .ok)) ∧
      Tree m' (plug (passed ++ f :: k) s) := by
  induction passed using reverseRecOn generalizing f k with
  | nil =>
    have hold := H.cell
    have hof : old ≠ f.addr := H.ne_frame (by simp)
    have run1 := write_loc s.addr? H.frame
    have hold1 : (m.set f.addr (some (frameCell f k s.addr?))) old =
        some (v.cell (parentAt (f :: k)) c.addr? s.addr?) := by
      rw [set_of_ne _ _ hof]
      exact hold
    have run2 := assign_spec (fun r => { r with parent := none }) hold1
    refine ⟨(m.set f.addr (some (frameCell f k s.addr?))).set old
      (some (v.cell none c.addr? s.addr?)), after_iff.mpr fun turns _ => ?_,
      H.unlink ?_ fun b hbo hbf => ?_⟩
    · rw [releaseLoop, read_loc H]
      simp only [addr?_node, bind_eq_bind, bind_some, hold, Attr.cell_sibling, run1]
      rw [run2]
      rfl
    · rw [set_of_ne _ _ (Ne.symm hof), set_self]
    · rw [set_of_ne _ _ hbo, set_of_ne _ _ hbf]
  | append_singleton passed g ih =>
    have hg := hright g (by simp)
    rw [append_assoc] at H ⊢
    -- the first sibling of the list is not the one to be released
    have H0 : Tree m (plug (f :: k) (.node g.sibling g.addr g.data
        (plug passed (.node c old v s)))) := by
      rw [← plug_right passed hg, ← plug_append, append_assoc]
      exact H
    have hne : g.addr ≠ old := by
      rintro rfl
      exact ((nodup_join .left ..).mp H0.nodup_list).2.1 ((mem_addrs_plug _ _ _).mpr
        (.inl (by simp)))
    obtain ⟨m', hrun, H'⟩ := ih (fun g' hg' => hright g' (by simp [hg'])) H
    refine ⟨m', after_iff.mpr fun turns hturns => ?_, H'⟩
    rw [length_append] at hturns
    have hloc : loc g = .sibling g.addr := by rw [loc, hg]
    rw [releaseLoop, read_loc H0]
    simp only [addr?_node, bind_eq_bind, bind_some, H0.cell, hne]
    rw [← hloc]
    exact hrun turns hturns

/-- **`__release_resource`** takes a resource that has a parent out of the tree, with its
children. -/
theorem unlinkResource_spec (H : Tree m (plug k (.node c old v s))) (hp : parentAt k = some p) :
    ∃ m', After k.length (unlinkResource · m old) (some (m', .ok)) ∧ Tree m' (plug k s) := by
  obtain ⟨passed, u, s₀, k0, rfl, hright⟩ := exists_passed hp
  obtain ⟨m', hrun, H'⟩ := releaseLoop_spec passed hright H
  refine ⟨m', fun turns hturns => ?_, H'⟩
  rw [length_append] at hturns
  simp only [unlinkResource, H.cell, hp, bind_eq_bind, bind_some]
  exact hrun turns (by omega)

/-- The walk to the sibling in front of a position. -/
theorem findPrevious_spec (passed : List (Frame α (Attr w))) {f : Frame α (Attr w)} {first : α}
    (hright : ∀ g ∈ passed, g.side = .right) (hf : f.side = .right)
    (H : ContextHolds m (some first) (passed ++ f :: k))
    (hfirst : first ∉ around (passed ++ f :: k)) (hhead : (passed ++ f :: k).head? = some g) :
    After passed.length (findPrevious · m first f.addr) (some g.addr) := by
  induction passed using reverseRecOn generalizing f k with
  | nil =>
    obtain rfl : f = g := by simpa using hhead
    refine after_iff.mpr fun turns _ => ?_
    simp [findPrevious, show m f.addr = _ from H.1, frameCell, hf]
  | append_singleton passed g' ih =>
    have hg' := hright g' (by simp)
    rw [append_assoc] at H hhead hfirst
    obtain ⟨ptr, -, -, hcell, -⟩ := H.outer
    have hne : ¬ g'.addr = first := by
      rintro rfl
      exact hfirst (by simp)
    have hrun := ih (fun g hg => hright g (by simp [hg])) hg' H hfirst hhead
    refine after_iff.mpr fun turns hturns => ?_
    rw [length_append] at hturns
    simp [findPrevious, hcell, frameCell, hf, hne, hrun turns hturns]

/-- The walk from the first sibling `f` of a list to a position behind it. -/
theorem findPrevious_front {l k' : List (Frame α (Attr w))} {first : α}
    (hright : ∀ g ∈ passed ++ [f], g.side = .right) (hlist : passed ++ f :: l = g :: k')
    (H : ContextHolds m (some first) (g :: k')) (hfirst : first ∉ around (g :: k')) :
    f.addr ≠ first ∧ g.side = .right ∧
      After passed.length (findPrevious · m first f.addr) (some g.addr) := by
  have hg : g ∈ passed ++ [f] := by
    cases passed with
    | nil | cons =>
      obtain ⟨rfl, -⟩ := List.cons.inj hlist
      simp
  rw [← hlist] at H hfirst
  refine ⟨?_, hright g hg, findPrevious_spec passed (fun g hg => hright g (by simp [hg]))
    (hright f (by simp)) H hfirst (by rw [hlist]; rfl)⟩
  rintro rfl
  exact hfirst (by simp)

end Gp2xKernel.ResourceTree
