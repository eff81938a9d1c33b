import Gp2xKernel.ResourceTree.Request

/-!
# `insert_resource`

The new resource sinks until it is linked, refused, or in conflict with a child that it is
not strictly inside of.  In the last case a run of siblings, from this child on, is taken
over: the run is cut out of its list, gets the new resource as its parent, and the new
resource takes its place.

## Main results

* `insertDescend_spec`, `insertRun_spec`: the two searches.
* `adoptRun_spec`: the run changes its parent.
* `insertResource_spec`: the outcomes of an insertion.
-/

namespace Gp2xKernel.ResourceTree

open Library List Option LinkedTree Mem

variable {α : Type} {w : ℕ} {m : Mem α w} {s c t : Resources α w}
  {k : List (Frame α (Attr w))} {parent new : α} {n v : Attr w}

/-! ## The searches -/

variable {T c0 s0 t q c' : Resources α w} {p : Option α} {last first : α} {u : Attr w}
  {passed : List (Frame α (Attr w))} {bottom : Frame α (Attr w)} {lo hi : ℕ}

theorem insertDescend_spec [DecidableEq α] {L : ℕ} (hw : Within m T lo hi bottom k c0 parent v s0)
    (hs : Spare m T new n c) (hL : c0.addrs.length < L) :
    ∃ out, After L (insertDescend · m parent new) (some out) ∧ (out = (m, .refused) ∨
      (∃ k' c1 p v' s1 passed c' first u r, Within m T lo hi bottom k' c1 p v' s1 ∧
        Place T n p passed k' v' s1 (.node c' first u r) ∧ out = (m, .conflict p first)) ∨
      ∃ m', out = (m', .linked) ∧
        Outcome bottom lo hi (Ordered n.start.toNat n.stop.toNat c) m') := by
  induction L generalizing k parent v c0 s0 with
  | zero => omega
  | succ L ih =>
    obtain ⟨p, q, hnew⟩ := hs.cell
    obtain ⟨out, hrun, rfl | ⟨passed, c', first, u, r, hplace, hne, hlt, rfl⟩ | ⟨m', rfl, hout⟩⟩ :=
      requestConflict_spec hw hs
    · refine ⟨_, after_iff.mpr fun turns hturns => ?_, .inl rfl⟩
      simp [insertDescend, hrun turns (by omega)]
    · have hcell : m first = _ := Tree.cell (hplace.tree_eq ▸ hw.tree)
      have hstep : ∀ turns, L < turns → insertDescend (turns + 1) m parent new =
          if u.start > n.start ∨ u.stop < n.stop then some (m, .conflict parent first)
          else if u.start = n.start ∧ u.stop = n.stop then some (m, .conflict parent first)
          else insertDescend turns m first new := by
        intro turns hturns
        simp only [insertDescend, hrun turns (by omega), bind_eq_bind, bind_some, hne,
          if_false, hcell, hnew, Attr.cell_start, Attr.cell_stop, Option.pure_def]
        rfl
      by_cases hin : (u.start > n.start ∨ u.stop < n.stop) ∨ u.start = n.start ∧ u.stop = n.stop
      · refine ⟨_, after_iff.mpr fun turns hturns => (hstep turns hturns).trans ?_,
          .inr (.inl ⟨k, c0, parent, v, s0, passed, c', first, u, r, hw, hplace, rfl⟩)⟩
        split_ifs with h1 h2
        · rfl
        · rfl
        · exact absurd hin (not_or.mpr ⟨h1, h2⟩)
      · -- the new range is strictly inside the child, which becomes the parent
        obtain ⟨h1, h2⟩ := not_or.mp hin
        obtain ⟨out, hafter, hout⟩ := ih (hw.child hplace) (by omega)
        refine ⟨out, after_iff.mpr fun turns hturns => ?_, hout⟩
        rw [hstep turns hturns, if_neg h1, if_neg h2]
        exact hafter turns hturns
    · refine ⟨_, after_iff.mpr fun turns hturns => ?_, .inr (.inr ⟨m', rfl, hout⟩)⟩
      simp [insertDescend, hrun turns (by omega)]

/-- The range `u` lies inside the range `n`. -/
def Inside (n u : Attr w) : Prop := n.start ≤ u.start ∧ u.stop ≤ n.stop

/-- The second loop of `insert_resource`: one of the siblings overlaps the new range
partially, or there is a run of siblings inside it, up to `last`. -/
theorem insertRun_spec {q1 q2 q3 : Option α} {next : α} (hs : Holds m p s)
    (hnext : s.addr? = some next) (hnew : m new = some (n.cell q1 q2 q3)) :
    ∃ out, After s.addrs.length (insertRun · m new next) (some out) ∧ (out = none ∨
      ∃ q c' last u t, s = append q (.node c' last u t) ∧ out = some last ∧
        (∀ p ∈ tops q, Inside n p.2) ∧
        Inside n u ∧ ∀ c a u r, t = .node c a u r → n.stop < u.start) := by
  induction s generalizing next with
  | nil => simp at hnext
  | node c a u r _ ih =>
    obtain rfl : a = next := by simpa using hnext
    obtain ⟨hcell, -, hr⟩ := hs
    by_cases hin : Inside n u
    · have hnot : ¬ (u.start < n.start ∨ u.stop > n.stop) := by
        rintro (h | h)
        · exact BitVec.not_lt.mpr hin.1 h
        · exact BitVec.not_lt.mpr hin.2 h
      cases r with
      | nil =>
        refine ⟨_, after_iff.mpr fun turns _ => ?_,
          .inr ⟨.nil, c, a, u, .nil, rfl, rfl, by simp [tops], hin, by simp⟩⟩
        simp [insertRun, hcell, hnew, hnot]
      | node c1 b u1 r1 =>
        have hcell1 := hr.1
        simp only [after_iff, insertRun, hcell, hnew, Attr.cell_start, Attr.cell_stop, hnot,
          if_false,
          Attr.cell_sibling, addr?_node, bind_eq_bind, bind_some, Option.pure_def, hcell1]
        by_cases hgt : u1.start > n.stop
        · refine ⟨_, fun turns _ => if_pos hgt, .inr ⟨.nil, c, a, u, _, rfl, rfl, by simp [tops],
            hin, ?_⟩⟩
          rintro c' a' u' r' heq
          obtain ⟨-, -, rfl, -⟩ := node.inj heq
          exact hgt
        · obtain ⟨out, hrun, hout⟩ := ih hr rfl
          refine ⟨out, fun turns hturns => ?_, ?_⟩
          · rw [addrs_node, length_append, length_cons] at hturns
            simp only [hgt, if_false]
            exact hrun turns (by omega)
          rcases hout with hnone | ⟨q, c', last, u', t, heq, hlast, hq, hu, ht⟩
          · exact .inl hnone
          · refine .inr ⟨.node c a u q, c', last, u', t, by rw [heq]; rfl, hlast, ?_, hu, ht⟩
            exact forall_mem_cons.mpr ⟨hin, hq⟩
    · refine ⟨none, after_iff.mpr fun turns _ => ?_, .inl rfl⟩
      have hout : u.start < n.start ∨ u.stop > n.stop := by
        by_contra hnot
        rw [not_or] at hnot
        exact hin ⟨BitVec.not_lt.mp hnot.1, BitVec.not_lt.mp hnot.2⟩
      simp [insertRun, hcell, hnew, hout]

/-! ## The run changes its parent -/

theorem addr?_append (q : Resources α w) {s : Resources α w} (h : s.addr? = t.addr?) :
    (append q s).addr? = (append q t).addr? := by
  cases q with
  | nil => exact h
  | node c a v r => rfl

/-- Memory that holds a list holds its end. -/
theorem Holds.right (h : Holds m p (append q t)) : Holds m p t := by
  induction q with
  | nil => exact h
  | node c a v r _ ih => exact ih h.2.2

theorem addrs_cut (q c' t : Resources α w) (last : α) (u : Attr w) :
    (append q (.node c' last u t)).addrs = (append q (.node c' last u .nil)).addrs ++ t.addrs := by
  simp [addrs_append]

variable [DecidableEq α]

/-- Cutting a list behind one of its resources. -/
theorem holds_cut (h : Holds m p (append q (.node c' last u t)))
    (hnd : (append q (.node c' last u t)).addrs.Nodup) :
    Holds (m.set last (some (u.cell p c'.addr? none))) p (append q (.node c' last u .nil)) := by
  induction q with
  | nil =>
    obtain ⟨hl, -⟩ := (nodup_join .left c' t last u).mp hnd
    exact ⟨set_self .., h.2.1.set hl _, trivial⟩
  | node c a v r _ ih =>
    obtain ⟨hcell, hc, hr⟩ := h
    obtain ⟨-, har, -, hndr, hcr⟩ := (nodup_join .left c _ a v).mp hnd
    have hlast : last ∈ (append r (.node c' last u t)).addrs := by simp [addrs_append]
    refine ⟨?_, hc.set (fun hb => hcr last hb hlast) _, ih hr hndr⟩
    rw [set_of_ne _ _ (ne_of_mem_of_not_mem hlast har).symm, hcell,
        addr?_append r (s := .node c' last u .nil) (t := .node c' last u t) rfl]

/-- The loop that gives a list another parent. -/
theorem reparent_spec (new : α) (hs : Holds m p s) (hnd : s.addrs.Nodup) :
    ∃ m', After s.addrs.length (reparent · m new s.addr?) (some m') ∧ Holds m' (some new) s ∧
      ∀ b, b ∉ s.addrs → m' b = m b := by
  induction s generalizing m with
  | nil => exact ⟨m, after_iff.mpr fun _ _ => rfl, trivial, fun _ _ => rfl⟩
  | node c a v r _ ih =>
    obtain ⟨hcell, hc, hr⟩ := hs
    obtain ⟨hac, har, -, hndr, hcr⟩ := (nodup_join .left c r a v).mp hnd
    have run1 := assign_spec (fun x => { x with parent := some new }) hcell
    obtain ⟨m', hrun, H', hoff⟩ :=
      ih (hr.set har (some (v.cell (some new) c.addr? r.addr?))) hndr
    refine ⟨m', after_iff.mpr fun turns hturns => ?_, ⟨?_, ?_, H'⟩, fun b hb => ?_⟩
    · rw [addrs_node, length_append, length_cons] at hturns
      rw [addr?_node, reparent, run1, bind_eq_bind, bind_some, set_self]
      exact hrun turns (by omega)
    · rw [hoff a har, set_self]
    · refine hc.congr fun b hb => ?_
      rw [hoff b (hcr b hb), set_of_ne _ _ (ne_of_mem_of_not_mem hb hac)]
    · simp only [addrs_node, mem_append, mem_cons, not_or] at hb
      rw [hoff b hb.2.2, set_of_ne _ _ hb.2.1]

/-- The pointer that leads to `first` is made to lead to `new`. -/
theorem relink_spec (turns : ℕ) (new : α) {k' : List (Frame α (Attr w))} {g : Frame α (Attr w)}
    (hright : ∀ g ∈ passed, g.side = .right)
    (hlist : passed ++ ⟨.left, parent, v, s0⟩ :: k = g :: k')
    (H : ContextHolds m (some first) (g :: k')) (hfirst : first ∉ around (g :: k'))
    (hturns : passed.length < turns) :
    (do
      let p ← m parent
      if p.child = some first then m.assign parent fun r => { r with child := some new }
      else
        let prev ← findPrevious turns m first (← p.child)
        m.assign prev fun r => { r with sibling := some new }) =
      some (m.set g.addr (some (frameCell g k' (some new)))) := by
  rcases eq_nil_or_concat passed with rfl | ⟨passed, g', rfl⟩
  · -- `first` is the first child of its parent
    obtain ⟨rfl, rfl⟩ := List.cons.inj hlist
    have hcell : m parent = some (v.cell (parentAt k) (some first) s0.addr?) := H.1
    simp only [hcell, bind_eq_bind, bind_some, Attr.cell_child, if_true]
    exact assign_spec _ hcell
  · rw [concat_eq_append] at hright hlist hturns
    rw [append_assoc] at hlist
    rw [length_append] at hturns
    obtain ⟨hne, hg, hfind⟩ := findPrevious_front hright hlist H hfirst
    obtain ⟨ptr, -, -, hcell, -⟩ := ContextHolds.outer (hlist ▸ H)
    have hcell : m parent = some (v.cell (parentAt k) (some g'.addr) s0.addr?) := hcell
    simp only [hcell, bind_eq_bind, bind_some, Attr.cell_child, some.injEq, hne, if_false,
      hfind turns (by omega)]
    rw [assign_spec _ H.1]
    simp only [frameCell, hg]
    rfl

/-- **The run changes its parent.** -/
theorem adoptRun_spec (hright : ∀ g ∈ passed, g.side = .right)
    (H : Tree m (plug (passed ++ ⟨.left, parent, v, s0⟩ :: k) (append q (.node c' last u t))))
    (hs : Spare m (plug (passed ++ ⟨.left, parent, v, s0⟩ :: k) (append q (.node c' last u t)))
      new n c) (hfirst : (append q (.node c' last u t)).addr? = some first) :
    ∃ m', After (plug (passed ++ ⟨.left, parent, v, s0⟩ :: k)
        (append q (.node c' last u t))).addrs.length (adoptRun · m parent new first last)
        (some m') ∧
      Tree m' (plug (passed ++ ⟨.left, parent, v, s0⟩ :: k)
        (.node (append q (.node c' last u .nil)) new n t)) := by
  have hparent : parentAt (passed ++ ⟨.left, parent, v, s0⟩ :: k) = some parent :=
    parentAt_append hright
  obtain ⟨g, k', hlist⟩ : ∃ g k', passed ++ ⟨.left, parent, v, s0⟩ :: k = g :: k' :=
    exists_cons_of_ne_nil (by simp)
  have hlen := length_addrs_plug (g :: k') (append q (.node c' last u t))
  have hlenk := length_le_around (g :: k')
  have hlenp := congrArg List.length hlist
  rw [length_append, length_cons, length_cons] at hlenp
  rw [length_cons] at hlenk
  rw [hlist] at H hs hparent ⊢
  obtain ⟨p0, q0, hnew⟩ := hs.cell
  have hfresh := hs.fresh
  rw [mem_addrs_plug, not_or] at hfresh
  have hL := H.list
  rw [hparent] at hL
  -- the addresses of the list are those of the run and those behind it
  have hcut := addrs_cut q c' t last u
  obtain ⟨hndrun, hndt, hrunt⟩ := nodup_append.mp (hcut ▸ H.nodup_list)
  have hrunL : ∀ b ∈ (append q (.node c' last u .nil)).addrs,
      b ∈ (append q (.node c' last u t)).addrs := fun b hb => hcut ▸ mem_append_left _ hb
  have htL : ∀ b ∈ t.addrs, b ∈ (append q (.node c' last u t)).addrs ∧
      b ∉ (append q (.node c' last u .nil)).addrs := fun b hb =>
    ⟨hcut ▸ mem_append_right _ hb, fun hbr => hrunt b hbr b hb rfl⟩
  have hlast : last ∈ (append q (.node c' last u .nil)).addrs := by simp [addrs_append]
  have hlastcell : m last = some (u.cell (some parent) c'.addr? t.addr?) := hL.right.1
  -- the new resource gets its pointers, and the run is cut off
  set m1 := m.set new (some (n.cell (some parent) (some first) t.addr?)) with hm1
  have run1 : m.assign new (fun r =>
      { r with parent := some parent, sibling := t.addr?, child := some first }) = some m1 :=
    assign_spec _ hnew
  have hL1 : Holds m1 (some parent) (append q (.node c' last u t)) := hL.set hfresh.1 _
  have run2 : m1.assign last (fun r => { r with sibling := none }) =
      some (m1.set last (some (u.cell (some parent) c'.addr? none))) :=
    assign_spec _ hL1.right.1
  -- the run gets its new parent
  obtain ⟨m3, run3, hrun3, hoff3⟩ := reparent_spec new (holds_cut hL1 H.nodup_list) hndrun
  have hfirst' : (append q (.node c' last u .nil)).addr? = some first := by
    rw [← hfirst]
    exact addr?_append q rfl
  rw [hfirst'] at run3
  have hoff : ∀ b, b ≠ new → b ∉ (append q (.node c' last u .nil)).addrs → m3 b = m b := by
    intro b hbn hb
    rw [hoff3 b hb, set_of_ne _ _ (ne_of_mem_of_not_mem hlast hb).symm, hm1, set_of_ne _ _ hbn]
  have haround : ∀ b ∈ around (g :: k'), m3 b = m b := fun b hb =>
    hoff b (ne_of_mem_of_not_mem hb hfresh.2) fun hbr => H.notMem_around (hrunL b hbr) hb
  have hctx3 : ContextHolds m3 (some first) (g :: k') := by
    have hctx := ((holds_plug _ _).mp H.holds).1
    rw [hfirst] at hctx
    exact hctx.congr haround
  have hnewrun : new ∉ (append q (.node c' last u .nil)).addrs :=
    fun h => hfresh.1 (hrunL new h)
  refine ⟨m3.set g.addr (some (frameCell g k' (some new))), fun turns hturns => ?_,
    H.replace (set_self ..) (fun b hb hbg => ?_) ⟨?_, ?_, ?_⟩ ?_ fun b hb => ?_⟩
  · have run4 := relink_spec turns new hright hlist hctx3
      (H.notMem_around (addr?_mem hfirst)) (by omega)
    rw [hcut, length_append] at hlen
    simp only [adoptRun, hlastcell, bind_eq_bind, bind_some, Attr.cell_sibling] at run4 ⊢
    rw [run1, bind_some, run2]
    simp only [run3 turns (by omega), bind_some]
    exact run4
  · rw [set_of_ne _ _ hbg, haround b hb]
  · rw [set_of_ne _ _ (ne_of_mem_of_not_mem (by simp) hfresh.2).symm, hoff3 new hnewrun,
      set_of_ne _ _ (ne_of_mem_of_not_mem hlast hnewrun).symm, hm1, set_self, hparent,
      hfirst']
  · exact hrun3.set (fun hb => H.ne_frame (hrunL _ hb) rfl) _
  · rw [hparent]
    refine hL.right.2.2.congr fun b hb => ?_
    obtain ⟨hbL, hbr⟩ := htL b hb
    rw [set_of_ne _ _ (H.ne_frame hbL), hoff b (ne_of_mem_of_not_mem hbL hfresh.1) hbr]
  · exact (nodup_join .left _ t new n).mpr ⟨hnewrun, fun h => hfresh.1 (htL new h).1,
      hndrun, hndt, fun b hb hbt => (htL b hbt).2 hb⟩
  · rcases (mem_addrs_join .left _ t new b n).mp hb with rfl | hb | hb
    · exact hfresh.2
    · exact H.notMem_around (hrunL b hb)
    · exact H.notMem_around (htL b hb).1

/-! ## Insertion -/

/-- **The outcomes of an insertion.** -/
theorem insertResource_spec (hw : Within m T lo hi bottom k c0 parent v s0)
    (hs : Spare m T new n c) :
    ∃ m' status, After T.addrs.length (insertResource · m parent new) (some (m', status)) ∧
      Outcome bottom lo hi (Ordered n.start.toNat n.stop.toNat c) m' ∧
      (status ≠ .ok → m' = m) := by
  obtain ⟨out, hrun, rfl | ⟨k', c1, p, v', s1, passed, c', first, u, r, hw', hplace, rfl⟩ |
    ⟨m', rfl, hout⟩⟩ := insertDescend_spec hw hs hw.length_lt
  · refine ⟨m, .ebusy, fun turns hturns => ?_, hw.outcome, fun _ => rfl⟩
    simp [insertResource, hrun turns hturns]
  · -- a conflict: the run of siblings inside the new range, if it ends well, is taken over
    obtain ⟨q1, q2, hnew⟩ := hs.cell
    have hTq := hplace.tree_eq
    have HT := hTq ▸ hw.tree
    have hlen : (node c' first u r).addrs.length ≤ T.addrs.length := by
      rw [hTq, length_addrs_plug]
      omega
    obtain ⟨out, hrun', rfl | ⟨q, c1, last, u1, t, heq, rfl, hq, hu, ht⟩⟩ :=
      insertRun_spec HT.list rfl hnew
    · refine ⟨m, .ebusy, fun turns hturns => ?_, hw.outcome, fun _ => rfl⟩
      simp [insertResource, hrun turns hturns, hrun' turns (by omega)]
    · have hfirst : (append q (.node c1 last u1 t)).addr? = some first := heq ▸ rfl
      rw [heq] at hTq HT
      obtain ⟨m', hadopt, H'⟩ := adoptRun_spec
        (fun g hg => (hplace.passed_lt g hg).1) HT (hTq ▸ hs) hfirst
      rw [← hTq] at hadopt
      refine ⟨m', .ok, fun turns hturns => ?_, outcome_of_plug (hw'.bottom_append passed) H'
        fun _ => ?_, fun h => absurd rfl h⟩
      · simp [insertResource, hrun turns hturns, hrun' turns (by omega), hadopt turns hturns]
      · obtain ⟨h1, h2, h3⟩ := hplace.bounds lo hi
        refine ordered_adopt ?_ h1 h2 h3 ?_ ?_
        · rw [append_append]
          exact hTq ▸ hw.order
        · intro p hp
          rw [tops_append, mem_append] at hp
          rcases hp with hp | hp
          · exact ⟨BitVec.le_def.mp (hq p hp).1, BitVec.le_def.mp (hq p hp).2⟩
          · obtain rfl : p = (last, u1) := by simpa [tops] using hp
            exact ⟨BitVec.le_def.mp hu.1, BitVec.le_def.mp hu.2⟩
        · exact fun c a u r hr => BitVec.lt_def.mp (ht c a u r hr)
  · refine ⟨m', .ok, fun turns hturns => ?_, hout, fun h => absurd rfl h⟩
    simp [insertResource, hrun turns hturns]

end Gp2xKernel.ResourceTree
