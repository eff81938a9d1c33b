import Gp2xKernel.ResourceTree.Insert

/-!
# The other operations of the resource tree

Each operation returns and leaves a tree with the same root.  The tree is in order again if
the operation was used with care: a resource that is added brings no children outside its
range, and a resource that is adjusted gets no reversed range.

## Main results

* `requestResource_spec`, `releaseResource_spec`, `allocateResource_spec`,
  `adjustResource_spec`, `requestRegion_spec`, `releaseRegion_spec`.
-/

namespace Gp2xKernel.ResourceTree

open Library List Option LinkedTree Mem

variable {α : Type} {w : ℕ} {m : Mem α w} {s c : Resources α w}
  {f bottom : Frame α (Attr w)} {k : List (Frame α (Attr w))} {root new res : α} {n v : Attr w}
  {lo hi : ℕ}

variable {T c0 s0 : Resources α w} {p p' c' q' : Option α}

/-- Every position below the root is among the children of a resource. -/
theorem exists_parentAt (hbottom : k.getLast? = some bottom) (hside : bottom.side = .left) :
    ∃ p, parentAt k = some p := by
  obtain ⟨l, rfl⟩ := List.getLast?_eq_some_iff.mp hbottom
  clear hbottom
  induction l with
  | nil =>
    rcases bottom with ⟨_ | _, a, u, s'⟩
    · exact ⟨a, rfl⟩
    · simp at hside
  | cons g l ih =>
    rcases g with ⟨_ | _, a, u, s'⟩
    · exact ⟨a, rfl⟩
    · exact ih

/-- The loop over the children ends, and tells whether they stay inside. -/
theorem childrenFit_spec (start stop : BitVec w) (hs : Holds m p s) :
    ∃ fit, After s.addrs.length (childrenFit · m start stop s.addr?) (some fit) ∧
      (fit = true → ∀ q ∈ tops s, start ≤ q.2.start ∧ q.2.stop ≤ stop) := by
  induction s with
  | nil => exact ⟨true, after_iff.mpr fun _ _ => rfl, fun _ => by simp [tops]⟩
  | node c a u r _ ih =>
    obtain ⟨ha, -, hr⟩ := hs
    simp only [addr?_node, after_iff, childrenFit, ha, Option.bind_eq_bind, Option.bind_some,
      Option.pure_def, Attr.cell_start, Attr.cell_stop, Attr.cell_sibling]
    by_cases hin : u.start < start ∨ u.stop > stop
    · exact ⟨false, fun turns _ => if_pos hin, fun h => absurd h (by simp)⟩
    · obtain ⟨fit, hfit, htops⟩ := ih hr
      refine ⟨fit, fun turns hturns => ?_, fun h q hq => ?_⟩
      · rw [addrs_node, length_append, length_cons] at hturns
        simp only [hin, if_false]
        exact hfit turns (by omega)
      rcases mem_cons.mp hq with rfl | hq
      · exact ⟨BitVec.not_lt.mp fun h => hin (.inl h), BitVec.not_lt.mp fun h => hin (.inr h)⟩
      · exact htops h q hq

theorem overlapsNext_spec (stop : BitVec w) (H : Tree m (plug k (.node c res v s))) :
    ∃ overlaps, overlapsNext m (v.cell (parentAt k) c.addr? s.addr?) stop = some overlaps ∧
      (overlaps = false → ∀ c' a u r, s = .node c' a u r → stop < u.start) := by
  cases s with
  | nil => exact ⟨false, rfl, fun _ => by simp⟩
  | node c' a u r =>
    have ha : m a = some (u.cell (parentAt k) c'.addr? r.addr?) := H.list.2.2.1
    refine ⟨decide (u.start ≤ stop), ?_, ?_⟩
    · simp only [overlapsNext, Attr.cell_sibling, addr?_node, ha, bind_eq_bind,
        Option.bind_some, Option.pure_def, Attr.cell_start]
      rfl
    · rintro hle c1 a1 u1 r1 heq
      obtain ⟨-, -, rfl, -⟩ := node.inj heq
      exact BitVec.not_le.mp (of_decide_eq_false hle)

/-- Every address of a tree holds a resource. -/
theorem Holds.isSome (H : Holds m p s) {b : α} (hb : b ∈ s.addrs) : m b ≠ none := by
  induction s generalizing p with
  | nil => simp at hb
  | node c a v r ihc ihr =>
    obtain ⟨ha, hc, hr⟩ := H
    rcases (mem_addrs_join .left c r a b v).mp hb with rfl | hb | hb
    · rw [ha]
      simp
    · exact ihc hc hb
    · exact ihr hr hb

/-! ## Requests and releases -/

variable [DecidableEq α]

theorem requestConflict_outcome (hw : Within m T lo hi bottom k c0 root v s0)
    (hs : Spare m T new n c) :
    ∃ out, After T.addrs.length (requestConflict · m root new) (some out) ∧
      ((∃ a, out = (m, some a)) ∨ ∃ m', out = (m', none) ∧
        Outcome bottom lo hi (Ordered n.start.toNat n.stop.toNat c) m') := by
  obtain ⟨out, hrun, hout⟩ := requestConflict_spec hw hs
  refine ⟨out, hrun.mono hw.length_lt.le, ?_⟩
  rcases hout with hout | ⟨-, -, t, -, -, -, -, -, hout⟩ | hout
  · exact .inl ⟨root, hout⟩
  · exact .inl ⟨t, hout⟩
  · exact .inr hout

theorem requestResource_spec (hw : Within m T lo hi bottom k c0 root v s0)
    (hs : Spare m T new n c) :
    ∃ m' status, After T.addrs.length (requestResource · m root new) (some (m', status)) ∧
      Outcome bottom lo hi (Ordered n.start.toNat n.stop.toNat c) m' ∧
      (status ≠ .ok → m' = m) := by
  obtain ⟨out, hrun, ⟨a, rfl⟩ | ⟨m', rfl, hout⟩⟩ := requestConflict_outcome hw hs
  · refine ⟨m, .ebusy, fun turns hturns => ?_, hw.outcome, fun _ => rfl⟩
    simp [requestResource, hrun turns hturns]
  · refine ⟨m', .ok, fun turns hturns => ?_, hout, fun h => absurd rfl h⟩
    simp [requestResource, hrun turns hturns]

theorem releaseResource_spec (H : Tree m T) (hT : T = plug k (.node c res v s))
    (hbottom : k.getLast? = some bottom) (hside : bottom.side = .left) (hord : Ordered lo hi T) :
    ∃ m', After T.addrs.length (releaseResource · m res) (some (m', .ok)) ∧
      Outcome bottom lo hi True m' := by
  subst hT
  obtain ⟨p, hp⟩ := exists_parentAt hbottom hside
  obtain ⟨m', hrun, H'⟩ := unlinkResource_spec H hp
  refine ⟨m', fun turns hturns => hrun turns ?_,
    outcome_of_plug hbottom H' fun _ => ordered_removeAt hord⟩
  have := length_le_around k
  rw [length_addrs_plug] at hturns
  omega

/-! ## Allocation -/

variable (size min max alignment : BitVec w) (alignf : Option (AlignFn α w))

/-- The search of `find_resource` writes nothing but the range of the new resource. -/
theorem findLoop_spec {r : Resource α w} (hs : Holds m p s) (hroot : m root = some r)
    (hnew : m new = some (n.cell p' c' q')) (hne : root ≠ new) (hns : new ∉ s.addrs) :
    ∃ n' : Attr w, ∃ status,
      After s.addrs.length (findLoop root new size min max alignment alignf · m s.addr?)
        (some (m.set new (some (n'.cell p' c' q')), status)) := by
  induction s generalizing m n with
  | nil =>
    simp only [after_iff, findLoop, addr?_nil, hroot, hnew, bind_eq_bind, bind_some,
      Option.pure_def, Mem.assign, Mem.set_self, Mem.set_set]
    generalize gapRange (n.cell p' c' q') r.stop size min max alignment alignf = range
    split
    · exact ⟨⟨range.1, range.1 + size - 1, n.flags⟩, _, fun _ _ => rfl⟩
    · exact ⟨⟨range.1, range.2, n.flags⟩, _, fun _ _ => rfl⟩
  | node c t u r' _ ih =>
    obtain ⟨ht, -, hr'⟩ := hs
    have htn : t ≠ new := by
      rintro rfl
      exact hns (by simp)
    simp only [after_iff, findLoop, addr?_node, ht, hnew, bind_eq_bind,
      Option.bind_some, Option.pure_def, Mem.assign, Mem.set_self, Mem.set_set,
      Mem.set_of_ne _ _ htn,
      addrs_node, length_append, length_cons]
    generalize gapRange (n.cell p' c' q') ((u.cell p c.addr? r'.addr?).start - 1) size min max
      alignment alignf = range
    split
    · exact ⟨⟨range.1, range.1 + size - 1, n.flags⟩, _, fun _ _ => rfl⟩
    · -- the next gap
      have hr'n : new ∉ r'.addrs := fun h => hns (by simp [h])
      set n1 : Attr w := ⟨u.stop + 1, range.2, n.flags⟩
      obtain ⟨n', status, hrun⟩ := ih (m := m.set new (some (n1.cell p' c' q'))) (hr'.set hr'n _)
        ((Mem.set_of_ne _ _ hne).trans hroot) (Mem.set_self ..) hr'n
      rw [Mem.set_set] at hrun
      exact ⟨n', status, fun turns hturns => hrun turns (by omega)⟩

/-- **`find_resource`** writes nothing but the range of the new resource. -/
theorem findResource_spec
    (H : Tree m (plug k (.node c0 root v s0))) (hnew : m new = some (n.cell p' c' q'))
    (hfresh : new ∉ (plug k (.node c0 root v s0)).addrs) :
    ∃ n' : Attr w, ∃ status,
      After c0.addrs.length (findResource · m root new size min max alignment alignf)
        (some (m.set new (some (n'.cell p' c' q')), status)) := by
  rw [mem_addrs_plug, not_or] at hfresh
  have hne : root ≠ new := by
    rintro rfl
    exact hfresh.1 (by simp)
  have hc0 : new ∉ c0.addrs := fun h => hfresh.1 (by simp [h])
  have hlist : Holds m (some root) c0 := H.list.2.1
  have hroot := H.cell
  have step : ∀ (s : Resources α w) (start : BitVec w), Holds m (some root) s → new ∉ s.addrs →
      s.addrs.length ≤ c0.addrs.length → ∃ n' : Attr w, ∃ status,
        After c0.addrs.length (findLoop root new size min max alignment alignf ·
          (m.set new (some { n.cell p' c' q' with start := start })) s.addr?)
            (some (m.set new (some (n'.cell p' c' q')), status)) := by
    intro s start hs hns hlen
    obtain ⟨n', status, hrun⟩ := findLoop_spec (m := m.set new (some (Attr.cell
      ⟨start, n.stop, n.flags⟩ p' c' q'))) size min max alignment alignf
      (hs.set hns _)
      ((set_of_ne _ _ hne).trans hroot) (set_self ..) hne hns
    rw [Mem.set_set] at hrun
    exact ⟨n', status, fun turns hturns => hrun turns (hlen.trans_lt hturns)⟩
  simp only [findResource, hroot, assign, hnew, bind_eq_bind, bind_some,
    Option.pure_def, Attr.cell_child]
  cases c0 with
  | nil => exact step .nil _ trivial (by simp) le_rfl
  | node c t u r =>
    have htn : t ≠ new := by
      rintro rfl
      exact hc0 (by simp)
    have hrn : new ∉ r.addrs := fun h => hc0 (by simp [h])
    simp only [addr?_node, set_of_ne _ _ htn, hlist.1, bind_some, Mem.set_self, Mem.set_set]
    split
    · refine step r _ hlist.2.2 hrn ?_
      rw [addrs_node, length_append, length_cons]
      omega
    · exact step (.node c t u r) _ hlist hc0 le_rfl

theorem Spare.setRange {n' : Attr w} {q : Option α} (hs : Spare m T new n c) :
    Spare (m.set new (some (n'.cell p c.addr? q))) T new n' c where
  cell := ⟨p, q, Mem.set_self ..⟩
  holds := hs.holds.set hs.notMem _
  nodup := hs.nodup
  notMem := hs.notMem
  fresh := hs.fresh
  disjoint := hs.disjoint

/-- **`allocate_resource`**: if it fails, it has written nothing but the new resource. -/
theorem allocateResource_spec
    (hw : Within m T lo hi bottom k c0 root v s0) (hs : Spare m T new n .nil) :
    ∃ m' status, After T.addrs.length (allocateResource · m root new size min max alignment alignf)
        (some (m', status)) ∧
      Outcome bottom lo hi True m' ∧ (status ≠ .ok → ∀ b, b ≠ new → m' b = m b) := by
  obtain ⟨p, q, hnew⟩ := hs.cell
  have hlen := hw.length_lt
  obtain ⟨n', err, hfind⟩ := findResource_spec size min max alignment alignf (hw.eq ▸ hw.tree) hnew
    (hw.eq ▸ hs.fresh)
  set m1 := m.set new (some (n'.cell p (nil : Resources α w).addr? q))
  have hoff : ∀ b, b ≠ new → m1 b = m b := fun b hb => set_of_ne _ _ hb
  have hw1 : Within m1 T lo hi bottom k c0 root v s0 :=
    { hw with tree := hw.tree.set hs.fresh _ }
  by_cases herr : err = .ok
  · obtain ⟨out, hrun, ⟨a, rfl⟩ | ⟨m', rfl, c, H', hord'⟩⟩ :=
      requestConflict_outcome hw1 hs.setRange
    · refine ⟨m1, .ebusy, fun turns hturns => ?_, hw1.outcome, fun _ => hoff⟩
      simp [allocateResource, hfind turns (by omega), herr, hrun turns hturns]
    · refine ⟨m', .ok, fun turns hturns => ?_, ⟨c, H', fun _ => hord' trivial⟩,
        fun h => absurd rfl h⟩
      simp [allocateResource, hfind turns (by omega), herr, hrun turns hturns]
  · refine ⟨m1, err, fun turns hturns => ?_, hw1.outcome, fun _ => hoff⟩
    simp [allocateResource, hfind turns (by omega), herr]

/-! ## Adjustment -/

/-- The test against the sibling in front keeps the range above the lower bound. -/
theorem overlapsPrevious_spec (lo : ℕ) (start : BitVec w) (q1 q2 : Option α) {p : α}
    {u : Attr w} {passed k0 : List (Frame α (Attr w))} (hright : ∀ g ∈ passed, g.side = .right)
    (H : Tree m (plug (passed ++ ⟨.left, p, u, s0⟩ :: k0) (.node c res v s))) :
    ∃ overlaps, After passed.length (overlapsPrevious · m
        (u.cell q1 (plug passed (.node c res v s)).addr? q2) res start) (some overlaps) ∧
      (overlaps = false → u.start ≤ start →
        lowAt lo (passed ++ ⟨.left, p, u, s0⟩ :: k0) ≤ start.toNat) := by
  obtain ⟨hctx, -⟩ := (holds_plug _ _).mp H.holds
  rcases eq_nil_or_concat passed with rfl | ⟨passed, f, rfl⟩
  · refine ⟨false, fun turns _ => ?_, fun _ h => BitVec.le_def.mp h⟩
    simp [overlapsPrevious]
  · rw [concat_eq_append] at *
    have hf := hright f (by simp)
    rw [append_assoc, singleton_append] at hctx H ⊢
    obtain ⟨g, k', hlist⟩ : ∃ g k', passed ++ f :: ⟨.left, p, u, s0⟩ :: k0 = g :: k' :=
      exists_cons_of_ne_nil (by simp)
    rw [hlist] at hctx H
    obtain ⟨hne, hg, hfind⟩ := findPrevious_front hright hlist hctx (H.notMem_around (by simp))
    have hcell := H.frame
    refine ⟨decide (start ≤ g.data.stop), fun turns hturns => ?_, ?_⟩
    · rw [length_append] at hturns
      simp only [overlapsPrevious, Attr.cell_child, plug_right passed hf, addr?_node,
        bind_eq_bind, bind_some, hne, if_false, hfind turns (by omega), hcell,
        frameCell, hg, Attr.cell_stop, Option.pure_def]
      rfl
    · intro hle _
      rw [hlist]
      rcases g with ⟨_ | _, a, u', s'⟩
      · simp at hg
      · exact BitVec.lt_def.mp (BitVec.not_le.mp (of_decide_eq_false hle))

variable (start size : BitVec w)

/-- **`adjust_resource`** keeps the order unless the new range is reversed. -/
theorem adjustResource_spec (H : Tree m T)
    (hT : T = plug k (.node c res v s)) (hbottom : k.getLast? = some bottom)
    (hside : bottom.side = .left) (hord : Ordered lo hi T) :
    ∃ m' status, After T.addrs.length (adjustResource · m res start size) (some (m', status)) ∧
      Outcome bottom lo hi (start ≤ start + size - 1) m' ∧ (status ≠ .ok → m' = m) := by
  subst hT
  obtain ⟨p, hp⟩ := exists_parentAt hbottom hside
  obtain ⟨passed, u, s0, k0, rfl, hright⟩ := exists_passed hp
  have hlen := length_le_around (passed ++ ⟨.left, p, u, s0⟩ :: k0)
  rw [length_append] at hlen
  set k := passed ++ ⟨.left, p, u, s0⟩ :: k0 with hk
  set stop := start + size - 1 with hstop
  have hcell := H.cell
  have hparent :
      m p = some (u.cell (parentAt k0) (plug passed (.node c res v s)).addr? s0.addr?) := by
    have H0 : Tree m (plug k0 (.node (plug passed (.node c res v s)) p u s0)) := by
      rw [plug_append] at H
      exact H
    exact H0.cell
  obtain ⟨fit, hfit, htops⟩ := childrenFit_spec start stop H.list.2.1
  obtain ⟨next, hnext, hnextLt⟩ := overlapsNext_spec stop H
  obtain ⟨prev, hprev, hprevLt⟩ := overlapsPrevious_spec lo start (parentAt k0) s0.addr? hright H
  rw [hp] at hcell hnext
  have hrun : After (plug k (.node c res v s)).addrs.length (adjustResource · m res start size)
      (if start < u.start ∨ stop > u.stop then some (m, .ebusy)
      else if !fit then some (m, .ebusy)
      else if next then some (m, .ebusy)
      else if prev then some (m, .ebusy)
      else some (m.set res (some (Attr.cell ⟨start, stop, v.flags⟩ (some p) c.addr? s.addr?)),
        .ok)) := by
    intro turns hturns
    rw [length_addrs_plug, addrs_node, length_append] at hturns
    simp only [adjustResource, hcell, bind_eq_bind, bind_some, Attr.cell_parent,
      hparent, Attr.cell_child, ← hstop, hfit turns (by omega), hnext, hprev turns (by omega),
      assign_spec _ hcell, Option.pure_def]
    rfl
  have hsame : ∃ m' status, some (m, Status.ebusy) = some (m', status) ∧
      Outcome bottom lo hi (start ≤ stop) m' ∧ (status ≠ .ok → m' = m) :=
    ⟨m, .ebusy, rfl, outcome_of_plug hbottom H fun _ => hord, fun _ => rfl⟩
  refine hrun.exists_of_eq ?_
  split
  · exact hsame
  · rename_i hrange
    cases fit with
    | false => exact hsame
    | true =>
      cases next with
      | true => exact hsame
      | false =>
        cases prev with
        | true => exact hsame
        | false =>
          have H' := H.setAttr ⟨start, stop, v.flags⟩
          rw [hp] at H'
          refine ⟨_, .ok, rfl, outcome_of_plug hbottom H' fun hle => ?_, fun h => absurd rfl h⟩
          obtain ⟨h1, h2⟩ := not_or.mp hrange
          obtain ⟨-, -, -, -, hc, -⟩ := (ordered_plug k _).mp hord
          refine ordered_insertAt (ordered_removeAt hord) (hprevLt rfl (BitVec.not_lt.mp h1))
            (BitVec.le_def.mp hle) ?_
            (hc.between fun q hq => ?_) fun c' a u r hr =>
              BitVec.lt_def.mp (hnextLt rfl c' a u r hr)
          · rw [highAt_append hright]
            exact BitVec.le_def.mp (BitVec.not_lt.mp h2)
          · exact ⟨BitVec.le_def.mp (htops rfl q hq).1, BitVec.le_def.mp (htops rfl q hq).2⟩

/-! ## Regions -/

/-- The loop of `__request_region`: the new region sinks through resources that are not
busy.  If it finds no place, its resource is freed. -/
theorem regionLoop_spec {L : ℕ} (hw : Within m T lo hi bottom k c0 root v s0)
    (hs : Spare m T res n .nil) (hL : c0.addrs.length < L) :
    ∃ out, After L (regionLoop · m root res) (some out) ∧ (out = (m.set res none, none) ∨
      ∃ m', out = (m', some res) ∧ Outcome bottom lo hi True m') := by
  induction L generalizing k root v c0 s0 with
  | zero => omega
  | succ L ih =>
    obtain ⟨out, hrun, rfl | ⟨passed, c', first, u, r, hplace, hne, hlt, rfl⟩ |
      ⟨m', rfl, c, H', hord⟩⟩ := requestConflict_spec hw hs
    · refine ⟨_, after_iff.mpr fun turns hturns => ?_, .inl rfl⟩
      simp [regionLoop, hrun turns (by omega)]
    · have hcell : m first = _ := Tree.cell (hplace.tree_eq ▸ hw.tree)
      have hstep : ∀ turns, L < turns → regionLoop (turns + 1) m root res =
          if u.flags &&& ioresourceBusy = 0 then regionLoop turns m first res
          else some (m.set res none, none) := by
        intro turns hturns
        simp only [regionLoop, hrun turns (by omega), bind_eq_bind, bind_some, ne_eq,
          hne, not_false_eq_true, if_true, hcell, Attr.cell_flags, Option.pure_def]
        rfl
      by_cases hbusy : u.flags &&& ioresourceBusy = 0
      · -- the conflict is not busy, and the region goes below it
        obtain ⟨out, hafter, hout⟩ := ih (hw.child hplace) (by omega)
        refine ⟨out, after_iff.mpr fun turns hturns => (hstep turns hturns).trans ?_, hout⟩
        rw [if_pos hbusy]
        exact hafter turns hturns
      · exact ⟨_, after_iff.mpr fun turns hturns => (hstep turns hturns).trans (if_neg hbusy),
          .inl rfl⟩
    · refine ⟨_, after_iff.mpr fun turns hturns => ?_, .inr ⟨m', rfl, c, H', fun _ => hord trivial⟩⟩
      simp [regionLoop, hrun turns (by omega)]

/-- **`__request_region`**: if it fails, memory is as it was. -/
theorem requestRegion_spec (alloc : Option α)
    (hw : Within m T lo hi bottom k c0 root v s0) (halloc : ∀ a ∈ alloc, m a = none) :
    ∃ m' region, After T.addrs.length (requestRegion · m root start size alloc)
      (some (m', region)) ∧
      Outcome bottom lo hi True m' ∧ (region = none → m' = m) := by
  cases alloc with
  | none => exact ⟨m, none, fun _ _ => rfl, hw.outcome, fun _ => rfl⟩
  | some a =>
    have ha : m a = none := halloc a rfl
    have hfresh : a ∉ T.addrs := fun h => hw.tree.holds.isSome h ha
    set n : Attr w := ⟨start, start + size - 1, ioresourceBusy⟩
    have hs : Spare (m.set a (some (n.cell none none none))) T a n .nil :=
      ⟨⟨none, none, set_self ..⟩, trivial, by simp, by simp, hfresh, by simp⟩
    have hw1 : Within (m.set a (some (n.cell none none none))) T lo hi bottom k c0 root v s0 :=
      { hw with tree := hw.tree.set hfresh _ }
    obtain ⟨out, hrun, rfl | ⟨m', rfl, hout⟩⟩ := regionLoop_spec hw1 hs hw.length_lt
    · refine ⟨m, none, ?_, hw.outcome, fun _ => rfl⟩
      have hback : (m.set a (some (n.cell none none none))).set a none = m := by
        rw [Mem.set_set, ← ha]
        exact set_eq_self m a
      rw [hback] at hrun
      exact hrun
    · exact ⟨m', some a, hrun, hout, fun h => by cases h⟩

/-- The loop of `__release_region`: nothing matches, or the region is taken out and freed. -/
theorem releaseRegionLoop_spec (start stop : BitVec w) (H : Tree m T) (hT : T = plug (f :: k) s)
    (hbottom : (f :: k).getLast? = some bottom) (hord : Ordered lo hi T) :
    ∃ out, After s.addrs.length (releaseRegionLoop · m start stop (loc f)) (some out) ∧
      (out = (m, false) ∨ ∃ m', out = (m', true) ∧ Outcome bottom lo hi True m') := by
  induction s generalizing f k with
  | nil =>
    refine ⟨_, after_iff.mpr fun turns _ => ?_, .inl rfl⟩
    rw [releaseRegionLoop, read_loc (hT ▸ H)]
    rfl
  | node c res v s ihc ihs =>
    have HT := hT ▸ H
    have hcell := HT.cell
    have hwrite := write_loc s.addr? HT.frame
    have hbottom' : ∀ g : Frame α (Attr w), (g :: f :: k).getLast? = some bottom := by
      intro g
      exact hbottom
    rw [addrs_node, length_append, length_cons]
    simp only [after_iff, releaseRegionLoop, read_loc HT, addr?_node, bind_eq_bind, bind_some,
      hcell,
      Attr.cell_start, Attr.cell_stop, Attr.cell_flags, Attr.cell_sibling, hwrite, Option.pure_def]
    split
    · split
      · obtain ⟨out, hafter, hout⟩ := ihc (f := ⟨.left, res, v, s⟩) (k := f :: k) hT (hbottom' _)
        exact ⟨out, fun turns hturns => hafter turns (by omega), hout⟩
      · split
        · exact ⟨_, fun _ _ => rfl, .inl rfl⟩
        · -- the region is found
          refine ⟨_, fun _ _ => rfl, .inr ⟨_, rfl, outcome_of_plug hbottom
            (HT.unlink ?_ fun b hbr hbf => ?_) fun _ => ordered_removeAt (hT ▸ hord)⟩⟩
          · rw [set_of_ne _ _ (HT.ne_frame (by simp)).symm, set_self]
          · rw [set_of_ne _ _ hbr, set_of_ne _ _ hbf]
    · obtain ⟨out, hafter, hout⟩ := ihs (f := ⟨.right, res, v, c⟩) (k := f :: k) hT (hbottom' _)
      exact ⟨out, fun turns hturns => hafter turns (by omega), hout⟩

/-- **`__release_region`**: if no region matches, memory is as it was. -/
theorem releaseRegion_spec (hw : Within m T lo hi bottom k c0 root v s0) :
    ∃ m' found, After T.addrs.length (releaseRegion · m root start size) (some (m', found)) ∧
      Outcome bottom lo hi True m' ∧ (found = false → m' = m) := by
  obtain ⟨out, hrun, hout⟩ := releaseRegionLoop_spec (f := ⟨.left, root, v, s0⟩) start
    (start + size - 1) hw.tree hw.eq hw.bottom_eq hw.order
  replace hrun := hrun.mono hw.length_lt.le
  rcases hout with rfl | ⟨m', rfl, hout⟩
  · exact ⟨m, false, hrun, hw.outcome, fun _ => rfl⟩
  · exact ⟨m', true, hrun, hout, fun h => by cases h⟩

end Gp2xKernel.ResourceTree
