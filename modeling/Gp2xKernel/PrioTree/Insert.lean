import Gp2xKernel.PrioTree.Remove

/-!
# The walk of `prio_tree_insert`

The walk down carries a node along the path its interval spells.  Wherever the carried
node goes above the current one, the two change places, so the carried node stays below
all nodes it has passed, and the walk can only end in an empty position or at a node with
the same interval.  In particular the mask never runs out.

## Main definitions

* `MaskOk`: what the mask and the flag of the walk say about the depth.
* `Stored`: the outcome of a walk that stores a node.

## Main results

* `insertLoop_found`: the walk for an interval that is stored.
* `insertLoop_new`: the walk for a new interval.
-/

namespace Gp2xKernel.PrioTree

open Library Option LinkedTree BitVec List

/-! ## The mask -/

section Mask

variable {w : ℕ}

/-- The bit the walk looks at in the given depth of a tree of width `b`. -/
def maskAt (b n : ℕ) : BitVec w :=
  1#w <<< (if n < b then b - 1 - n else w - 1 - (n - b))

theorem and_shift_ne_zero (x : BitVec w) (j : ℕ) : x &&& 1#w <<< j ≠ 0 ↔ x.getLsbD j = true := by
  rw [← twoPow_eq, and_twoPow]
  by_cases hj : x.getLsbD j = true
  · have hjw : j < w := lt_of_getLsbD hj
    simp only [hj, iff_true]
    intro h
    have := congrArg (·.getLsbD j) h
    simp [hjw] at this
  · simp [hj]

variable {j : ℕ}

theorem shift_ne_zero (hj : j < w) : 1#w <<< j ≠ 0 := by
  intro h
  have := congrArg (·.getLsbD j) h
  simp [hj] at this

theorem shift_succ_ushiftRight (hj : j + 1 < w) : (1#w <<< (j + 1)) >>> 1 = 1#w <<< j := by
  grind

variable {b n : ℕ}

theorem maskAt_ne_zero (hbw : b ≤ w) (hn : n < b + w) : (maskAt b n : BitVec w) ≠ 0 := by
  refine shift_ne_zero ?_
  split <;> omega

theorem maskAt_last (hn : n + 1 = b ∨ n + 1 = b + w) : (maskAt b n : BitVec w) = 1#w := by
  have hbit : (if n < b then b - 1 - n else w - 1 - (n - b)) = 0 := by
    split <;> omega
  rw [maskAt, hbit]
  simp

/-- Elsewhere the next level looks at the next lower bit. -/
theorem maskAt_next (hbw : b ≤ w) (hn : n + 1 < b + w) (hb : n + 1 ≠ b) :
    ∃ j, j + 1 < w ∧ (maskAt b n : BitVec w) = 1#w <<< (j + 1) ∧
      (maskAt b (n + 1) : BitVec w) = 1#w <<< j := by
  by_cases hnb : n < b
  · refine ⟨b - 1 - (n + 1), by omega, ?_, ?_⟩
    · rw [maskAt, if_pos hnb, show b - 1 - (n + 1) + 1 = b - 1 - n by omega]
    · rw [maskAt, if_pos (by omega)]
  · refine ⟨w - 1 - (n + 1 - b), by omega, ?_, ?_⟩
    · rw [maskAt, if_neg hnb, show w - 1 - (n + 1 - b) + 1 = w - 1 - (n - b) by omega]
    · rw [maskAt, if_neg (by omega)]

theorem one_ushiftRight_one : 1#w >>> 1 = 0 :=
  eq_of_getLsbD_eq fun t _ => by simp [getLsbD_one]

/-- The mask and the flag of the walk: they are right wherever the tree can have nodes. -/
structure MaskOk (b n : ℕ) (mask : BitVec w) (flag : Bool) : Prop where
  ne_zero : mask ≠ 0
  eq : n < b + w → mask = maskAt b n ∧ flag = decide (b ≤ n)

theorem MaskOk.init (hb : 1 ≤ b) (hbw : b ≤ w) : MaskOk b 0 (1#w <<< (b - 1)) false := by
  refine ⟨shift_ne_zero (by omega), fun _ => ⟨?_, ?_⟩⟩
  · simp [maskAt, show 0 < b by omega]
  · simp [show ¬ b ≤ 0 by omega]

variable {mask : BitVec w} {flag : Bool}

theorem MaskOk.side_eq (h : MaskOk b n mask flag) (hn : n < b + w) (x : Index w) :
    (if (if flag then x.heap - x.radix else x.radix) &&& mask ≠ 0 then Side.right
      else Side.left) = pathSide b x n := by
  obtain ⟨rfl, rfl⟩ := h.eq hn
  simp only [maskAt, and_shift_ne_zero, pathSide]
  by_cases hnb : n < b
  · simp [hnb, not_le.mpr hnb]
  · simp [hnb, not_lt.mp hnb]

theorem MaskOk.step (h : MaskOk b n mask flag) (hn : n < b + w) (hbw : b ≤ w) :
    (mask >>> 1 = 0 → MaskOk b (n + 1) (1#w <<< (w - 1)) true) ∧
      (mask >>> 1 ≠ 0 → MaskOk b (n + 1) (mask >>> 1) flag) := by
  obtain ⟨rfl, rfl⟩ := h.eq hn
  by_cases hlast : n + 1 = b ∨ n + 1 = b + w
  · -- the path changes from the start to the size here, or ends
    rw [maskAt_last hlast, one_ushiftRight_one]
    refine ⟨fun _ => ⟨shift_ne_zero (by omega), fun hlt => ?_⟩, fun h => absurd rfl h⟩
    have hn1 : n + 1 = b := by omega
    simp [maskAt, hn1]
  · obtain ⟨j, hj, hmask, hnext⟩ := maskAt_next hbw (by omega) (fun h => hlast (.inl h))
    rw [hmask, shift_succ_ushiftRight hj, ← hnext]
    have hne := maskAt_ne_zero (n := n + 1) hbw (by omega)
    refine ⟨fun h => absurd h hne, fun _ => ⟨hne, fun _ => ⟨rfl, ?_⟩⟩⟩
    rw [decide_eq_decide]
    omega

end Mask

/-! ## The walk down -/

variable {α : Type} {w : ℕ} [DecidableEq α] {m : Mem α w} {k : List (Frame α (Entry w))}
  {b : ℕ} {raw : Bool} {mask : BitVec w} {flag : Bool} {cur x res : α} {i u : Index w}

variable {d : Side} {c : Cell α (Entry w)} {m1 : Mem α w} {A B : LinkedTree α (Entry w)}
  {v : Entry w}

/-- One turn without an exchange, into a child that exists. -/
theorem insertLoop_descend {e : α} (H : m.Holds (plug k (.join d A cur v B)))
    (hraw : m.root.raw = raw) (hbelow : (getIndex raw v).Above u)
    (hpath : pathSide b u (sides k).length = d) (hA : A.addr? = some e)
    (hdepth : (sides k).length < b + w) (hbw : b ≤ w) (hmask : MaskOk b k.length mask flag) :
    ∃ mask' flag', MaskOk b (k.length + 1) mask' flag' ∧ ∀ turns,
      insertLoop (turns + 1) m cur x res u mask flag =
        insertLoop turns m e x res u mask' flag' := by
  rw [length_sides] at hpath hdepth
  have hside := (hmask.side_eq hdepth u).trans hpath
  have hindex : m.index cur = some (getIndex raw v) := hraw ▸ H.index
  have hup : ¬ ((getIndex raw v).heap < u.heap ∨
      (getIndex raw v).heap = u.heap ∧ (getIndex raw v).radix > u.radix) :=
    fun h => (Index.Above.trans h hbelow).ne rfl
  have hchild : e ≠ cur := by
    rintro rfl
    exact ((nodup_join ..).mp ((nodup_plug _ _).mp H.nodup).1).1 (addr?_mem hA)
  simp only [insertLoop, hmask.ne_zero, if_false, hindex, hbelow.ne.symm, hup, H.cell, hside,
    bind_eq_bind, bind_some, Option.pure_def, Cell.child_join, hA, getD_some, hchild]
  obtain ⟨hlast, hnext⟩ := hmask.step hdepth hbw
  by_cases h : mask >>> 1 = 0
  · exact ⟨_, _, hlast h, fun turns => if_pos h⟩
  · exact ⟨_, _, hnext h, fun turns => if_neg h⟩

variable (turns : ℕ)

/-- One turn without an exchange, into an empty position. -/
theorem insertLoop_link {m2 m3 : Mem α w} (hcell : m.heap cur = some c) (hi : m.index cur = some i)
    (hne : i ≠ u) (hu : ¬ u.Above i) (hmask : mask ≠ 0)
    (hside : (if (if flag then u.heap - u.radix else u.radix) &&& mask ≠ 0 then Side.right
      else Side.left) = d) (hchild : c.child d = cur) (run1 : m.initPrioTreeNode x = some m1)
    (run2 : m1.setChild d cur x = some m2) (run3 : m2.setParent x cur = some m3) :
    insertLoop (turns + 1) m cur x res u mask flag = some (m3, res) := by
  replace hu : ¬ (i.heap < u.heap ∨ i.heap = u.heap ∧ i.radix > u.radix) := hu
  subst hside
  simp only [insertLoop, hmask, if_false, hi, hne, hu, hcell, bind_eq_bind,
    bind_some, Option.pure_def, hchild, if_true, run1, run2, run3]

/-- A turn with an exchange goes on like one in which the two nodes have changed places
before. -/
theorem insertLoop_swap (hi : m.index cur = some i) (hu : u.Above i) (hmask : mask ≠ 0)
    (hrun : prioTreeReplace m cur x = some (m1, cur)) (hx : m1.index x = some u) :
    insertLoop (turns + 1) m cur x res u mask flag =
      insertLoop (turns + 1) m1 x cur res i mask flag := by
  have hne : i ≠ u := hu.ne
  have hi' : ¬ i.Above u := fun h => (h.trans hu).ne rfl
  replace hu : i.heap < u.heap ∨ i.heap = u.heap ∧ i.radix > u.radix := hu
  replace hi' : ¬ (u.heap < i.heap ∨ u.heap = i.heap ∧ u.radix > i.radix) := hi'
  simp only [insertLoop, hmask, if_false, hi, hne, hne.symm, hu, if_true, hrun, hx, hi',
    bind_eq_bind, bind_some]

/-- Two different intervals on one path are above the level where the path ends. -/
theorem depth_lt {ds : List Side} (hi : Follows b ds i) (hu : Follows b ds u) (hfi : i.Fits b)
    (hfu : u.Fits b) (hne : i ≠ u) : ds.length < b + w := by
  by_contra hlen
  exact hne (hi.eq hu hfi hfu (not_lt.mp hlen))

omit [DecidableEq α] in
theorem AllFit.sub {δ : Type*} {ix : δ → Index w} {k : List (Frame α δ)} {s : LinkedTree α δ}
    (h : AllFit ix b (plug k s)) : AllFit ix b s := fun p hp =>
  h p ((items_plug_perm _ _).mem_iff.mpr (mem_append_left _ hp))

/-- **The walk finds a stored interval**, and changes nothing on its way. -/
theorem insertLoop_found (s : LinkedTree α (Entry w)) (H : m.Holds (plug k s))
    (hcur : s.addr? = some cur) (hraw : m.root.raw = raw)
    (hgood : Good (getIndex raw) b [] (plug k s)) (hfit : AllFit (getIndex raw) b (plug k s))
    {a : α} {y : Entry w} (hmem : (a, y) ∈ s.items) (hbw : b ≤ w)
    (hmask : MaskOk b k.length mask flag) : After s.addrs.length
      (insertLoop · m cur x res (getIndex raw y) mask flag) (some (m, a)) := by
  induction s using join_induction generalizing k cur mask flag with
  | nil => simp at hmem
  | node l a' v r ih =>
    obtain rfl : a' = cur := by simpa using hcur
    refine after_iff.mpr fun turns hturns => ?_
    have hindex : m.index a' = some (getIndex raw v) := hraw ▸ Mem.Holds.index (d := .left) H
    simp only [items_node, mem_append, mem_cons] at hmem
    by_cases hroot : (a, y) = (a', v)
    · obtain ⟨rfl, rfl⟩ := Prod.mk.inj hroot
      simpa [insertLoop, hindex] using hmask.ne_zero
    · -- the interval lies below, on the side it takes here
      obtain ⟨d, A, B, hjoin, hA⟩ :
          ∃ d A B, node l a' v r = .join d A a' v B ∧ (a, y) ∈ A.items := by
        rcases hmem with hl | hv | hr
        · exact ⟨.left, l, r, rfl, hl⟩
        · exact absurd hv hroot
        · exact ⟨.right, r, l, rfl, hr⟩
      have hrec := @ih d A B hjoin
      rw [hjoin] at H hgood hfit hturns
      obtain ⟨hv, hvA, -, hgoodA, -⟩ := good_join.mp hgood.sub
      have habove := hvA _ hA
      have hy := hgoodA.follows _ hA
      have hdepth := depth_lt hv hy.2 (hfit.sub (a', v) (by simp))
        (hfit.sub _ (by simp [hA])) habove.ne.symm
      obtain ⟨e, he⟩ : ∃ e, A.addr? = some e := by
        cases A with
        | nil => simp at hA
        | node _ e _ _ => exact ⟨e, rfl⟩
      obtain ⟨mask', flag', hmask', hturn⟩ :=
        insertLoop_descend H hraw habove hy.1 he hdepth hbw hmask
      have hlen : A.addrs.length < turns := by
        cases d <;> simp [LinkedTree.join] at hturns <;> omega
      rw [hturn]
      exact hrec (k := ⟨d, a', v, B⟩ :: k) H he hgood hfit hA hmask' turns hlen

/-- What the walk leaves behind at a position when it stores a new node there. -/
def Stored (m : Mem α w) (b : ℕ) (raw : Bool) (k : List (Frame α (Entry w))) (x : α)
    (y : Entry w) (s : LinkedTree α (Entry w)) (m' : Mem α w) : Prop :=
  ∃ s', m'.Holds (plug k s') ∧ s'.items.Perm ((x, y) :: s.items) ∧
    Good (getIndex raw) b [] (plug k s') ∧ m'.root.indexBits = m.root.indexBits ∧
    m'.root.raw = raw

/-- The walk is at the subtree `s` below `k` and carries the node `x`, which is not in the tree. -/
structure Carries (m : Mem α w) (raw : Bool) (b : ℕ) (k : List (Frame α (Entry w)))
    (s : LinkedTree α (Entry w)) (x : α) (c : Cell α (Entry w)) : Prop where
  holds : m.Holds (plug k s)
  raw_eq : m.root.raw = raw
  good : Good (getIndex raw) b [] (plug k s)
  fits : AllFit (getIndex raw) b (plug k s)
  cell : m.heap x = some c
  fresh : x ∉ (plug k s).addrs
  follows : Follows b (sides k) (getIndex raw c.data)
  fit : (getIndex raw c.data).Fits b
  above : ∀ f ∈ k, (getIndex raw f.data).Above (getIndex raw c.data)

omit [DecidableEq α] in
/-- The walk goes on in the child that the path of the carried node leads to. -/
theorem Carries.child (C : Carries m raw b k (.join d A cur v B) x c)
    (hbelow : (getIndex raw v).Above (getIndex raw c.data))
    (hside : pathSide b (getIndex raw c.data) (sides k).length = d) :
    Carries m raw b (⟨d, cur, v, B⟩ :: k) A x c := by
  refine { C with follows := ⟨hside, C.follows⟩, above := fun f hf => ?_ }
  rcases mem_cons.mp hf with rfl | hf
  · exact hbelow
  · exact C.above f hf

/-- One turn in which the carried node goes below the current one, given what the walk does
in the child. -/
theorem insertLoop_below {n : ℕ} (C : Carries m raw b k (.join d A cur v B) x c)
    (hbelow : (getIndex raw v).Above (getIndex raw c.data))
    (hpath : pathSide b (getIndex raw c.data) (sides k).length = d) (hbw : b ≤ w)
    (hmask : MaskOk b k.length mask flag)
    (hrec : ∀ e mask' flag', A.addr? = some e → MaskOk b (k.length + 1) mask' flag' →
      ∃ m', After n (insertLoop · m e x res (getIndex raw c.data) mask' flag') (some (m', res)) ∧
        Stored m b raw (⟨d, cur, v, B⟩ :: k) x c.data A m') :
    ∃ m', After (n + 1) (insertLoop · m cur x res (getIndex raw c.data) mask flag)
        (some (m', res)) ∧ Stored m b raw k x c.data (.join d A cur v B) m' := by
  have H := C.holds
  obtain ⟨hv, hvA, hvB, hgoodA, hgoodB⟩ := good_join.mp C.good.sub
  have hdepth := depth_lt hv C.follows (C.fits.sub (cur, v) (by simp)) C.fit hbelow.ne.symm
  cases hA : A.addr? with
  | none =>
    -- an empty position: the node is hung here
    have hindex : m.index cur = some (getIndex raw v) := C.raw_eq ▸ H.index
    have hside := hmask.side_eq (length_sides k ▸ hdepth) (getIndex raw c.data)
    rw [← length_sides k, hpath] at hside
    have hup : ¬ (getIndex raw c.data).Above (getIndex raw v) := fun h => (h.trans hbelow).ne rfl
    obtain rfl := addr?_eq_none hA
    obtain ⟨m1, run1, root1, -, off1, hleaf⟩ := init_spec C.cell
    have H1 : Represents id m1.heap m1.root.prioTreeNode (plug (⟨d, cur, v, B⟩ :: k) .nil) := by
      rw [root1]
      exact H.congr fun e he => off1 e (ne_of_mem_of_not_mem he C.fresh)
    obtain ⟨m2, m3, run2, run3, root3, -, H3⟩ := attach_spec H1 hleaf (by
      intro e he
      obtain rfl : e = x := by simpa using he
      exact C.fresh)
    refine ⟨m3, after_iff.mpr fun turns _ => insertLoop_link turns H.cell hindex hbelow.ne.symm
      hup hmask.ne_zero hside (by simp) run1 run2 run3,
      .join d (.node .nil x c.data .nil) cur v B, ?_, ?_, ?_, ?_, ?_⟩
    · rw [Mem.Holds, root3]
      exact H3
    · refine (items_join_perm ..).trans ((List.Perm.swap ..).trans (.cons _ ?_))
      exact (items_join_perm ..).symm
    · refine good_plug_replace C.good ?_ ?_
      · refine good_join.mpr ⟨hv, ?_, hvB,
          ⟨⟨hpath, C.follows⟩, by simp, by simp, trivial, trivial⟩, hgoodB⟩
        simpa using hbelow
      · intro p hp f hf
        rcases (mem_items_join ..).mp hp with rfl | hp | hp
        · exact C.good.above _ (by simp) f hf
        · obtain rfl : p = (x, c.data) := by simpa using hp
          exact C.above f hf
        · exact C.good.above p (by simp [hp]) f hf
    · rw [root3, root1]
    · rw [root3, root1, C.raw_eq]
  | some e =>
    -- the walk goes on in the child
    obtain ⟨mask', flag', hmask', hturn⟩ :=
      insertLoop_descend H C.raw_eq hbelow hpath hA hdepth hbw hmask
    obtain ⟨m', hrun, A', H', hperm, hgood', hbits, hraw'⟩ := hrec e mask' flag' hA hmask'
    refine ⟨m', after_iff.mpr fun turns hturns => ?_, .join d A' cur v B, H', ?_, hgood', hbits,
      hraw'⟩
    · rw [hturn]
      exact hrun turns hturns
    refine (items_join_perm ..).trans ?_
    refine ((hperm.append_right _).cons _).trans ((List.Perm.swap ..).trans (.cons _ ?_))
    exact (items_join_perm ..).symm

/-- The carried node takes the place of the current one, which is carried on. -/
theorem Carries.swap {l r : LinkedTree α (Entry w)} (C : Carries m raw b k (.node l cur v r) x c)
    (hup : (getIndex raw c.data).Above (getIndex raw v)) :
    ∃ m1 c1, prioTreeReplace m cur x = some (m1, cur) ∧ c1.data = v ∧
      Carries m1 raw b k (.node l x c.data r) cur c1 ∧ m1.root.indexBits = m.root.indexBits := by
  have H := C.holds
  obtain ⟨m1, run1, H1, hbits1, hraw1, hold1, -⟩ := prioTreeReplace_spec H C.cell C.fresh
  obtain ⟨hv, hvl, hvr, hgl, hgr⟩ := C.good.sub
  have hva : (cur, v) ∈ (node l cur v r).items := by simp
  -- what is below stays where it is
  have hitems : ∀ p ∈ (node l x c.data r).items, p = (x, c.data) ∨ p ∈ (node l cur v r).items := by
    intro p hp
    simp only [items_node, mem_append, mem_cons] at hp ⊢
    tauto
  refine ⟨m1, _, run1, rfl, ⟨H1, hraw1.trans C.raw_eq, ?_, ?_,
    hold1.trans (Mem.Holds.cell (d := .left) H), ?_, hv, C.fits.sub _ hva,
    fun f hf => C.good.above _ hva f hf⟩, hbits1⟩
  · refine good_plug_replace C.good ?_ fun p hp f hf => ?_
    · exact ⟨C.follows, fun p hp => hup.trans (hvl p hp), fun p hp => hup.trans (hvr p hp),
        hgl, hgr⟩
    · rcases hitems p hp with rfl | hp
      · exact C.above f hf
      · exact C.good.above p hp f hf
  · intro p hp
    rcases mem_append.mp ((items_plug_perm _ _).mem_iff.mp hp) with hp | hp
    · rcases hitems p hp with rfl | hp
      · exact C.fit
      · exact C.fits.sub p hp
    · exact C.fits p ((items_plug_perm _ _).mem_iff.mpr (mem_append_right _ hp))
  · obtain ⟨hnd, -, hout⟩ := (nodup_plug _ _).mp H.nodup
    have hnd' := (nodup_join .left l r cur v).mp hnd
    have hfresh := C.fresh
    rw [mem_addrs_plug] at hfresh ⊢
    rintro (hmem | hmem)
    · simp only [addrs_node, mem_append, mem_cons] at hmem
      rcases hmem with hmem | rfl | hmem
      · exact hnd'.1 hmem
      · exact hfresh (.inl (by simp))
      · exact hnd'.2.1 hmem
    · exact hout cur (by simp) hmem

/-- **The walk stores a new interval.** -/
theorem insertLoop_new (res : α) (s : LinkedTree α (Entry w))
    (C : Carries m raw b k s x c) (hcur : s.addr? = some cur)
    (hnew : ∀ p ∈ s.items, getIndex raw p.2 ≠ getIndex raw c.data) (hbw : b ≤ w)
    (hmask : MaskOk b k.length mask flag) :
    ∃ m', After s.addrs.length (insertLoop · m cur x res (getIndex raw c.data) mask flag)
        (some (m', res)) ∧ Stored m b raw k x c.data s m' := by
  induction s generalizing m k cur x c mask flag with
  | nil => simp at hcur
  | node l a v r ihl ihr =>
    obtain rfl : a = cur := by simpa using hcur
    have hlen : (node l a v r).addrs.length = l.addrs.length + r.addrs.length + 1 := by
      simp [Nat.add_assoc]
    rw [hlen]
    -- the turn for a carried node `y` that goes below the node `e` at this position
    have hturn : ∀ {m1 : Mem α w} {e y : α} {u : Entry w} {c' : Cell α (Entry w)},
        Carries m1 raw b k (.node l e u r) y c' → (getIndex raw u).Above (getIndex raw c'.data) →
        (∀ p ∈ l.items ++ r.items, getIndex raw p.2 ≠ getIndex raw c'.data) →
        ∃ m', After (l.addrs.length + r.addrs.length + 1)
            (insertLoop · m1 e y res (getIndex raw c'.data) mask flag) (some (m', res)) ∧
          Stored m1 b raw k y c'.data (.node l e u r) m' := by
      intro m1 e y u c' C1 hbelow hnew1
      cases hd : pathSide b (getIndex raw c'.data) (sides k).length with
      | left =>
        have C2 : Carries m1 raw b k (.join .left l e u r) y c' := C1
        refine insertLoop_below C2 hbelow hd hbw hmask fun e' mask' flag' he' hmask' => ?_
        obtain ⟨m', hrun, hstored⟩ := ihl (C2.child hbelow hd) he'
          (fun p hp => hnew1 p (mem_append_left _ hp)) hmask'
        exact ⟨m', hrun.mono (by omega), hstored⟩
      | right =>
        have C2 : Carries m1 raw b k (.join .right r e u l) y c' := C1
        refine insertLoop_below C2 hbelow hd hbw hmask fun e' mask' flag' he' hmask' => ?_
        obtain ⟨m', hrun, hstored⟩ := ihr (C2.child hbelow hd) he'
          (fun p hp => hnew1 p (mem_append_right _ hp)) hmask'
        exact ⟨m', hrun.mono (by omega), hstored⟩
    by_cases hup : (getIndex raw c.data).Above (getIndex raw v)
    · -- the new node takes the place of the current one, which is carried on
      obtain ⟨m1, c1, run1, rfl, C1, hbits1⟩ := C.swap hup
      have hindex : m.index a = some (getIndex raw c1.data) :=
        C.raw_eq ▸ Mem.Holds.index (d := .left) C.holds
      have hindex1 : m1.index x = some (getIndex raw c.data) :=
        C1.raw_eq ▸ Mem.Holds.index (d := .left) C1.holds
      obtain ⟨-, hvl, hvr, -, -⟩ := C.good.sub
      obtain ⟨m', hrun, s', H', hperm, hgood', hbits', hraw'⟩ := hturn C1 hup fun p hp => by
        rcases mem_append.mp hp with hp | hp
        · exact (hvl p hp).ne
        · exact (hvr p hp).ne
      refine ⟨m', after_iff.mpr fun turns hturns => ?_, s', H', hperm.trans ?_, hgood',
        hbits'.trans hbits1, hraw'⟩
      · rw [insertLoop_swap turns hindex hup hmask.ne_zero run1 hindex1]
        exact after_iff.mp hrun turns hturns
      · refine (List.Perm.cons _ (items_join_perm .left l r x c.data)).trans
          ((List.Perm.swap ..).trans (.cons _ ?_))
        exact (items_join_perm .left l r a c1.data).symm
    · refine hturn C (Index.above_or_above (hnew (a, v) (by simp)).symm hup) fun p hp => hnew p ?_
      rcases mem_append.mp hp with hp | hp <;> simp [hp]

end Gp2xKernel.PrioTree
