import Gp2xKernel.PrioTree.Insert

/-!
# `prio_tree_expand` and `prio_tree_insert`

An interval that does not fit the width of the tree becomes the new root.  The tree below
it has to sink by as many levels as the width grows, so former roots are taken out one by
one and threaded into a chain of left children between the new root and what is left of the
tree.  When this drains the tree, `prio_tree_remove` resets the width, and the loop widens
the empty tree from 1 on.

## Main definitions

* `WellFormed`: the memory holds a given tree, ordered and of a width that fits.
* `Chain`: what the loop of `prio_tree_expand` keeps.

## Main results

* `prioTreeExpand_spec`: the new root, over the chain, over the rest of the tree.
* `prioTreeInsert_found`, `prioTreeInsert_new`: the two outcomes of an insertion.
* `prioTreeRemove_wellFormed`: removal of a stored node.
-/

namespace Gp2xKernel.PrioTree

open Library Option LinkedTree Nat List

variable {α : Type} {w : ℕ}

/-! ## The width of a tree -/

variable {b β n e : ℕ} {i : Index w} {ds : List Side} {l r t : LinkedTree α (Entry w)} {a : α}
  {v u : Entry w} {M : BitVec w} {chain : Option (α × α)} {c : Cell α (Entry w)}

theorem lt_width (h : 2 ^ b ≤ M.toNat) : b < w :=
  (Nat.pow_lt_pow_iff_right (by omega)).mp (h.trans_lt M.isLt)

/-- `prio_tree_maxindex` tells which heap indices need more bits. -/
theorem prioTreeMaxindex_spec (hb : 1 ≤ b) (hbw : b ≤ w) :
    ∃ v : BitVec w, prioTreeMaxindex b = some v ∧ ∀ y, y > v ↔ 2 ^ b ≤ y.toNat := by
  have h0 : ¬ (b = 0 ∨ w < b) := by omega
  rcases eq_or_lt_of_le hbw with rfl | hlt
  · refine ⟨BitVec.allOnes b, by rw [prioTreeMaxindex, if_neg h0, if_pos rfl], fun y => ?_⟩
    rw [gt_iff_lt, BitVec.lt_def, BitVec.toNat_allOnes]
    omega
  · refine ⟨1#w <<< b - 1, by
      rw [prioTreeMaxindex, if_neg h0, if_neg hlt.ne], fun y => ?_⟩
    have hpow : 2 ^ b < 2 ^ w := Nat.pow_lt_pow_right (by omega) hlt
    have hpos : 1 ≤ 2 ^ b := Nat.one_le_two_pow
    have hone : 1 % 2 ^ w = 1 := mod_eq_of_lt (by omega)
    have hval : (1#w <<< b - 1).toNat = 2 ^ b - 1 := by
      have hle : 1#w ≤ 1#w <<< b := by
        rw [BitVec.le_def]
        simp [hone, shiftLeft_eq, mod_eq_of_lt hpow, hpos]
      rw [show (1 : BitVec w) = 1#w from rfl, BitVec.toNat_sub_of_le hle]
      simp [hone, shiftLeft_eq, mod_eq_of_lt hpow]
    rw [gt_iff_lt, BitVec.lt_def]
    omega

/-- In a wider tree the path of an interval starts with left turns. -/
theorem pathSide_widen_left (hfit : i.Fits b) (hn : b + n < β) : pathSide β i n = .left := by
  have hbit : i.radix.getLsbD (β - 1 - n) = false := hfit.testBit_radix (by omega)
  simp [pathSide, show n < β by omega, hbit]

/-- After the additional left turns the path is the one in the narrow tree. -/
theorem pathSide_widen : pathSide (b + e) i (n + e) = pathSide b i n := by
  simp only [pathSide, Nat.add_lt_add_iff_right, show b + e - 1 - (n + e) = b - 1 - n by omega,
    show n + e - (b + e) = n - b by omega]

theorem follows_left (hfit : i.Fits b) (hn : b + n ≤ β) : Follows β (replicate n .left) i := by
  induction n with
  | zero => trivial
  | succ n ih =>
    refine ⟨?_, ih (by omega)⟩
    rw [length_replicate]
    exact pathSide_widen_left hfit (by omega)

theorem Follows.widen (hfit : i.Fits b)
    (h : Follows b ds i) : Follows (b + e) (ds ++ replicate e .left) i := by
  induction ds with
  | nil => exact follows_left hfit le_rfl
  | cons d ds ih =>
    refine ⟨?_, ih h.2⟩
    show pathSide (b + e) i (ds ++ replicate e Side.left).length = d
    rw [length_append, length_replicate, pathSide_widen]
    exact h.1

variable {δ : Type*} {ix : δ → Index w} {b β : ℕ}

/-- A tree is in order below as many left turns as the width has grown. -/
theorem Good.widen {t : LinkedTree α δ} (h : Good ix b ds t)
    (hfit : AllFit ix b t) : Good ix (b + e) (ds ++ replicate e .left) t := by
  induction t generalizing ds with
  | nil => trivial
  | node l a v r ihl ihr =>
    obtain ⟨hv, hvl, hvr, hl, hr⟩ := h
    refine ⟨hv.widen (hfit (a, v) (by simp)), hvl, hvr, ihl hl ?_, ihr hr ?_⟩
    · exact fun p hp => hfit p (by simp [hp])
    · exact fun p hp => hfit p (by simp [hp])

/-- A chain of left children, each above everything below it, may stand on top of a tree
that has sunk by its length. -/
theorem good_chain {K : List (Frame α δ)} {t : LinkedTree α δ}
    (hspine : ∀ f ∈ K, f.side = .left ∧ f.sibling = .nil)
    (hsorted : K.Pairwise fun f g => (ix g.data).Above (ix f.data))
    (habove : ∀ p ∈ t.items, ∀ f ∈ K, (ix f.data).Above (ix p.2))
    (hfollow : ∀ f k1 k2, K = k1 ++ f :: k2 →
      Follows β (replicate k2.length .left) (ix f.data))
    (ht : Good ix β (replicate K.length .left) t) : Good ix β [] (plug K t) := by
  induction K generalizing t with
  | nil => exact ht
  | cons f K ih =>
    obtain ⟨hside, hsib⟩ := hspine f (by simp)
    obtain ⟨hfK, hsorted⟩ := pairwise_cons.mp hsorted
    refine ih (fun g hg => hspine g (by simp [hg])) hsorted ?_ ?_ ?_
    · intro p hp g hg
      rw [hsib] at hp
      rcases (mem_items_join ..).mp hp with rfl | hp | hp
      · exact hfK g hg
      · exact habove p hp g (by simp [hg])
      · simp at hp
    · intro g k1 k2 hK
      exact hfollow g (f :: k1) k2 (by rw [hK]; rfl)
    · rw [hside, hsib]
      exact good_join.mpr ⟨hfollow f [] K rfl, fun p hp => habove p hp f (by simp), by simp, ht,
        trivial⟩

/-! ## The loop -/

/-- What the loop of `prio_tree_expand` keeps, for a tree of width `b` at the start: `K` is
the chain with the node added last in front, `t` the rest of the tree. -/
structure Chain (m : Mem α w) (raw : Bool) (b : ℕ) (K : List (Frame α (Entry w)))
    (t : LinkedTree α (Entry w)) : Prop where
  holds : m.Holds t
  raw_eq : m.root.raw = raw
  spine : ∀ f ∈ K, f.side = .left ∧ f.sibling = .nil
  disjoint : ∀ a ∈ around K, a ∉ t.addrs
  fits : AllFit (getIndex raw) b (plug K t)
  sorted : K.Pairwise fun f g => (getIndex raw g.data).Above (getIndex raw f.data)
  above : ∀ p ∈ t.items, ∀ f ∈ K, (getIndex raw f.data).Above (getIndex raw p.2)
  good : Good (getIndex raw) b [] t
  bits_pos : 1 ≤ m.root.indexBits
  bits_le : m.root.indexBits ≤ w
  bits_eq : t ≠ .nil → m.root.indexBits = b + 1 + K.length

/-- `first` and `last` are the two ends of the chain. -/
def ChainEnds (m : Mem α w) (K : List (Frame α (Entry w))) : Option (α × α) → Prop
  | none => K = []
  | some (first, last) =>
    (K.head?.map Frame.addr) = some last ∧ Represents id m.heap (some first) (plug K .nil)

variable {m : Mem α w} {x : α} {raw : Bool} {K : List (Frame α (Entry w))}

theorem ChainEnds.exists_cons {first last : α} (h : ChainEnds m K (some (first, last))) :
    ∃ f K', K = f :: K' ∧ f.addr = last ∧ Represents id m.heap (some first) (plug K .nil) := by
  cases K with
  | nil => exact absurd h.1 (by simp)
  | cons f K' => exact ⟨f, K', rfl, by simpa using h.1, h.2⟩

/-- The order part of a turn that moves the root to the end of the chain. -/
theorem pop_order {raw : Bool} (ht : t = .node l a v r) (hgood : Good (getIndex raw) b [] t)
    (habove : ∀ p ∈ t.items, ∀ f ∈ K, (getIndex raw f.data).Above (getIndex raw p.2)) :
    ∀ p ∈ (pop (getIndex raw) t).items,
      ∀ f ∈ (⟨.left, a, v, .nil⟩ : Frame α (Entry w)) :: K,
        (getIndex raw f.data).Above (getIndex raw p.2) := by
  intro p hp f hf
  have hperm := pop_items (getIndex raw) ht
  have hmem : p ∈ t.items := pop_subset _ hp
  rcases mem_cons.mp hf with rfl | hf
  · -- `p` is not the root itself, so it lies below it
    have hne := (nodup_cons.mp ((hperm.map fun q => getIndex raw q.2).nodup_iff.mp
      hgood.nodup)).1
    subst ht
    obtain ⟨-, hl, hr, -, -⟩ := hgood
    simp only [items_node, mem_append, mem_cons] at hmem
    rcases hmem with hmem | rfl | hmem
    · exact hl p hmem
    · exact absurd (mem_map_of_mem hp) hne
    · exact hr p hmem
  · exact habove p hmem f hf

variable [DecidableEq α]

/-- Taking the root out of the tree and making it a tree of its own. -/
theorem removeRoot_spec (ht : t = .node l a v r) (H : m.Holds t) :
    ∃ m1 m', After t.addrs.length (prioTreeRemove · m a) (some m1) ∧
      m1.initPrioTreeNode a = some m' ∧ m'.Holds (pop m.ix t) ∧ m'.root.raw = m.root.raw ∧
      m'.root.indexBits = (if pop m.ix t = .nil then 1 else m.root.indexBits) ∧
      Represents id m'.heap (some a) (.node .nil a v .nil) ∧ a ∉ (pop m.ix t).addrs ∧
      ∀ e, e ∉ t.addrs → m'.heap e = m.heap e := by
  have hperm := addrs_perm_cons (pop_items m.ix ht)
  have ha := (nodup_cons.mp (hperm.nodup_iff.mp H.nodup)).1
  subst ht
  obtain ⟨m1, run1, (H1 : m1.Holds (pop _ _)), hraw1, hbits1, ⟨c, hc, rfl⟩, hoff1⟩ :=
    prioTreeRemove_spec (k := []) H
  obtain ⟨m2, run2, root2, -, off2, hleaf⟩ := init_spec hc
  refine ⟨m1, m2, run1, run2, ?_, by rw [root2, hraw1], by rw [root2]; exact hbits1, hleaf, ha,
    fun e he => ?_⟩
  · rw [Mem.Holds, root2]
    exact H1.congr fun e he => off2 e (ne_of_mem_of_not_mem he ha)
  · have hea : e ≠ a := by
      rintro rfl
      exact he (by simp)
    rw [off2 e hea]
    exact hoff1 e he

/-- A turn that moves the root of the tree to the end of the chain. -/
theorem expandLoop_pop (H : Chain m raw b K t) (ht : t = .node l a v r)
    (hends : ChainEnds m K chain) (hbig : 2 ^ m.root.indexBits ≤ M.toNat) :
    ∃ m' chain', (∀ turns, t.addrs.length < turns →
        expandLoop (turns + 1) m M chain = expandLoop turns m' M chain') ∧
      Chain m' raw b (⟨.left, a, v, .nil⟩ :: K) (pop (getIndex raw) t) ∧
      ChainEnds m' (⟨.left, a, v, .nil⟩ :: K) chain' ∧
      (plug (⟨.left, a, v, .nil⟩ :: K) (pop (getIndex raw) t)).items.Perm (plug K t).items ∧
      ∀ e, e ∉ t.addrs → e ∉ around K → m'.heap e = m.heap e := by
  obtain ⟨vmax, hvmax, hgt⟩ := prioTreeMaxindex_spec H.bits_pos H.bits_le
  have hM : M > vmax := (hgt M).mpr hbig
  have hlt := lt_width hbig
  have htop : m.root.prioTreeNode = some a := H.holds.root_eq.trans (by rw [ht]; rfl)
  have hraw := H.raw_eq
  subst hraw
  -- the width is raised before the root is taken out
  have H0 : Mem.Holds ⟨m.heap, ⟨some a, m.root.indexBits + 1, m.root.raw⟩⟩ t := by
    have := H.holds
    rwa [Mem.Holds, htop] at this
  obtain ⟨m1, m2, run1, run2, H2, hraw2, hbits2, hleaf, ha, hoff⟩ := removeRoot_spec ht H0
  have hpop := pop_items m.ix ht
  have hmem : (a, v) ∈ t.items := hpop.mem_iff.mpr (by simp)
  have hat : a ∈ t.addrs := mem_addrs_of_mem_items hmem
  have hitems : (plug (⟨.left, a, v, .nil⟩ :: K) (pop m.ix t)).items.Perm (plug K t).items := by
    refine (items_plug_perm K _).trans (List.Perm.trans ?_ (items_plug_perm K _).symm)
    refine List.Perm.append_right _ ((items_join_perm .left _ .nil a v).trans ?_)
    simpa using hpop.symm
  have hpopsub : ∀ e ∈ (pop m.ix t).addrs, e ∈ t.addrs := fun e he =>
    (addrs_perm_cons hpop).mem_iff.mpr (mem_cons_of_mem _ he)
  have haK : a ∉ around K := fun h => H.disjoint a h hat
  have hchain : ∀ m' : Mem α w, m'.Holds (pop m.ix t) → m'.root = m2.root →
      Chain m' m.root.raw b (⟨.left, a, v, .nil⟩ :: K) (pop m.ix t) := by
    intro m' H' hroot'
    have hbits' : m'.root.indexBits = if pop m.ix t = .nil then 1 else m.root.indexBits + 1 := by
      rw [hroot', hbits2]
    refine ⟨H', by rw [hroot', hraw2], ?_, ?_, ?_, ?_, pop_order ht H.good H.above,
      H.good.pop H.fits.sub, ?_, ?_, ?_⟩
    · exact forall_mem_cons.mpr ⟨⟨rfl, rfl⟩, H.spine⟩
    · intro e he
      rw [mem_around_cons] at he
      rcases he with rfl | he | he
      · exact ha
      · simp at he
      · exact fun h => H.disjoint e he (hpopsub e h)
    · exact fun p hp => H.fits p (hitems.mem_iff.mp hp)
    · exact pairwise_cons.mpr ⟨H.above (a, v) hmem, H.sorted⟩
    · rw [hbits']
      split <;> omega
    · rw [hbits']
      split <;> omega
    · intro hne
      rw [hbits', if_neg hne, H.bits_eq (by simp [ht]), length_cons]
      omega
  rcases chain with _ | ⟨first, last⟩
  · -- the first node of the chain
    obtain rfl : K = [] := hends
    refine ⟨m2, some (a, a), fun turns hturns => ?_, hchain m2 H2 rfl, ⟨rfl, hleaf⟩, hitems,
      fun e he _ => hoff e he⟩
    simp only [expandLoop, hvmax, hM, if_true, htop, bind_eq_bind, bind_some]
    simp [run1 turns hturns, run2]
  · obtain ⟨f, K, rfl, rfl, hrep⟩ := hends.exists_cons
    have hrep2 : Represents id m2.heap (some first) (plug (f :: K) .nil) := by
      refine hrep.congr fun e he => hoff e (H.disjoint e ?_)
      rw [mem_addrs_plug] at he
      simpa using he
    obtain ⟨m3, m4, run3, run4, hroot4, hoff4, H4⟩ := attach_spec hrep2 hleaf (by
      intro e he
      obtain rfl : e = a := by simpa using he
      rw [mem_addrs_plug]
      simpa using haK)
    have hfK : f.addr ∈ around (f :: K) := by simp
    rw [(H.spine f (by simp)).1] at run3
    refine ⟨m4, some (first, a), fun turns hturns => ?_, hchain m4 ?_ hroot4, ⟨rfl, H4⟩, hitems,
      fun e he heK => ?_⟩
    · simp only [expandLoop, hvmax, hM, if_true, htop, bind_eq_bind, bind_some]
      simp [run1 turns hturns, run2, run3, run4]
    · rw [Mem.Holds, hroot4]
      refine H2.congr fun e he => hoff4 e (ne_of_mem_of_not_mem he ha) ?_
      rintro rfl
      exact H.disjoint _ hfK (hpopsub _ he)
    · rw [hoff4 e (ne_of_mem_of_not_mem hat he).symm (ne_of_mem_of_not_mem hfK heK).symm]
      exact hoff e he

/-- **The loop of `prio_tree_expand`**: it ends with a width that fits, and has sunk what is
left of the tree by as many levels as it added. -/
theorem expandLoop_spec (H : Chain m raw b K t) (hends : ChainEnds m K chain)
    (hbig : K ≠ [] → 2 ^ (b + K.length) ≤ M.toNat) (hx : x ∉ t.addrs) (hxK : x ∉ around K)
    {n : ℕ} (hn : (if t = .nil then w - m.root.indexBits else t.addrs.length + w) < n) :
    ∃ m' chain' K' t', After n (expandLoop · m M chain) (some (m', chain')) ∧
      Chain m' raw b K' t' ∧ ChainEnds m' K' chain' ∧ (K' ≠ [] → 2 ^ (b + K'.length) ≤ M.toNat) ∧
      M.toNat < 2 ^ m'.root.indexBits ∧ m'.heap x = m.heap x ∧
      (plug K' t').items.Perm (plug K t).items := by
  induction n generalizing m K t chain with
  | zero => omega
  | succ n ih =>
    obtain ⟨vmax, hvmax, hgt⟩ := prioTreeMaxindex_spec H.bits_pos H.bits_le
    by_cases hM : 2 ^ m.root.indexBits ≤ M.toNat
    · have hlt := lt_width hM
      cases t with
      | nil =>
        -- an empty tree is only widened
        have hroot : m.root.prioTreeNode = none := H.holds.root_eq
        rw [if_pos rfl] at hn
        obtain ⟨m', chain', K', t', hrun, H', hends', hbig', hM', hx', hperm⟩ :=
          ih (m := ⟨m.heap, ⟨none, m.root.indexBits + 1, m.root.raw⟩⟩) { H with
              holds := by
                have := H.holds
                rwa [Mem.Holds, hroot] at this
              bits_pos := by simp
              bits_le := hlt
              bits_eq := fun h => absurd rfl h }
            hends hbig hx hxK (by
              show w - (m.root.indexBits + 1) < n
              omega)
        refine ⟨m', chain', K', t', after_iff.mpr fun turns hturns => ?_, H', hends', hbig', hM',
          hx', hperm⟩
        simp only [expandLoop, hvmax, (hgt M).mpr hM, if_true, hroot, bind_eq_bind, bind_some]
        exact hrun turns hturns
      | node l a v r =>
        rw [if_neg (by simp)] at hn
        obtain ⟨m1, chain1, hrun1, H1, hends1, hperm1, hoff1⟩ := expandLoop_pop H rfl hends hM
        have hperm := addrs_perm_cons (pop_items (getIndex raw) (rfl : LinkedTree.node l a v r = _))
        have hlen := hperm.length_eq
        rw [length_cons] at hlen
        have hxa : x ≠ a := by
          rintro rfl
          exact hx (by simp)
        obtain ⟨m', chain', K', t', hrun, H', hends', hbig', hM', hx', hperm'⟩ :=
          ih H1 hends1 (by
              intro _
              have hbits := H.bits_eq (by simp)
              rw [length_cons, show b + (K.length + 1) = m.root.indexBits by omega]
              exact hM)
            (fun h => hx (hperm.mem_iff.mpr (mem_cons_of_mem _ h)))
            (by simpa [mem_around_cons] using ⟨hxa, hxK⟩)
            (by
              split <;> omega)
        exact ⟨m', chain', K', t', after_iff.mpr fun turns hturns =>
            (hrun1 turns (by omega)).trans (hrun turns hturns), H', hends', hbig', hM',
          hx'.trans (hoff1 x hx hxK), hperm'.trans hperm1⟩
    · refine ⟨m, chain, K, t, after_iff.mpr fun turns _ => ?_, H, hends, hbig, not_le.mp hM, rfl,
        .rfl⟩
      simp [expandLoop, hvmax, mt (hgt M).mp hM]

/-! ## The new root -/

/-- The memory holds the tree `t`, in order, and its width fits all intervals. -/
structure WellFormed (m : Mem α w) (t : LinkedTree α (Entry w)) : Prop where
  holds : m.Holds t
  good : Good (getIndex m.root.raw) m.root.indexBits [] t
  fits : AllFit (getIndex m.root.raw) m.root.indexBits t
  bits_pos : 1 ≤ m.root.indexBits
  bits_le : m.root.indexBits ≤ w

omit [DecidableEq α] in
theorem WellFormed.of_root (H : m.Holds t) (hraw : m.root.raw = raw) (hbits : m.root.indexBits = b)
    (hgood : Good (getIndex raw) b [] t) (hfits : AllFit (getIndex raw) b t) (hpos : 1 ≤ b)
    (hle : b ≤ w) : WellFormed m t := by
  subst hraw hbits
  exact ⟨H, hgood, hfits, hpos, hle⟩

omit [DecidableEq α] in
/-- The loop starts with an empty chain, and the width raised by one if there is a tree. -/
theorem WellFormed.emptyChain {bits : ℕ} (H : WellFormed m t) (hpos : 1 ≤ bits) (hle : bits ≤ w)
    (heq : t ≠ .nil → bits = m.root.indexBits + 1) :
    Chain ⟨m.heap, ⟨m.root.prioTreeNode, bits, m.root.raw⟩⟩ m.root.raw m.root.indexBits [] t where
  holds := H.holds
  raw_eq := rfl
  spine := by simp
  disjoint := by simp
  fits := H.fits
  sorted := List.Pairwise.nil
  above := by simp
  good := H.good
  bits_pos := hpos
  bits_le := hle
  bits_eq := heq

/-- Hanging the chain below the new root: the chain with the new root at its far end. -/
theorem linkChain_spec (hends : ChainEnds m K chain)
    (hx : Represents id m.heap (some x) (.node .nil x u .nil)) (hxK : x ∉ around K) :
    ∃ m' f k, K ++ [⟨.left, x, u, .nil⟩] = f :: k ∧
      linkChain m x chain = some (m', f.addr) ∧
      m'.root = m.root ∧ (∀ e, e ≠ x → e ∉ around K → m'.heap e = m.heap e) ∧
      Represents id m'.heap (some x) (plug (f :: k) .nil) := by
  rcases chain with _ | ⟨first, last⟩
  · obtain rfl : K = [] := hends
    exact ⟨m, _, _, rfl, rfl, rfl, fun _ _ _ => rfl, hx⟩
  · obtain ⟨f, K, rfl, rfl, hrep⟩ := hends.exists_cons
    have hdisj : ∀ e ∈ (plug (f :: K) .nil).addrs,
        e ∉ (plug [(⟨.left, x, u, .nil⟩ : Frame α (Entry w))] .nil).addrs := by
      intro e he hex
      rw [mem_addrs_plug] at he
      obtain rfl : e = x := by simpa [plug] using hex
      exact hxK (by simpa using he)
    obtain ⟨m1, m2, run1, run2, hroot, hoff, H2⟩ :=
      attach_spec hx hrep hdisj
    have hfirst : first ∈ around (f :: K) := by
      have := LinkedTree.addr?_mem hrep.root_eq.symm
      rw [mem_addrs_plug] at this
      simpa using this
    refine ⟨m2, f, K ++ [⟨.left, x, u, .nil⟩], rfl, ?_, hroot, fun e hex heK => ?_, ?_⟩
    · simp only [linkChain, bind_eq_bind, Option.pure_def]
      rw [run1, bind_some, run2, bind_some]
    · exact hoff e (ne_of_mem_of_not_mem hfirst heK).symm hex
    · rw [← cons_append, plug_append]
      exact H2

/-- Hanging what is left of the tree below the chain. -/
theorem linkRest_spec {f : Frame α (Entry w)} {k : List (Frame α (Entry w))} (H : m.Holds t)
    (hrep : Represents id m.heap (some x) (plug (f :: k) .nil)) (hside : f.side = .left)
    (hdisj : ∀ e ∈ around (f :: k), e ∉ t.addrs) :
    ∃ m', linkRest m f.addr = some m' ∧
      m'.root = m.root ∧ Represents id m'.heap (some x) (plug (f :: k) t) := by
  have hroot : m.root.prioTreeNode = t.addr? := H.root_eq
  cases t with
  | nil => exact ⟨m, by rw [linkRest, hroot]; rfl, rfl, hrep⟩
  | node l a v r =>
    have hroot : m.root.prioTreeNode = some a := hroot
    rw [Mem.Holds, hroot] at H
    obtain ⟨m1, m2, run1, run2, hroot2, -, H2⟩ := attach_spec hrep H (by
      intro e he hek
      rw [mem_addrs_plug] at hek
      exact hdisj e (by simpa using hek) he)
    rw [hside] at run1
    refine ⟨m2, ?_, hroot2, H2⟩
    rw [linkRest, hroot]
    simp only [bind_eq_bind]
    rw [run1, bind_some, run2]

omit [DecidableEq α] in
/-- The order of the tree with the new root, the chain and the rest. -/
theorem Chain.good_root (H : Chain m raw b K t) (hwide : K ≠ [] → b + K.length < m.root.indexBits)
    (habove : ∀ p ∈ (plug K t).items, (getIndex raw u).Above (getIndex raw p.2)) :
    Good (getIndex raw) m.root.indexBits [] (plug (K ++ [⟨.left, x, u, .nil⟩]) t) := by
  have hmem : ∀ f ∈ K, (f.addr, f.data) ∈ (plug K t).items := by
    intro f hf
    obtain ⟨k1, k2, rfl⟩ := append_of_mem hf
    rw [plug_append]
    refine (items_plug_perm k2 _).mem_iff.mpr (mem_append_left _ ?_)
    exact (mem_items_join ..).mpr (.inl rfl)
  refine good_chain ?_ ?_ ?_ ?_ ?_
  · intro f hf
    rcases mem_append.mp hf with hf | hf
    · exact H.spine f hf
    · obtain rfl := mem_singleton.mp hf
      exact ⟨rfl, rfl⟩
  · refine pairwise_append.mpr ⟨H.sorted, pairwise_singleton _ _, ?_⟩
    intro f hf g hg
    obtain rfl := mem_singleton.mp hg
    exact habove _ (hmem f hf)
  · intro p hp f hf
    rcases mem_append.mp hf with hf | hf
    · exact H.above p hp f hf
    · obtain rfl := mem_singleton.mp hf
      exact habove p ((items_plug_perm _ _).mem_iff.mpr (mem_append_left _ hp))
  · intro f k1 k2 hK
    -- only the far end, where no path has to be followed, can be the new root
    rcases eq_nil_or_concat k2 with rfl | ⟨k3, g, rfl⟩
    · trivial
    · have hK' : K = k1 ++ f :: k3 := by
        have hK : K ++ [⟨.left, x, u, .nil⟩] = (k1 ++ f :: k3) ++ [g] := by simpa using hK
        exact (append_inj' hK rfl).1
      have hlen := congrArg length hK'
      have hf : f ∈ K := by simp [hK']
      have := hwide (ne_nil_of_mem hf)
      simp only [length_append, length_cons, length_concat] at hlen ⊢
      exact follows_left (H.fits _ (hmem f hf)) (by omega)
  · cases t with
    | nil => trivial
    | node l a v r =>
      have hbits := H.bits_eq (by simp)
      rw [length_append, show m.root.indexBits = b + (K.length + 1) by omega]
      exact H.good.widen H.fits.sub

/-- **The former roots are threaded again**: the new root becomes a leaf, the chain is hung
below it and the rest of the tree below the chain. -/
theorem Chain.link_spec (H : Chain m raw b K t) (hends : ChainEnds m K chain)
    (hx : m.heap x = some c) (hfresh : x ∉ (plug K t).addrs) :
    ∃ m1 m2 m3 last, m.initPrioTreeNode x = some m1 ∧ linkChain m1 x chain = some (m2, last) ∧
      linkRest m2 last = some m3 ∧ m3.root = m.root ∧
      Represents id m3.heap (some x) (plug (K ++ [⟨.left, x, c.data, .nil⟩]) t) := by
  rw [mem_addrs_plug, not_or] at hfresh
  obtain ⟨m1, run1, hroot1, -, hoff1, hleaf⟩ := init_spec hx
  -- the new root is no node of the chain, which is as it was
  have hends1 : ChainEnds m1 K chain := by
    rcases chain with _ | ⟨first, last⟩
    · exact hends
    · refine ⟨hends.1, hends.2.congr fun e he => hoff1 e ?_⟩
      rintro rfl
      rw [mem_addrs_plug] at he
      exact hfresh.2 (by simpa using he)
  obtain ⟨m2, f, k, hfk, run2, hroot2, hoff2, hrep2⟩ := linkChain_spec hends1 hleaf hfresh.2
  -- nor is one of them a node of the rest, which has been left alone so far
  have H2 : m2.Holds t := by
    rw [Mem.Holds, hroot2, hroot1]
    refine H.holds.congr fun e he => ?_
    have hex : e ≠ x := ne_of_mem_of_not_mem he hfresh.1
    rw [hoff2 e hex fun h => H.disjoint e h he, hoff1 e hex]
  have hside : f.side = .left := by
    have hf : f ∈ K ++ [⟨.left, x, c.data, .nil⟩] := by simp [hfk]
    rcases mem_append.mp hf with hf | hf
    · exact (H.spine f hf).1
    · rw [mem_singleton.mp hf]
  have hdisj : ∀ e ∈ around (f :: k), e ∉ t.addrs := by
    intro e he
    rw [← hfk, mem_around_append] at he
    rcases he with he | he
    · exact H.disjoint e he
    · obtain rfl : e = x := by simpa [mem_around_cons] using he
      exact hfresh.1
  obtain ⟨m3, run3, hroot3, hrep3⟩ := linkRest_spec H2 hrep2 hside hdisj
  rw [← hfk] at hrep3
  exact ⟨m1, m2, m3, f.addr, run1, run2, run3, by rw [hroot3, hroot2, hroot1], hrep3⟩

/-- **`prio_tree_expand`** puts an interval that is too wide for the tree at its root. -/
theorem prioTreeExpand_spec (H : WellFormed m t) (hx : m.heap x = some c) (hfresh : x ∉ t.addrs)
    (hle : (m.ix c.data).radix ≤ (m.ix c.data).heap)
    (hbig : t ≠ .nil → 2 ^ m.root.indexBits ≤ (m.ix c.data).heap.toNat) :
    ∃ m' t', After (t.addrs.length + w + 1)
        (prioTreeExpand · m x (m.ix c.data).heap) (some (m', x)) ∧
      WellFormed m' t' ∧ m'.root.raw = m.root.raw ∧ t'.items.Perm ((x, c.data) :: t.items) := by
  obtain ⟨vmax, hvmax, hgt⟩ := prioTreeMaxindex_spec H.bits_pos H.bits_le
  have hpos := H.bits_pos
  have hbw := H.bits_le
  -- the width is raised once before the loop
  obtain ⟨bits0, hbits0, hpos₀, hle₀, heq0⟩ : ∃ bits0, (if (m.ix c.data).heap > vmax then
        { m with root := { m.root with indexBits := m.root.indexBits + 1 } } else m) =
        ⟨m.heap, ⟨m.root.prioTreeNode, bits0, m.root.raw⟩⟩ ∧ 1 ≤ bits0 ∧ bits0 ≤ w ∧
      (t ≠ .nil → bits0 = m.root.indexBits + 1) := by
    split
    · rename_i hM
      exact ⟨m.root.indexBits + 1, rfl, by omega, lt_width ((hgt _).mp hM), fun _ => rfl⟩
    · rename_i hM
      exact ⟨m.root.indexBits, rfl, hpos, hbw, fun h => absurd ((hgt _).mpr (hbig h)) hM⟩
  obtain ⟨m1, chain, K, t1, run1, H1, hends, hbig1, hM1, hx1, hperm⟩ :=
    expandLoop_spec (M := (m.ix c.data).heap) (H.emptyChain hpos₀ hle₀ heq0)
      (show ChainEnds _ [] none from rfl) (by simp) hfresh (by simp)
      (by
      split
      · show w - bits0 < t.addrs.length + w + 1
        omega
      · exact lt_succ_self _)
  have haddrs := hperm.map Prod.fst
  rw [← addrs_eq_map, ← addrs_eq_map] at haddrs
  have hfresh1 : x ∉ (plug K t1).addrs := fun h => hfresh (haddrs.mem_iff.mp h)
  -- the node, the chain and the rest are put together
  obtain ⟨m2, m3, m4, last, run2, run3, run4, hroot, hrep⟩ := H1.link_spec hends
    (hx1.trans hx) hfresh1
  have habove : ∀ p ∈ (plug K t1).items, (m.ix c.data).Above (m.ix p.2) := by
    intro p hp
    have hp' := hperm.mem_iff.mp hp
    have hne : t ≠ .nil := by
      rintro rfl
      simp at hp'
    exact .inl (BitVec.lt_def.mpr (lt_of_lt_of_le (H.fits p hp').2 (hbig hne)))
  have hwide : K ≠ [] → m.root.indexBits + K.length < m1.root.indexBits := by
    intro hK
    exact (Nat.pow_lt_pow_iff_right (by omega)).mp (lt_of_le_of_lt (hbig1 hK) hM1)
  have hgrown : t ≠ .nil → m.root.indexBits ≤ m1.root.indexBits := by
    intro hne
    rcases eq_or_ne K [] with rfl | hK
    · have hne1 : t1 ≠ .nil := by
        rintro rfl
        cases t with
        | nil => exact hne rfl
        | node l a v r => simp [plug] at haddrs
      have := H1.bits_eq hne1
      omega
    · have := hwide hK
      omega
  have hitems : (plug (K ++ [⟨.left, x, c.data, .nil⟩]) t1).items.Perm
      ((x, c.data) :: t.items) := by
    rw [plug_append]
    refine (items_join_perm .left _ .nil x c.data).trans ?_
    simpa using hperm
  have hraw : m4.root.raw = m.root.raw := by rw [hroot, H1.raw_eq]
  have hbits : m4.root.indexBits = m1.root.indexBits := by rw [hroot]
  refine ⟨{ m4 with root := { m4.root with prioTreeNode := some x } }, _, fun turns hturns => ?_,
    .of_root hrep hraw hbits (H1.good_root hwide habove)
      (fun p hp => ?_) H1.bits_pos H1.bits_le, hraw, hitems⟩
  · simp only [prioTreeExpand, hvmax, bind_eq_bind, bind_some, Option.pure_def]
    simp [hbits0, run1 turns hturns, run2, run3, run4]
  · rcases mem_cons.mp (hitems.mem_iff.mp hp) with rfl | hp
    · exact ⟨hle, hM1⟩
    · refine (H.fits p hp).mono (hgrown ?_)
      rintro rfl
      simp at hp

/-! ## Insertion and removal -/

/-- **Insertion of an interval that is stored** returns the node that holds it. -/
theorem prioTreeInsert_found {y : Entry w} (H : WellFormed m t) (hx : m.heap x = some c)
    (hmem : (a, y) ∈ t.items) (heq : m.ix y = m.ix c.data) :
    After t.addrs.length (prioTreeInsert · m x) (some (m, a)) := by
  have hindex : m.index x = some (m.ix y) := by rw [Mem.index, hx, heq]; rfl
  cases t with
  | nil => simp at hmem
  | node l top v r =>
    have hroot : m.root.prioTreeNode = some top := H.holds.root_eq
    obtain ⟨vmax, hvmax, hgt⟩ := prioTreeMaxindex_spec H.bits_pos H.bits_le
    have hfit : ¬ (m.ix y).heap > vmax := by
      rw [hgt, not_le]
      exact (H.fits (a, y) hmem).2
    simp only [prioTreeInsert, hindex, hroot, hvmax, hfit, bind_eq_bind, bind_some]
    exact insertLoop_found (k := []) _ H.holds rfl rfl H.good H.fits hmem
      H.bits_le (MaskOk.init H.bits_pos H.bits_le)

/-- **Insertion of a new interval** adds the node. -/
theorem prioTreeInsert_new (H : WellFormed m t) (hx : m.heap x = some c) (hfresh : x ∉ t.addrs)
    (hle : (m.ix c.data).radix ≤ (m.ix c.data).heap)
    (hnew : ∀ p ∈ t.items, m.ix p.2 ≠ m.ix c.data) :
    ∃ m' t', After (t.addrs.length + w + 1) (prioTreeInsert · m x) (some (m', x)) ∧
      WellFormed m' t' ∧ m'.root.raw = m.root.raw ∧ t'.items.Perm ((x, c.data) :: t.items) := by
  have hindex : m.index x = some (m.ix c.data) := by rw [Mem.index, hx]; rfl
  cases t with
  | nil =>
    have hroot : m.root.prioTreeNode = none := H.holds.root_eq
    simp only [prioTreeInsert, hindex, hroot, bind_eq_bind, bind_some]
    exact prioTreeExpand_spec H hx hfresh hle fun h => absurd rfl h
  | node l top v r =>
    have hroot : m.root.prioTreeNode = some top := H.holds.root_eq
    obtain ⟨vmax, hvmax, hgt⟩ := prioTreeMaxindex_spec H.bits_pos H.bits_le
    simp only [prioTreeInsert, hindex, hroot, hvmax, bind_eq_bind, bind_some]
    by_cases hM : (m.ix c.data).heap > vmax
    · simp only [if_pos hM]
      exact prioTreeExpand_spec H hx hfresh hle fun _ => (hgt _).mp hM
    · simp only [if_neg hM]
      have hfit : (m.ix c.data).Fits m.root.indexBits :=
        ⟨hle, not_le.mp (mt (hgt _).mpr hM)⟩
      obtain ⟨m', hrun, s, H', hperm, hgood, hbits, hraw⟩ :=
        insertLoop_new (k := []) x _
          ⟨H.holds, rfl, H.good, H.fits, hx, hfresh, trivial, hfit, by simp⟩ rfl hnew H.bits_le
          (MaskOk.init H.bits_pos H.bits_le)
      refine ⟨m', s, hrun.mono (by omega), .of_root H' hraw hbits hgood (fun p hp => ?_)
        H.bits_pos H.bits_le, hraw, hperm⟩
      rcases mem_cons.mp (hperm.mem_iff.mp hp) with rfl | hp
      · exact hfit
      · exact H.fits p hp

/-- **Removal of a stored node** takes out this node. -/
theorem prioTreeRemove_wellFormed (H : WellFormed m t) (ha : a ∈ t.addrs) :
    ∃ m' t' v, After t.addrs.length (prioTreeRemove · m a) (some m') ∧ WellFormed m' t' ∧
      m'.root.raw = m.root.raw ∧ t.items.Perm ((a, v) :: t'.items) := by
  obtain ⟨k, l, v, r, rfl⟩ := exists_plug_of_mem ha
  obtain ⟨m', hrun, H', hraw, hbits, -, -⟩ := prioTreeRemove_spec H.holds
  have hperm := items_plug_cons (k := k) (pop_items m.ix (rfl : LinkedTree.node l a v r = _))
  have hgood : Good m.ix m.root.indexBits [] (plug k (pop m.ix (.node l a v r))) :=
    good_plug_replace H.good (H.good.sub.pop H.fits.sub) fun p hp f hf =>
      H.good.above p (pop_subset _ hp) f hf
  have hfits : AllFit m.ix m.root.indexBits (plug k (pop m.ix (.node l a v r))) := fun p hp =>
    H.fits p (hperm.mem_iff.mpr (mem_cons_of_mem _ hp))
  refine ⟨m', _, v, hrun, ?_, hraw, hperm⟩
  by_cases hnil : plug k (pop m.ix (.node l a v r)) = .nil
  · rw [if_pos hnil] at hbits
    rw [hnil] at H' ⊢
    exact .of_root H' rfl hbits trivial (by simp [AllFit]) le_rfl (H.bits_pos.trans H.bits_le)
  · rw [if_neg hnil] at hbits
    exact .of_root H' hraw hbits hgood hfits H.bits_pos H.bits_le

end Gp2xKernel.PrioTree
