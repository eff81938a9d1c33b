import Gp2xKernel.InetPeer.Balance

/-!
# What the pointer operations do to the tree

The pointers that are recorded on the stack are the links of a position, and rebalancing along the
stack is `rise` at that position.

## Main results

* `rotate_spec`, `rebalanceAt_spec`: one turn of `peer_avl_rebalance` is `balance`
* `peerAvlRebalance_spec`: the loop is `rise`
-/

namespace Gp2xKernel.InetPeer

open Library LinkedTree DownCell

/-- The memory holds the tree, and `peer_fake_node` is in place. -/
structure Keeps (m : Peers) (t : Tree) : Prop where
  stores : Stores peerAvlEmpty m t
  fake : nodeHeight m peerAvlEmpty = 0

variable {m : Peers} {k : List (Frame ℕ PeerData)}

/-! ## Rebalancing -/

theorem u16_eq {n : ℕ} (h : n < 2 ^ 16) : u16 n = n := Nat.mod_eq_of_lt h

variable {t s outer low : Tree} {a b : ℕ} {v w : PeerData} (d : Side)

theorem nodeHeight_ptr (ht : Below peerAvlEmpty m.heap t) (hfake : nodeHeight m peerAvlEmpty = 0) :
    nodeHeight m (ptr peerAvlEmpty t) = storedHeight t := by
  cases t with
  | nil => exact hfake
  | node l a v r =>
    rw [ptr, addr?_node, Option.getD_some, nodeHeight, ht.1.2, storedHeight]

/-- The memory after an assignment to one node. -/
structure Assigned (m m' : Peers) (a : ℕ) (c : DownCell ℕ PeerData) : Prop where
  cell : m'.heap a = c
  other : ∀ x, x ≠ a → m'.heap x = m.heap x
  root : m'.root = m.root

theorem setNode_assigned {d : Side} {x y : ℕ} (ha : m.heap a = .join d x y v) (near far : ℕ)
    {height : ℕ} (hh : height < 2 ^ 16) :
    Assigned m (setNode m d a near far height) a (.join d near far (v.withHeight height)) := by
  refine ⟨?_, fun b hb => m.set_heap_of_ne hb _, rfl⟩
  rw [setNode, DownMem.set_heap_self, ha, data_join, u16_eq hh]
  rfl

theorem Assigned.below {m' : Peers} {c : DownCell ℕ PeerData} (h : Assigned m m' a c)
    (ht : Below peerAvlEmpty m.heap t) (hat : a ∉ t.addrs) : Below peerAvlEmpty m'.heap t :=
  ht.congr fun x hx => h.other x (ne_of_mem_of_not_mem hx hat)

/-- An assignment makes a node the top of two subtrees. -/
theorem Assigned.below_top {m' : Peers} {x y : Tree} {p q : ℕ} {d : Side}
    (h : Assigned m m' a (.join d p q v)) (ha : a ≠ peerAvlEmpty) (hp : ptr peerAvlEmpty x = p)
    (hq : ptr peerAvlEmpty y = q) (hx : Below peerAvlEmpty m.heap x)
    (hy : Below peerAvlEmpty m.heap y) (hax : a ∉ x.addrs) (hay : a ∉ y.addrs) :
    Below peerAvlEmpty m'.heap (.join d x a v y) := by
  subst hp hq
  exact (below_join d).mpr ⟨⟨ha, h.cell⟩, h.below hx hax, h.below hy hay⟩

theorem Keeps.empty_not_mem (H : Keeps m t) : peerAvlEmpty ∉ t.addrs :=
  fun h => H.stores.below.ne_null h rfl

/-- A new subtree is built in the memory `m'`, apart from the nodes around a position, and then
linked. -/
theorem Keeps.replace {m' : Peers} {s' : Tree} (H : Keeps m (plug k s)) (hroot : m'.root = m.root)
    (hheap : ∀ b ∉ s.addrs, m'.heap b = m.heap b) (hs : Below peerAvlEmpty m'.heap s')
    (hentries : entries s' = entries s) :
    Keeps (m'.write (link k) (ptr peerAvlEmpty s')) (plug k s') := by
  have hnd := H.stores.nodup
  have haround : ∀ b ∈ around k, b ∉ s.addrs :=
    fun b hb hbs => ((nodup_plug _ _).mp hnd).2.2 b hbs hb
  have hempty := H.empty_not_mem
  rw [mem_addrs_plug, not_or] at hempty
  constructor
  · refine H.stores.replace_write hroot (fun b hb => hheap b (haround b hb)) hs ?_
    rwa [addrs_eq_entries, entries_plug_congr hentries, ← addrs_eq_entries]
  · rw [nodeHeight, write_heap_of_not_mem hempty.2, hheap _ hempty.1]
    exact H.fake

theorem rotate_single_spec {inner : Tree}
    (H : Keeps m (plug k (.join d (.join d outer b w inner) a v low))) (houter : Avl outer)
    (hinner : Avl inner) (hle : depth inner ≤ depth outer) (hbound : depth inner + 2 < 2 ^ 16)
    (rh : ℕ) :
    Keeps (rotate m d (link k) a b (ptr peerAvlEmpty low) rh)
      (plug k (rotated d (.join d outer b w inner) a v low)) := by
  obtain ⟨-, hbelow, hnd⟩ := (stores_plug _ _).mp H.stores
  obtain ⟨⟨ha0, ha⟩, hbhigh, hblow⟩ := (below_join d).mp hbelow
  obtain ⟨⟨hb0, hb⟩, hbouter, hbinner⟩ := (below_join d).mp hbhigh
  have hentries := entries_rotated d (.join d outer b w inner) a v low
  have hdist := ((nodup_plug _ _).mp hnd).1
  simp only [nodup_join, mem_addrs_join, not_or] at hdist
  obtain ⟨⟨hab, hao, hai⟩, hal, ⟨hbo, hbi, -⟩, -, hdisj⟩ := hdist
  have hbl : b ∉ low.addrs := hdisj b (Or.inl rfl)
  rw [rotated_single d (by rwa [houter.storedHeight_eq, hinner.storedHeight_eq]),
    hinner.storedHeight_eq] at hentries ⊢
  rw [rotate, hb]
  simp only [child_join, child_flip_join]
  rw [nodeHeight_ptr hbinner H.fake, nodeHeight_ptr hbouter H.fake, hinner.storedHeight_eq,
    houter.storedHeight_eq, if_pos hle]
  -- `node` is assigned to first, and then `l`
  have h1 := setNode_assigned ha (ptr peerAvlEmpty inner) (ptr peerAvlEmpty low)
    (by omega : depth inner + 1 < 2 ^ 16)
  rw [nodeHeight, h1.cell, data_join]
  have h2 := setNode_assigned ((h1.other b (Ne.symm hab)).trans hb) (ptr peerAvlEmpty outer) a
    (by omega : depth inner + 1 + 1 < 2 ^ 16)
  have hnode := h1.below_top ha0 rfl rfl hbinner hblow hai hal
  have htree := h2.below_top hb0 rfl (ptr_join ..) (h1.below hbouter hao) hnode hbo
    (by simp [Ne.symm hab, hbi, hbl])
  have hresult := H.replace (h2.root.trans h1.root) (fun x hx => ?_) htree hentries
  · rw [ptr_join] at hresult
    exact hresult
  · simp only [mem_addrs_join, not_or] at hx
    exact (h2.other x hx.2.1.1).trans (h1.other x hx.1)

theorem rotate_double_spec {p q : Tree} {e : ℕ} {u : PeerData}
    (H : Keeps m (plug k (.join d (.join d outer b w (.join d p e u q)) a v low)))
    (houter : Avl outer) (hlow : Avl low) (hgt : ¬u.avlHeight ≤ depth outer)
    (hbound : depth low + 2 < 2 ^ 16) :
    Keeps (rotate m d (link k) a b (ptr peerAvlEmpty low) (depth low))
      (plug k (rotated d (.join d outer b w (.join d p e u q)) a v low)) := by
  obtain ⟨-, hbelow, hnd⟩ := (stores_plug _ _).mp H.stores
  obtain ⟨⟨ha0, ha⟩, hbhigh, hblow⟩ := (below_join d).mp hbelow
  obtain ⟨⟨hb0, hb⟩, hbouter, hbinner⟩ := (below_join d).mp hbhigh
  obtain ⟨⟨he0, he⟩, hbp, hbq⟩ := (below_join d).mp hbinner
  have hentries := entries_rotated d (.join d outer b w (.join d p e u q)) a v low
  have hdist := ((nodup_plug _ _).mp hnd).1
  simp only [nodup_join, mem_addrs_join, not_or] at hdist
  obtain ⟨⟨hab, hao, hae, hap, haq⟩, hal, ⟨hbo, ⟨hbe, hbp', hbq'⟩, -, ⟨hep, heq, -⟩, hdisj'⟩, -,
    hdisj⟩ := hdist
  have hbl : b ∉ low.addrs := hdisj b (Or.inl rfl)
  have hel : e ∉ low.addrs := hdisj e (Or.inr (Or.inr (Or.inl rfl)))
  have heo : e ∉ outer.addrs := fun h => (hdisj' e h).1 rfl
  rw [rotated_double d (by rwa [houter.storedHeight_eq]), hlow.storedHeight_eq] at hentries ⊢
  have hinner := nodeHeight_ptr hbinner H.fake
  rw [ptr_join, storedHeight_join] at hinner
  rw [rotate, hb]
  simp only [child_join, child_flip_join, ptr_join]
  rw [hinner, nodeHeight_ptr hbouter H.fake, houter.storedHeight_eq, if_neg hgt, he]
  simp only [child_join, child_flip_join]
  -- `node`, `l` and `lr` are assigned to in turn
  have h1 := setNode_assigned ha (ptr peerAvlEmpty q) (ptr peerAvlEmpty low)
    (by omega : depth low + 1 < 2 ^ 16)
  have h2 := setNode_assigned ((h1.other b (Ne.symm hab)).trans hb) (ptr peerAvlEmpty outer)
    (ptr peerAvlEmpty p) (by omega : depth low + 1 < 2 ^ 16)
  have h3 := setNode_assigned
    (((h2.other e (Ne.symm hbe)).trans (h1.other e (Ne.symm hae))).trans he) b a hbound
  have hnode := h1.below_top ha0 rfl rfl hbq hblow haq hal
  have hl := h2.below_top hb0 rfl rfl (h1.below hbouter hao) (h1.below hbp hap) hbo hbp'
  have htree := h3.below_top he0 (ptr_join ..) (ptr_join ..) hl
    (h2.below hnode (by simp [Ne.symm hab, hbq', hbl])) (by simp [Ne.symm hbe, heo, hep])
    (by simp [Ne.symm hae, heq, hel])
  have hresult := H.replace ((h3.root.trans h2.root).trans h1.root) (fun x hx => ?_) htree hentries
  · rwa [ptr_join] at hresult
  · simp only [mem_addrs_join, not_or] at hx
    exact ((h3.other x hx.2.1.2.2.1).trans (h2.other x hx.2.1.1)).trans (h1.other x hx.1)

/-- **The rotations.** -/
theorem rotate_spec {high : Tree} (H : Keeps m (plug k (.join d high a v low))) (hhigh : Avl high)
    (hlow : Avl low) (hpos : 0 < depth high) (hbound : depth high + 2 < 2 ^ 16)
    (hbound' : depth low + 2 < 2 ^ 16) :
    Keeps (rotate m d (link k) a (ptr peerAvlEmpty high) (ptr peerAvlEmpty low) (depth low))
      (plug k (rotated d high a v low)) := by
  rcases rotated_cases d hhigh hpos with
    ⟨outer, b, w, inner, rfl, hle⟩ | ⟨outer, b, w, p, e, u, q, rfl, hgt⟩
  · obtain ⟨-, houter, hinner⟩ := (avl_join d).mp hhigh
    rw [depth_join] at hbound
    rw [ptr_join]
    exact rotate_single_spec d H houter hinner hle (by omega) _
  · obtain ⟨-, houter, -⟩ := (avl_join d).mp hhigh
    rw [ptr_join]
    exact rotate_double_spec d H houter hlow hgt hbound'

/-- **One turn of the loop** balances the node at the position. -/
theorem rebalanceAt_spec {l r : Tree} (H : Keeps m (plug k (.node l a v r))) (hl : Avl l)
    (hr : Avl r) (hbl : depth l + 2 < 2 ^ 16) (hbr : depth r + 2 < 2 ^ 16) :
    Keeps (rebalanceAt m (link k)) (plug k (balance (.node l a v r))) := by
  obtain ⟨hctx, ⟨⟨ha0, ha⟩, hbelowl, hbelowr⟩, -⟩ := (stores_plug _ _).mp H.stores
  have hread : m.read (link k) = a := hctx.read_link
  rw [rebalanceAt, balance]
  simp only [hread, ha]
  rw [nodeHeight_ptr hbelowl H.fake, nodeHeight_ptr hbelowr H.fake, hl.storedHeight_eq,
    hr.storedHeight_eq]
  have hmax : (if depth l > depth r then depth l else depth r) = max (depth l) (depth r) := by
    split_ifs <;> omega
  rw [hmax, u16_eq (by omega)]
  split_ifs with hleft hright
  · exact rotate_spec .left H hl hr (by omega) hbl hbr
  · exact rotate_spec .right H hr hl (by omega) hbr hbl
  · refine ⟨H.stores.setData _, ?_⟩
    rw [nodeHeight, DownMem.set_heap_of_ne _ (Ne.symm ha0)]
    exact H.fake

theorem rebalanceAt_join_spec {x y : Tree} (H : Keeps m (plug k (.join d x a v y))) (hx : Avl x)
    (hy : Avl y) (hbx : depth x + 2 < 2 ^ 16) (hby : depth y + 2 < 2 ^ 16) :
    Keeps (rebalanceAt m (link k)) (plug k (balance (.join d x a v y))) := by
  cases d with
  | left => exact rebalanceAt_spec H hx hy hbx hby
  | right => exact rebalanceAt_spec H hy hx hby hbx

/-- **The loop** rebalances all nodes above a position, after a change of one level. -/
theorem peerAvlRebalance_spec {s0 : Tree} (H : Keeps m (plug k s)) (h : Avl (plug k s0))
    (hs : Avl s) (hup : depth s ≤ depth s0 + 1) (hdown : depth s0 ≤ depth s + 1)
    (hsize : (plug k s).addrs.length ≤ 2 ^ 32) :
    Keeps (peerAvlRebalance m (links k).tail) (rise k s) := by
  induction k generalizing m s0 s with
  | nil => exact H
  | cons f k ih =>
    obtain ⟨havl, hup', hdown'⟩ := balance_frame_avl (Avl.of_plug h) hs hup hdown
    obtain ⟨-, -, hsib⟩ := (avl_join f.side).mp (Avl.of_plug h)
    -- heights are far from the limit of `__u16`
    have hlen := hsize
    rw [length_addrs_plug, length_around_cons] at hlen
    have hbs := depth_le_of_size_le hs (by omega)
    have hbsib := depth_le_of_size_le hsib (by omega)
    have hstep := rebalanceAt_join_spec f.side H hs hsib (by omega) (by omega)
    rw [tail_links_cons, links_eq_cons]
    refine ih hstep h havl hup' hdown' ?_
    rw [addrs_eq_entries, entries_plug_congr (entries_balance _), ← addrs_eq_entries]
    exact hsize

end Gp2xKernel.InetPeer
