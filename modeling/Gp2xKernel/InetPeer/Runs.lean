import Gp2xKernel.Library.Run
import Gp2xKernel.Library.Turns
import Gp2xKernel.InetPeer.Search

/-!
# The pool is a balanced search tree

In every run of lookups, insertions and removals, the pool is a search tree with exact heights, in
which the heights of siblings differ by at most one.

## Main definitions

* `IsPool`: the pool holds a balanced search tree
* `Event`, `system`: the runs

## Main results

* `getpeerFind_spec`, `getpeerLink_spec`, `unlinkFromPool_spec`: what the operations do
* `peer_pool_avl`: the invariant of all runs
-/

namespace Gp2xKernel.InetPeer

open Library List LinkedTree Nat
open List.Sublist (refl)

variable {m : Peers} {k : List (Frame ℕ PeerData)} {t : Tree} {pool : Pool}

/-- The pool holds the tree, which is a search tree, and balanced; and `peer_total` is the number of
its nodes. -/
structure IsPool (pool : Pool) (t : Tree) : Prop where
  keeps : Keeps pool.mem t
  search : Search t
  avl : Avl t
  total : pool.peerTotal = t.addrs.length

/-! ## Keys -/

theorem keys_plug (k : List (Frame ℕ PeerData)) (s : Tree) :
    keys (plug k s) = (sideEntries k).1.map (fun e => e.2.1) ++ keys s ++
      (sideEntries k).2.map (fun e => e.2.1) := by
  rw [keys, entries_plug, map_append, map_append, keys]

theorem keys_rise (k : List (Frame ℕ PeerData)) (s : Tree) : keys (rise k s) = keys (plug k s) := by
  rw [keys, entries_rise, keys]

theorem length_keys (t : Tree) : (keys t).length = t.addrs.length := by
  rw [keys, addrs_eq_entries, length_map, length_map]

variable {s l r : Tree} {p n q turns a : ℕ} {v w : PeerData} {daddr : BitVec 32}
  {k' : List (Frame ℕ PeerData)} {stack : List (Link ℕ)}

/-- Only heights matter for the balance of a tree. -/
theorem avl_plug_congr {s' : Tree} (h : Avl (plug k s)) (hs : Avl s') (hd : depth s' = depth s) :
    Avl (plug k s') := by
  induction k generalizing s s' with
  | nil => exact hs
  | cons f k ih =>
    obtain ⟨hbal, -, hsib⟩ := (avl_join f.side).mp (Avl.of_plug h)
    refine ih h ((avl_join f.side).mpr ⟨?_, hs, hsib⟩) ?_
    · rwa [hd]
    · rw [depth_join, depth_join, hd]

/-! ## Reference counters -/

/-- Another reference counter makes no difference to the pool. -/
theorem IsPool.addRefcnt (h : IsPool pool (plug k (.node l p v r))) (z : ℤ) :
    ∃ t', IsPool { pool with mem := addRefcnt pool.mem p z } t' ∧
      keys t' = keys (plug k (.node l p v r)) ∧ ∃ z, (p, v.v4daddr, z) ∈ entries t' := by
  obtain ⟨-, ⟨⟨hp0, hp⟩, -⟩, -⟩ := (stores_plug _ _).mp h.keeps.stores
  have hkeys : keys (plug k (.node l p { v with refcnt := v.refcnt + z } r)) =
      keys (plug k (.node l p v r)) := by
    rw [keys_plug, keys_plug, keys_node, keys_node]
  refine ⟨plug k (.node l p { v with refcnt := v.refcnt + z } r), ⟨⟨?_, ?_⟩, ?_, ?_, ?_⟩, hkeys,
    v.refcnt + z, by simp [entries_plug]⟩
  · rw [InetPeer.addRefcnt, hp]
    exact h.keeps.stores.setData _
  · rw [InetPeer.addRefcnt, nodeHeight, DownMem.set_heap_of_ne _ (Ne.symm hp0)]
    exact h.keeps.fake
  · rw [Search, hkeys]
    exact h.search
  · exact avl_plug_congr h.avl (Avl.of_plug (s := .node l p v r) h.avl) rfl
  · rw [h.total, ← length_keys, ← length_keys, hkeys]

/-! ## Finding a peer -/

/-- The result of the first search in a pool. -/
theorem IsPool.descend_cases (h : IsPool pool t) (daddr : BitVec 32) :
    (∃ k, descend daddr [] t = (k, .nil) ∧ t = plug k .nil ∧ daddr ∉ keys t ∧ Between daddr k ∧
        k.length ≤ depth t) ∨
      ∃ k l p v r, descend daddr [] t = (k, .node l p v r) ∧ t = plug k (.node l p v r) ∧
        v.v4daddr = daddr ∧ daddr ∈ keys t ∧ k.length + depth (.node l p v r) ≤ depth t := by
  obtain ⟨hplug, hlen, hend⟩ := descend_spec daddr [] t
  have hbetween := descend_between daddr (k := []) h.search
    ⟨fun e he => absurd he not_mem_nil, fun e he => absurd he not_mem_nil⟩
  generalize hd : descend daddr [] t = result at hplug hlen hend hbetween
  obtain ⟨k, s⟩ := result
  rw [length_nil, zero_add] at hlen
  rw [plug_nil] at hplug
  rcases hend with rfl | ⟨l, p, v, r, rfl, hkey⟩
  · refine Or.inl ⟨k, rfl, hplug.symm, ?_, hbetween, le_trans (le_add_right _ _) hlen⟩
    rw [← hplug, keys_plug, mem_append, mem_append]
    rintro ((hmem | hmem) | hmem)
    · obtain ⟨e, he, rfl⟩ := mem_map.mp hmem
      exact BitVec.lt_irrefl _ (hbetween.1 e he)
    · exact absurd hmem not_mem_nil
    · obtain ⟨e, he, rfl⟩ := mem_map.mp hmem
      exact BitVec.lt_irrefl _ (hbetween.2 e he)
  · refine Or.inr ⟨k, l, p, v, r, rfl, hplug.symm, hkey, ?_, hlen⟩
    rw [← hplug, keys_plug, keys_node, hkey]
    simp

/-- **Finding a peer** returns the one with the address, and changes its reference counter only. -/
theorem getpeerFind_spec (h : IsPool pool t) (daddr : BitVec 32) :
    ∃ out t', Returns (fun turns => getpeerFind turns pool daddr) out ∧ IsPool out.pool t' ∧
      keys t' = keys t ∧ out.path = 0 ∧
      if daddr ∈ keys t then ∃ z, (out.peer, daddr, z) ∈ entries t'
      else out.peer = peerAvlEmpty := by
  have hlookup := fun turns (hturns : depth t ≤ turns) =>
    lookup_spec daddr h.keeps hturns
  rcases h.descend_cases daddr with
    ⟨k, hd, -, hnew, -⟩ | ⟨k, l, p, v, r, hd, rfl, rfl, hold, -⟩
  · simp only [if_neg hnew]
    refine ⟨⟨pool, peerAvlEmpty, 0⟩, t, ⟨depth t, fun turns hturns => ?_⟩, h, rfl, rfl, rfl⟩
    show getpeerFind turns pool daddr = _
    rw [getpeerFind, hlookup turns hturns, hd]
    rfl
  · obtain ⟨-, ⟨⟨hp0, -⟩, -⟩, -⟩ := (stores_plug _ _).mp h.keeps.stores
    obtain ⟨t', ht', hkeys, hentry⟩ := h.addRefcnt 1
    simp only [if_pos hold]
    refine ⟨⟨{ pool with mem := addRefcnt pool.mem p 1 }, p, 0⟩, t',
      ⟨depth (plug k (.node l p v r)), fun turns hturns => ?_⟩, ht', hkeys, rfl, hentry⟩
    show getpeerFind turns pool v.v4daddr = _
    rw [getpeerFind, hlookup turns hturns, hd]
    exact if_neg hp0

/-! ## Linking a peer -/

/-- A node that is not in the tree is initialized. -/
theorem Keeps.setFresh (H : Keeps m t) (hn0 : n ≠ peerAvlEmpty) (hn : n ∉ t.addrs)
    (c : DownCell ℕ PeerData) : Keeps (m.set n c) t := by
  refine ⟨⟨H.stores.root_eq, H.stores.below.set hn c, H.stores.nodup⟩, ?_⟩
  rw [nodeHeight, DownMem.set_heap_of_ne _ (Ne.symm hn0)]
  exact H.fake

/-- The empty node is not one of those with a link. -/
theorem Keeps.fake_write (H : Keeps m (plug k s)) (x : ℕ) :
    nodeHeight (m.write (link k) x) peerAvlEmpty = 0 := by
  have hempty := H.empty_not_mem
  rw [mem_addrs_plug, not_or] at hempty
  rw [nodeHeight, write_heap_of_not_mem hempty.2]
  exact H.fake

theorem Keeps.linkLeaf (H : Keeps m (plug k .nil)) (hn0 : n ≠ peerAvlEmpty)
    (hn : n ∉ (plug k .nil : Tree).addrs) :
    Keeps ((m.set n ⟨peerAvlEmpty, peerAvlEmpty, v⟩).write (link k) n)
      (plug k (.node .nil n v .nil)) := by
  have hn' := hn
  rw [mem_addrs_plug, not_or] at hn'
  have hnd := (nodup_plug _ _).mp H.stores.nodup
  refine ⟨?_, (H.setFresh hn0 hn _).fake_write n⟩
  refine Stores.replace_write (u := .node .nil n v .nil) H.stores rfl (fun b hb => ?_) ?_ ?_
  · exact m.set_heap_of_ne (ne_of_mem_of_not_mem hb hn'.2) _
  · exact ⟨⟨hn0, m.set_heap_self _ _⟩, trivial, trivial⟩
  · refine (nodup_plug _ _).mpr ⟨nodup_singleton n, hnd.2.1, fun b hb => ?_⟩
    obtain rfl := mem_singleton.mp hb
    exact hn'.2

/-- A new address keeps the order. -/
theorem Search.insert (h : Search (plug k .nil))
    (hbetween : Between v.v4daddr k) : Search (plug k (.node .nil n v .nil)) := by
  rw [Search, keys_plug] at h ⊢
  rw [keys_node]
  simp only [keys, entries_nil, map_nil, nil_append, append_nil] at h ⊢
  rw [pairwise_append] at h
  rw [append_assoc, pairwise_append, singleton_append, pairwise_cons]
  refine ⟨h.1, ⟨fun x hx => ?_, h.2.1⟩, fun x hx y hy => ?_⟩
  · obtain ⟨e, he, rfl⟩ := mem_map.mp hx
    exact hbetween.2 e he
  · rcases mem_cons.mp hy with rfl | hy
    · obtain ⟨e, he, rfl⟩ := mem_map.mp hx
      exact hbetween.1 e he
    · exact h.2.2 x hx y hy

theorem keys_insert_perm (k : List (Frame ℕ PeerData)) (n : ℕ) (v : PeerData) :
    (keys (plug k (.node .nil n v .nil))).Perm (v.v4daddr :: keys (plug k .nil)) := by
  rw [keys_plug, keys_plug]
  simp only [append_assoc]
  exact perm_middle

theorem headD_links (k : List (Frame ℕ PeerData)) : (links k).headD .root = link k := by
  cases k <;> rfl

/-- `link_to_pool` at the position where the address belongs. -/
theorem linkToPool_spec (H : Keeps m (plug k .nil)) (hsearch : Search (plug k .nil))
    (havl : Avl (plug k .nil)) (hbetween : Between daddr k) (hn0 : n ≠ peerAvlEmpty)
    (hn : n ∉ (plug k .nil : Tree).addrs)
    (hdata : (m.heap n).data.v4daddr = daddr ∧ (m.heap n).data.refcnt = 1) :
    Keeps (linkToPool m n (links k)) (rise k (.node .nil n ⟨1, daddr, 1⟩ .nil)) ∧
      Search (rise k (.node .nil n ⟨1, daddr, 1⟩ .nil)) ∧
      Avl (rise k (.node .nil n ⟨1, daddr, 1⟩ .nil)) := by
  have hleaf : Avl (.node .nil n ⟨1, daddr, 1⟩ .nil) :=
    ⟨⟨zero_le _, zero_le _, rfl⟩, trivial, trivial⟩
  have hsearch' := hsearch.insert (n := n) (v := ⟨1, daddr, 1⟩) hbetween
  have hcell : setNode m .left n peerAvlEmpty peerAvlEmpty 1 =
      m.set n ⟨peerAvlEmpty, peerAvlEmpty, ⟨1, daddr, 1⟩⟩ := by
    rw [← hdata.1, ← hdata.2]
    rfl
  refine ⟨?_, ?_, rise_avl havl hleaf le_rfl (zero_le _)⟩
  · rw [linkToPool, hcell, headD_links]
    exact peerAvlRebalance_spec (H.linkLeaf hn0 hn) havl hleaf le_rfl (zero_le _) hsearch'.size_le
  · rw [Search, keys_rise]
    exact hsearch'

/-- **Linking a peer** adds its address, if there is no peer with it, and returns the peer. -/
theorem getpeerLink_spec (h : IsPool pool t) (daddr : BitVec 32) (hn0 : n ≠ peerAvlEmpty)
    (hn : n ∉ t.addrs) :
    ∃ out t', Returns (fun turns => getpeerLink turns pool daddr n) out ∧ IsPool out.pool t' ∧
      (∀ x, x ∈ keys t' ↔ x ∈ keys t ∨ x = daddr) ∧ out.path ≤ depth t + 1 ∧
      ∃ z, (out.peer, daddr, z) ∈ entries t' := by
  have hset := h.keeps.setFresh hn0 hn { pool.mem.heap n with
    data.v4daddr := daddr
    data.refcnt := 1 }
  have hlookup := fun turns (hturns : depth t ≤ turns) => lookup_spec daddr hset hturns
  rcases h.descend_cases daddr with
    ⟨k, hd, rfl, -, hbetween, hlen⟩ | ⟨k, l, p, v, r, hd, rfl, rfl, hold, hlen⟩
  · have hdata := pool.mem.set_heap_self n { pool.mem.heap n with
      data.v4daddr := daddr
      data.refcnt := 1 }
    obtain ⟨hkeeps, hsearch, havl⟩ := linkToPool_spec hset h.search h.avl hbetween hn0 hn
      (by rw [hdata]; exact ⟨rfl, rfl⟩)
    have hkeys := keys_insert_perm k n ⟨1, daddr, 1⟩
    refine ⟨⟨⟨_, pool.peerTotal + 1⟩, n, (links k).length⟩, _,
      ⟨depth (plug k .nil), fun turns hturns => ?_⟩, ⟨hkeeps, hsearch, havl, ?_⟩, fun x => ?_, ?_,
      1, by simp [entries_rise, entries_plug]⟩
    · show getpeerLink turns pool daddr n = _
      rw [getpeerLink, hlookup turns hturns, hd]
      rfl
    · rw [h.total, ← length_keys, ← length_keys, keys_rise, hkeys.length_eq]
      rfl
    · rw [keys_rise, hkeys.mem_iff, mem_cons, or_comm]
    · rw [length_links]
      exact succ_le_succ hlen
  · obtain ⟨-, ⟨⟨hp0, -⟩, -⟩, -⟩ := (stores_plug _ _).mp h.keeps.stores
    obtain ⟨t', ht', hkeys, hentry⟩ := h.addRefcnt 1
    refine ⟨⟨{ pool with mem := addRefcnt pool.mem p 1 }, p, (links k).length⟩, t',
      ⟨depth (plug k (.node l p v r)), fun turns hturns => ?_⟩, ht', fun x => ?_, ?_, hentry⟩
    · show getpeerLink turns pool v.v4daddr n = _
      rw [getpeerLink, hlookup turns hturns, hd]
      exact if_pos hp0
    · rw [hkeys, or_iff_left_of_imp]
      rintro rfl
      exact hold
    · rw [length_links]
      exact succ_le_succ (le_trans (le_add_right _ _) hlen)

/-! ## Unlinking a peer -/

/-- The pool after a peer was taken out of the tree, and the nodes above it are rebalanced. -/
theorem IsPool.remove {s0 : Tree} (h : IsPool pool t) (H : Keeps m (plug k s))
    (havl : Avl (plug k s0)) (hs : Avl s) (hup : depth s ≤ depth s0 + 1)
    (hdown : depth s0 ≤ depth s + 1) (hsub : (keys (plug k s)).Sublist (keys t))
    (hperm : (keys t).Perm (daddr :: keys (plug k s))) :
    ∃ t', IsPool ⟨peerAvlRebalance m (links k).tail, pool.peerTotal - 1⟩ t' ∧
      ∀ x, x ∈ keys t' ↔ x ∈ keys t ∧ x ≠ daddr := by
  have hsearch : Search (plug k s) := List.Pairwise.sublist hsub h.search
  refine ⟨rise k s, ⟨?_, ?_, rise_avl havl hs hup hdown, ?_⟩, fun x => ?_⟩
  · exact peerAvlRebalance_spec H havl hs hup hdown hsearch.size_le
  · rw [Search, keys_rise]
    exact hsearch
  · dsimp only
    rw [h.total, ← length_keys, ← length_keys, keys_rise, hperm.length_eq, length_cons]
    omega
  · have hnodup : (daddr :: keys (plug k s)).Nodup :=
      hperm.nodup_iff.mp (List.Pairwise.imp (fun hlt => BitVec.ne_of_lt hlt) h.search)
    rw [keys_rise, hperm.mem_iff, mem_cons]
    constructor
    · exact fun hx => ⟨Or.inr hx, ne_of_mem_of_not_mem hx (nodup_cons.mp hnodup).1⟩
    · exact fun hx => hx.1.resolve_left hx.2

/-- A peer with an empty left subtree is replaced by its right subtree. -/
theorem Keeps.unlinkLeft (H : Keeps m (plug k (.node .nil p v r))) :
    Keeps (m.write (link k) (ptr peerAvlEmpty r)) (plug k r) := by
  obtain ⟨-, ⟨-, -, hr⟩, hnd⟩ := (stores_plug _ _).mp H.stores
  refine ⟨?_, H.fake_write _⟩
  refine H.stores.replace_write rfl (fun b _ => rfl) hr (hnd.sublist ?_)
  rw [addrs_plug, addrs_plug]
  refine ((refl _).append ?_).append (refl _)
  exact sublist_cons_self _ _

/-- The recorded pointer into the removed peer is replaced by one into the other. -/
theorem links_patch (k' k : List (Frame ℕ PeerData)) (p q : ℕ) (v v' : PeerData) (r : Tree) :
    (links (k' ++ ⟨.left, p, v, r⟩ :: k))[k'.length]? = some (.child .left p) ∧
      (links (k' ++ ⟨.left, p, v, r⟩ :: k)).set k'.length (.child .left q) =
        links (k' ++ ⟨.left, q, v', r⟩ :: k) := by
  have hlen : k'.length = (k'.map fun f => Link.child f.side f.addr).length :=
    length_map _ |>.symm
  rw [links_append, links_append]
  constructor
  · rw [List.getElem?_append_right (le_of_eq hlen.symm), ← hlen, Nat.sub_self]
    rfl
  · rw [set_append_right _ _ (le_of_eq hlen.symm), ← hlen, Nat.sub_self]
    rfl

/-- **A peer takes the place of another.** -/
theorem replacePeer_spec (H : Keeps m (plug (k' ++ ⟨.left, p, v, r⟩ :: k) (.node l q w .nil))) :
    ∃ m', replacePeer m p q (links k) (links (k' ++ ⟨.left, p, v, r⟩ :: k)) =
        some (m', links (k' ++ ⟨.left, q, w.withHeight v.avlHeight, r⟩ :: k)) ∧
      Keeps m' (plug (k' ++ ⟨.left, q, w.withHeight v.avlHeight, r⟩ :: k) l) := by
  generalize hK : k' ++ ⟨.left, p, v, r⟩ :: k = K at H ⊢
  obtain ⟨hctx, ⟨⟨hq0, hq⟩, hl, -⟩, hnd⟩ := (stores_plug _ _).mp H.stores
  obtain ⟨hndq, hndk, hout⟩ := (nodup_plug _ _).mp hnd
  have hql : q ∉ l.addrs := ((nodup_join .left l .nil q w).mp hndq).1
  have hqk : q ∉ around K := hout q (by simp)
  have hempty := H.empty_not_mem
  -- `q` is taken out of its place
  have hout1 : Stores peerAvlEmpty (m.write (link K) (ptr peerAvlEmpty l)) (plug K l) := by
    refine H.stores.replace_write rfl (fun b _ => rfl) hl ((nodup_plug _ _).mpr ⟨?_, hndk, ?_⟩)
    · exact ((nodup_join .left l .nil q w).mp hndq).2.2.1
    · exact fun b hb => hout b (by simp [hb])
  have hq1 : (m.write (link K) (ptr peerAvlEmpty l)).heap q =
      ⟨ptr peerAvlEmpty l, peerAvlEmpty, w⟩ := (write_heap_of_not_mem hqk _).trans hq
  have hfake1 := H.fake_write (ptr peerAvlEmpty l)
  have hread : m.read (link K) = q := hctx.read_link
  have hsecond : (links K).length - (links k).length - 1 = k'.length := by
    rw [← hK, length_links, length_links, length_append, length_cons]
    omega
  obtain ⟨hget, hset⟩ := links_patch k' k p q v (w.withHeight v.avlHeight) r
  rw [hK] at hget hset
  rw [replacePeer]
  simp only [headD_links, hread, hsecond, hget, hq]
  rw [if_neg (fun h => h rfl), if_neg (fun h => h rfl), hset]
  generalize m.write (link K) (ptr peerAvlEmpty l) = m1 at hout1 hq1 hfake1 ⊢
  -- and put into the place of `p`
  have hqt : q ∉ (plug K l).addrs := by
    rw [mem_addrs_plug, not_or]
    exact ⟨hql, hqk⟩
  rw [← hK, plug_append, plug_cons] at hout1 hqt
  obtain ⟨-, ⟨⟨-, hp1⟩, -⟩, hnd1⟩ := (stores_plug _ _).mp hout1
  have hpk : p ∉ around k := ((nodup_plug _ _).mp hnd1).2.2 p (by simp)
  have hqk' : q ∉ around k := fun h => hqt ((mem_addrs_plug _ _ _).mpr (Or.inr h))
  have hempty1 : peerAvlEmpty ∉ around k := by
    rw [← hK, mem_addrs_plug, not_or, mem_around_append, not_or, mem_around_cons, not_or,
      not_or] at hempty
    exact hempty.2.2.2.2
  rw [write_heap_of_not_mem hpk, write_heap_of_not_mem hqk', hp1, hq1]
  refine ⟨_, rfl, ?_, ?_⟩
  · rw [plug_append]
    exact hout1.exchange hq0 hqt _
  · rw [nodeHeight, DownMem.set_heap_of_ne _ (Ne.symm hq0), write_heap_of_not_mem hempty1]
    exact hfake1

theorem keys_remove (hs : keys s = keys l ++ keys r) :
    (keys (plug k s)).Sublist (keys (plug k (.node l p v r))) ∧
      (keys (plug k (.node l p v r))).Perm (v.v4daddr :: keys (plug k s)) := by
  rw [keys_plug, keys_plug, keys_node, hs]
  constructor
  · refine ((refl _).append ?_).append (refl _)
    exact (refl _).append (sublist_cons_self _ _)
  · simp only [append_assoc]
    rw [← append_assoc _ (keys l), ← append_assoc _ (keys l)]
    exact perm_middle

theorem unlink_left_spec (h : IsPool pool (plug k (.node .nil p v r))) :
    ∃ t', IsPool ⟨peerAvlRebalance (pool.mem.write (link k) (ptr peerAvlEmpty r)) (links k).tail,
        pool.peerTotal - 1⟩ t' ∧
      ∀ x, x ∈ keys t' ↔ x ∈ keys (plug k (.node .nil p v r)) ∧ x ≠ v.v4daddr := by
  obtain ⟨hsub, hperm⟩ := keys_remove (l := .nil) rfl
  have hdepth : depth (.node .nil p v r) = depth r + 1 := by rw [depth, depth, zero_max]
  exact h.remove h.keeps.unlinkLeft h.avl (Avl.of_plug h.avl).2.2 (by omega) (by omega) hsub hperm

/-- The removal of a peer whose place is taken by another. -/
theorem unlink_replace_spec (h : IsPool pool (plug k (.node (plug k' (.node l q w .nil)) p v r)))
    (hside : (sideEntries k').2 = []) :
    ∃ m' t', replacePeer pool.mem p q (links k) (links (k' ++ ⟨.left, p, v, r⟩ :: k)) =
        some (m', links (k' ++ ⟨.left, q, w.withHeight v.avlHeight, r⟩ :: k)) ∧
      IsPool ⟨peerAvlRebalance m' (links (k' ++ ⟨.left, q, w.withHeight v.avlHeight, r⟩ :: k)).tail,
        pool.peerTotal - 1⟩ t' ∧
      ∀ x, x ∈ keys t' ↔ x ∈ keys (plug k (.node (plug k' (.node l q w .nil)) p v r)) ∧
        x ≠ v.v4daddr := by
  have hplug : ∀ s (a : ℕ) (u : PeerData), plug (k' ++ ⟨.left, a, u, r⟩ :: k) s =
      plug k (.node (plug k' s) a u r) := by
    intro s a u
    rw [plug_append, plug_cons, join_left]
  have hbefore : Keeps pool.mem (plug (k' ++ ⟨.left, p, v, r⟩ :: k) (.node l q w .nil)) := by
    rw [hplug]
    exact h.keeps
  obtain ⟨m', hrun, hkeeps⟩ := replacePeer_spec hbefore
  -- with `q` in the place of `p`, and still in its old place, the tree is as balanced as before
  have havl :
      Avl (plug (k' ++ ⟨.left, q, w.withHeight v.avlHeight, r⟩ :: k) (.node l q w .nil)) := by
    rw [hplug]
    exact avl_plug_congr h.avl (Avl.of_plug (s := .node _ p v r) h.avl) rfl
  have hkeys : keys (plug k (.node (plug k' l) q (w.withHeight v.avlHeight) r)) =
      keys (plug k (.node (plug k' l) q w r)) := by
    rw [keys_plug, keys_plug, keys_node, keys_node]
    rfl
  obtain ⟨hsub, hperm⟩ := keys_remove (l := plug k' (.node l q w .nil)) (r := r)
    (s := .node (plug k' l) q w r) (by
      rw [keys_node, keys_plug, keys_plug, hside]
      simp [keys])
  have hdepth : depth (.node l q w .nil) = depth l + 1 := by rw [depth, depth, max_zero]
  obtain ⟨t', ht', hmem⟩ := h.remove hkeeps havl
    (Avl.of_plug havl).2.1 (by omega) (by omega) (by rw [hplug, hkeys]; exact hsub)
    (by rw [hplug, hkeys]; exact hperm)
  exact ⟨m', t', hrun, ht', hmem⟩

/-- The search for a peer by its address finds it. -/
theorem IsPool.descend_self (h : IsPool pool t) (hp : p ∈ t.addrs) :
    ∃ k l v r, descend (pool.mem.heap p).data.v4daddr [] t = (k, .node l p v r) ∧
      t = plug k (.node l p v r) ∧ k.length + depth (.node l p v r) ≤ depth t := by
  obtain ⟨k0, l0, v0, r0, rfl⟩ := exists_plug_of_mem hp
  obtain ⟨-, ⟨⟨-, hcell⟩, -⟩, -⟩ := (stores_plug _ _).mp h.keeps.stores
  have hentry : ∀ (k : List (Frame ℕ PeerData)) l p v r,
      (p, v.v4daddr, v.refcnt) ∈ entries (plug k (.node l p v r)) := by
    intro k l p v r
    rw [entries_plug]
    simp
  have hmem := hentry k0 l0 p v0 r0
  rw [hcell]
  rcases h.descend_cases v0.v4daddr with
    ⟨k, -, -, hnot, -⟩ | ⟨k, l, q, v, r, hd, hplug, hkey, -, hlen⟩
  · exact absurd (mem_keys_of_mem_entries hmem) hnot
  · have hmem' := hentry k l q v r
    rw [← hplug] at hmem'
    obtain ⟨rfl, -⟩ := Prod.mk.inj (h.search.entry_unique hmem hmem' hkey.symm)
    exact ⟨k, l, v, r, hd, hplug, hlen⟩

/-- **Unlinking a peer** removes its address, if the peer has no other references. -/
theorem unlinkFromPool_spec (h : IsPool pool t) (hp : p ∈ t.addrs) :
    ∃ out t', Returns (fun turns => unlinkFromPool turns pool p) out ∧ IsPool out.pool t' ∧
      (∀ x, x ∈ keys t' ↔ x ∈ keys t ∧ ¬((pool.mem.heap p).data.refcnt = 1 ∧
        x = (pool.mem.heap p).data.v4daddr)) ∧ out.path ≤ depth t := by
  obtain ⟨k, l, v, r, hd, ht, hlen⟩ := h.descend_self hp
  have hlookup := fun turns (hturns : depth t ≤ turns) =>
    lookup_spec (pool.mem.heap p).data.v4daddr h.keeps hturns
  rw [hd] at hlookup
  subst ht
  obtain ⟨-, ⟨⟨-, hcell⟩, hbl, -⟩, -⟩ := (stores_plug _ _).mp h.keeps.stores
  by_cases href : (pool.mem.heap p).data.refcnt = 1
  · simp only [href, true_and]
    have hkey : (pool.mem.heap p).data.v4daddr = v.v4daddr := by rw [hcell]
    cases l with
    | nil =>
      -- the right subtree takes the place of the peer
      obtain ⟨t', ht', hmem⟩ := unlink_left_spec h
      refine ⟨⟨⟨_, pool.peerTotal - 1⟩, p, (links k).length⟩, t',
        ⟨depth (plug k (.node .nil p v r)), fun turns hturns => ?_⟩, ht', ?_, ?_⟩
      · show unlinkFromPool turns pool p = _
        rw [unlinkFromPool, if_pos href, hlookup turns hturns]
        show (if p ≠ p then none else _) = _
        rw [if_neg (fun h => h rfl), if_pos (by rw [hcell]; rfl), headD_links, hcell]
      · rwa [hkey]
      · have hpos : 0 < depth (.node .nil p v r) := succ_pos _
        show (links k).length ≤ _
        rw [length_links]
        omega
    | node ll b w lr =>
      -- the last peer before it takes its place
      obtain ⟨k', l', q, u, hright, hplug, hside, hlen'⟩ :=
        rightmost_spec (⟨.left, p, v, r⟩ :: k) ll lr b w
      rw [← hplug] at h
      obtain ⟨m', t', hrun, ht', hmem⟩ := unlink_replace_spec h hside
      rw [hplug] at h hmem
      refine ⟨⟨⟨_, pool.peerTotal - 1⟩, p, (links (k' ++ ⟨.left, p, v, r⟩ :: k)).length⟩, t',
        ⟨depth (plug k (.node (.node ll b w lr) p v r)), fun turns hturns => ?_⟩, ht', ?_, ?_⟩
      · have hdepth : depth lr ≤ turns := by
          have hlr : depth lr ≤ depth (.node (.node ll b w lr) p v r) :=
            (le_max_right _ _).trans ((le_succ _).trans ((le_max_left _ _).trans (le_succ _)))
          omega
        have hloop := rightemptyLoop_spec (⟨.left, p, v, r⟩ :: k) h.keeps hdepth
        rw [hright] at hloop
        have hsearch : lookupRightempty turns pool.mem p (links k) =
            some (q, links (k' ++ ⟨.left, p, v, r⟩ :: k)) := by
          rw [lookupRightempty, hcell]
          exact hloop
        show unlinkFromPool turns pool p = _
        rw [unlinkFromPool, if_pos href, hlookup turns hturns]
        show (if p ≠ p then none else _) = _
        rw [if_neg (fun h => h rfl), if_neg (by rw [hcell]; exact hbl.1.1), hsearch]
        show Option.bind (replacePeer ..) _ = _
        rw [hrun]
        rfl
      · rwa [hkey]
      · have hleft : depth (.node ll b w lr) + 1 ≤ depth (.node (.node ll b w lr) p v r) :=
          succ_le_succ (le_max_left _ _)
        show (links (k' ++ ⟨.left, p, v, r⟩ :: k)).length ≤ _
        rw [length_links, length_append, length_cons]
        omega
  · obtain ⟨t', ht', hkeys, -⟩ := h.addRefcnt (-1)
    refine ⟨⟨{ pool with mem := addRefcnt pool.mem p (-1) }, p, 0⟩, t',
      ⟨0, fun turns _ => if_neg href⟩, ht', fun x => ?_, zero_le _⟩
    rw [hkeys, and_iff_left (fun hx => href hx.1)]

/-! ## Runs -/

/-- The peers in the pool: those that the links lead to. -/
inductive InPool (m : Peers) : ℕ → Prop
  | root (h : m.root ≠ peerAvlEmpty) : InPool m m.root
  | child {a : ℕ} (d : Side) (ha : InPool m a) (h : (m.heap a).child d ≠ peerAvlEmpty) :
      InPool m ((m.heap a).child d)

/-- What happens to the pool: the two parts of `inet_getpeer`, the second with a new node;
`unlink_from_pool`; and other code that changes the reference counter of a peer. -/
inductive Event
  | find (daddr : BitVec 32)
  | link (daddr : BitVec 32) (n : ℕ)
  | unlink (p : ℕ)
  | count (p : ℕ) (z : ℤ)

/-- The functions that are called. -/
def perform (turns : ℕ) (pool : Pool) : Event → Option Done
  | .find daddr => getpeerFind turns pool daddr
  | .link daddr n => getpeerLink turns pool daddr n
  | .unlink p => unlinkFromPool turns pool p
  | .count p z => some ⟨{ pool with mem := addRefcnt pool.mem p z }, p, 0⟩

/-- A new node is not in the pool; the peers that others have references to are in it. -/
def Allowed (pool : Pool) : Event → Prop
  | .find _ => True
  | .link _ n => n ≠ peerAvlEmpty ∧ ¬InPool pool.mem n
  | .unlink p => InPool pool.mem p
  | .count p _ => InPool pool.mem p

/-- The addresses after an event, if those before it are `addresses`. -/
def After (pool : Pool) (addresses : BitVec 32 → Prop) : Event → BitVec 32 → Prop
  | .find _, x => addresses x
  | .link daddr _, x => addresses x ∨ x = daddr
  | .unlink p, x => addresses x ∧
    ¬((pool.mem.heap p).data.refcnt = 1 ∧ x = (pool.mem.heap p).data.v4daddr)
  | .count _ _, x => addresses x

/-- What `inet_getpeer` returns: the peer with the address, or none if the first part finds none. -/
def Answers (t t' : Tree) (peer : ℕ) : Event → Prop
  | .find daddr => if daddr ∈ keys t then ∃ z, (peer, daddr, z) ∈ entries t'
    else peer = peerAvlEmpty
  | .link daddr _ => ∃ z, (peer, daddr, z) ∈ entries t'
  | _ => True

/-- The runs of a pool that is empty at first. -/
def system : System Pool Event where
  init pool := pool.mem.root = peerAvlEmpty ∧ nodeHeight pool.mem peerAvlEmpty = 0 ∧
    pool.peerTotal = 0
  step _ pool e pool' := Allowed pool e ∧
    ∃ out, Returns (fun turns => perform turns pool e) out ∧ pool' = out.pool

theorem mem_addrs_of_inPool (H : Keeps m t) (ha : InPool m a) : a ∈ t.addrs := by
  have hroot : ∀ {s : Tree}, ptr peerAvlEmpty s ≠ peerAvlEmpty → ptr peerAvlEmpty s ∈ s.addrs := by
    intro s hs
    cases s with
    | nil => exact absurd rfl hs
    | node l a v r =>
      show a ∈ _
      simp
  induction ha with
  | root h =>
    rw [H.stores.root_eq] at h ⊢
    exact hroot h
  | @child a d _ h ih =>
    obtain ⟨k, l, v, r, rfl⟩ := exists_plug_of_mem ih
    obtain ⟨-, ⟨⟨-, hcell⟩, -⟩, -⟩ := (stores_plug _ _).mp H.stores
    rw [hcell] at h ⊢
    rw [mem_addrs_plug]
    left
    rw [addrs_node, mem_append, mem_cons]
    cases d with
    | left => exact Or.inl (hroot h)
    | right => exact Or.inr (Or.inr (hroot h))

theorem inPool_of_mem_addrs (H : Keeps m t) (ha : a ∈ t.addrs) : InPool m a := by
  obtain ⟨k, l, v, r, rfl⟩ := exists_plug_of_mem ha
  -- a node is reached from the one above it
  have hup : ∀ (k : List (Frame ℕ PeerData)) (x : ℕ), Around peerAvlEmpty m x k →
      x ≠ peerAvlEmpty → InPool m x := by
    intro k
    induction k with
    | nil =>
      intro x hx hne
      obtain rfl : m.root = x := hx
      exact InPool.root hne
    | cons f k ih =>
      rintro x ⟨⟨hf0, hf⟩, -, hk⟩ hne
      have hstep := InPool.child f.side (ih f.addr hk hf0)
      rw [hf, DownCell.child_join] at hstep
      exact hstep hne
  obtain ⟨hk, ⟨⟨ha0, -⟩, -⟩, -⟩ := (stores_plug _ _).mp H.stores
  exact hup k a hk ha0

/-- **One event.** -/
theorem perform_spec (h : IsPool pool t) {e : Event} (he : Allowed pool e) :
    ∃ out t', Returns (fun turns => perform turns pool e) out ∧ IsPool out.pool t' ∧
      (∀ x, x ∈ keys t' ↔ After pool (· ∈ keys t) e x) ∧ out.path ≤ depth t + 1 ∧
      Answers t t' out.peer e := by
  cases e with
  | find daddr =>
    obtain ⟨out, t', hrun, ht', hkeys, hpath, hpeer⟩ := getpeerFind_spec h daddr
    exact ⟨out, t', hrun, ht', fun x => by rw [hkeys]; rfl, by rw [hpath]; exact zero_le _, hpeer⟩
  | link daddr n =>
    have hn : n ∉ t.addrs := fun hn => he.2 (inPool_of_mem_addrs h.keeps hn)
    exact getpeerLink_spec h daddr he.1 hn
  | unlink p =>
    obtain ⟨out, t', hrun, ht', hkeys, hpath⟩ :=
      unlinkFromPool_spec h (mem_addrs_of_inPool h.keeps he)
    exact ⟨out, t', hrun, ht', hkeys, le_succ_of_le hpath, trivial⟩
  | count p z =>
    obtain ⟨k, l, v, r, rfl⟩ := exists_plug_of_mem (mem_addrs_of_inPool h.keeps he)
    obtain ⟨t', ht', hkeys, -⟩ := h.addRefcnt z
    exact ⟨_, t', ⟨0, fun turns _ => rfl⟩, ht', fun x => by rw [hkeys]; rfl, zero_le _, trivial⟩

theorem isPool_of_reach {tr : List Event} (h : system.Reach tr pool) : ∃ t, IsPool pool t := by
  refine h.invariant (P := fun _ pool => ∃ t, IsPool pool t) (fun pool hinit => ?_) ?_
  · refine ⟨.nil, ⟨⟨⟨hinit.1, trivial, nodup_nil⟩, hinit.2.1⟩, List.Pairwise.nil, trivial, ?_⟩⟩
    rw [hinit.2.2]
    rfl
  · rintro tr pool e pool' ⟨t, ht⟩ ⟨hallowed, out, hrun, rfl⟩
    obtain ⟨out', t', hrun', ht', -⟩ := perform_spec ht hallowed
    rw [hrun.unique hrun']
    exact ⟨t', ht'⟩

/-- **Main theorem.**  In every run, the pool is a balanced search tree with exact heights, and
`peer_total` is the number of its nodes.  Each operation comes to an end without meeting a condition
of `BUG`; it changes the addresses as it should, and returns the peer that was asked for; and as
long as there are fewer than `2 ^ 27` nodes, the stack has room for the path that it records. -/
theorem peer_pool_avl {tr : List Event} {pool : Pool} (h : system.Reach tr pool) :
    ∃ t, IsPool pool t ∧ ∀ e, Allowed pool e →
      ∃ out t', Returns (fun turns => perform turns pool e) out ∧ IsPool out.pool t' ∧
        (∀ x, x ∈ keys t' ↔ After pool (· ∈ keys t) e x) ∧
        (t.addrs.length < 2 ^ 27 → out.path ≤ peerMaxdepth) ∧ Answers t t' out.peer e := by
  obtain ⟨t, ht⟩ := isPool_of_reach h
  refine ⟨t, ht, fun e he => ?_⟩
  obtain ⟨out, t', hrun, ht', hkeys, hpath, hpeer⟩ := perform_spec ht he
  refine ⟨out, t', hrun, ht', hkeys, fun hsize => ?_, hpeer⟩
  have hdepth := depth_le_of_size_lt ht.avl hsize
  rw [peerMaxdepth]
  omega

/-- The pool before the first peer. -/
def emptyPool : Pool :=
  ⟨⟨fun _ => ⟨peerAvlEmpty, peerAvlEmpty, ⟨0, 0, 0⟩⟩, peerAvlEmpty⟩, 0⟩

/-- A run can go on with a new node for any address. -/
theorem exists_reach_link {tr : List Event} (h : system.Reach tr pool) (daddr : BitVec 32) :
    ∃ n pool', system.Reach (.link daddr n :: tr) pool' := by
  obtain ⟨t, ht⟩ := isPool_of_reach h
  obtain ⟨n, hn⟩ := Infinite.exists_notMem_finset (insert peerAvlEmpty t.addrs.toFinset)
  rw [Finset.mem_insert, mem_toFinset, not_or] at hn
  have hallowed : Allowed pool (.link daddr n) :=
    ⟨hn.1, fun h => hn.2 (mem_addrs_of_inPool ht.keeps h)⟩
  obtain ⟨out, -, hrun, -⟩ := perform_spec ht hallowed
  exact ⟨n, out.pool, .step h ⟨hallowed, out, hrun, rfl⟩⟩

/-- Three peers are linked in the order of their addresses; the third one calls for a rotation. -/
theorem peer_pool_avl_three :
    ∃ n₁ n₂ n₃ pool, system.Reach [.link 3 n₃, .link 2 n₂, .link 1 n₁] pool ∧
      ∃ t, IsPool pool t ∧ ∀ e, Allowed pool e →
        ∃ out t', Returns (fun turns => perform turns pool e) out ∧ IsPool out.pool t' := by
  have hempty : system.Reach [] emptyPool := .init ⟨rfl, rfl, rfl⟩
  obtain ⟨n₁, pool₁, h₁⟩ := exists_reach_link hempty 1
  obtain ⟨n₂, pool₂, h₂⟩ := exists_reach_link h₁ 2
  obtain ⟨n₃, pool₃, h₃⟩ := exists_reach_link h₂ 3
  obtain ⟨t, ht, hperform⟩ := peer_pool_avl h₃
  refine ⟨n₁, n₂, n₃, pool₃, h₃, t, ht, fun e he => ?_⟩
  obtain ⟨out, t', hrun, ht', -⟩ := hperform e he
  exact ⟨out, t', hrun, ht'⟩

end Gp2xKernel.InetPeer
