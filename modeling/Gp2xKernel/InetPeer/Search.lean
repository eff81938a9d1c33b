import Gp2xKernel.InetPeer.Links

/-!
# Searching the pool

The two searches follow a path in the tree, and record its links.  In a search tree, the first finds
the peer with an address, or the position where it belongs; the second finds the last peer of a
subtree.

## Main definitions

* `keys`, `Search`: the addresses of the peers, and that they are in order
* `descend`, `rightmost`: the searches as functions on trees

## Main results

* `lookup_spec`, `rightemptyLoop_spec`: the loops compute these functions
* `descend_spec`: what the first search finds
* `rightmost_spec`: what the second search finds
-/

namespace Gp2xKernel.InetPeer

open Library List

variable {m : Peers} {k : List (Frame ℕ PeerData)} {t : Tree}

/-! ## Search trees -/

/-- The addresses of the peers, in the order of the tree. -/
def keys (t : Tree) : List (BitVec 32) := (entries t).map fun e => e.2.1

/-- The tree is a search tree with one node for each address. -/
def Search (t : Tree) : Prop := (keys t).Pairwise (· < ·)

theorem keys_node (l r : Tree) (a : ℕ) (v : PeerData) :
    keys (.node l a v r) = keys l ++ v.v4daddr :: keys r := by
  rw [keys, entries_node, map_append, map_cons, keys, keys]

variable {l r s : Tree} {a u turns : ℕ} {v : PeerData} {e : ℕ × BitVec 32 × ℤ} {daddr : BitVec 32}

theorem search_node (h : Search (.node l a v r)) :
    (Search l ∧ ∀ x ∈ keys l, x < v.v4daddr) ∧ Search r ∧ ∀ x ∈ keys r, v.v4daddr < x := by
  rw [Search, keys_node, pairwise_append, pairwise_cons] at h
  exact ⟨⟨h.1, fun x hx => h.2.2 x hx _ mem_cons_self⟩, h.2.1.2, h.2.1.1⟩

/-- There are no more nodes than addresses. -/
theorem Search.size_le (h : Search t) : t.addrs.length ≤ 2 ^ 32 := by
  have hnodup : ((keys t).map BitVec.toFin).Nodup := by
    refine List.Nodup.map (fun x y hxy => BitVec.eq_of_toFin_eq hxy) ?_
    exact h.imp fun hlt => BitVec.ne_of_lt hlt
  have hlen := hnodup.length_le_card
  rwa [Fintype.card_fin, length_map, keys, length_map, ← length_map Prod.fst,
    ← addrs_eq_entries] at hlen

/-- A peer is determined by its address. -/
theorem Search.entry_unique (h : Search t) {e' : ℕ × BitVec 32 × ℤ} (he : e ∈ entries t)
    (he' : e' ∈ entries t) (hkey : e.2.1 = e'.2.1) : e = e' := by
  have hnodup : (keys t).Nodup := List.Pairwise.imp (fun hlt => BitVec.ne_of_lt hlt) h
  exact inj_on_of_nodup_map hnodup he he' hkey

/-! ## The first search -/

/-- `lookup` on a tree: the position and the subtree that it ends at. -/
def descend (daddr : BitVec 32) :
    List (Frame ℕ PeerData) → Tree → List (Frame ℕ PeerData) × Tree
  | k, .nil => (k, .nil)
  | k, .node l a v r =>
    if daddr = v.v4daddr then (k, .node l a v r)
    else if daddr < v.v4daddr then descend daddr (⟨.left, a, v, r⟩ :: k) l
    else descend daddr (⟨.right, a, v, l⟩ :: k) r

/-- What the first search finds: it stays in the tree, the path is not longer than the tree is high,
and it ends at the empty tree or at the address. -/
theorem descend_spec (daddr : BitVec 32) (k : List (Frame ℕ PeerData)) (s : Tree) :
    plug (descend daddr k s).1 (descend daddr k s).2 = plug k s ∧
      (descend daddr k s).1.length + depth (descend daddr k s).2 ≤ k.length + depth s ∧
      ((descend daddr k s).2 = .nil ∨
        ∃ l a v r, (descend daddr k s).2 = .node l a v r ∧ v.v4daddr = daddr) := by
  induction s generalizing k with
  | nil => exact ⟨rfl, le_rfl, Or.inl rfl⟩
  | node l a v r ihl ihr =>
    rw [descend]
    split_ifs with heq hlt
    · exact ⟨rfl, le_rfl, Or.inr ⟨l, a, v, r, rfl, heq.symm⟩⟩
    · obtain ⟨hplug, hlen, hend⟩ := ihl (⟨.left, a, v, r⟩ :: k)
      refine ⟨hplug, le_trans hlen ?_, hend⟩
      rw [length_cons, depth]
      omega
    · obtain ⟨hplug, hlen, hend⟩ := ihr (⟨.right, a, v, l⟩ :: k)
      refine ⟨hplug, le_trans hlen ?_, hend⟩
      rw [length_cons, depth]
      omega

/-- The address is between the peers before a position and those after it. -/
def Between (daddr : BitVec 32) (k : List (Frame ℕ PeerData)) : Prop :=
  (∀ e ∈ (sideEntries k).1, e.2.1 < daddr) ∧ ∀ e ∈ (sideEntries k).2, daddr < e.2.1

theorem mem_keys_of_mem_entries (he : e ∈ entries t) : e.2.1 ∈ keys t :=
  mem_map_of_mem he

/-- The search goes to the side where the address belongs. -/
theorem descend_between (daddr : BitVec 32) {k : List (Frame ℕ PeerData)} (hs : Search s)
    (hk : Between daddr k) : Between daddr (descend daddr k s).1 := by
  induction s generalizing k with
  | nil => exact hk
  | node l a v r ihl ihr =>
    obtain ⟨⟨hsl, hl⟩, hsr, hr⟩ := search_node hs
    rw [descend]
    split_ifs with heq hlt
    · exact hk
    · refine ihl hsl ⟨hk.1, fun e he => ?_⟩
      rcases mem_append.mp he with he | he
      · rcases mem_cons.mp he with rfl | he
        · exact hlt
        · exact BitVec.lt_trans hlt (hr _ (mem_keys_of_mem_entries he))
      · exact hk.2 e he
    · have hgt : v.v4daddr < daddr := BitVec.lt_of_le_ne (BitVec.not_lt.mp hlt) (Ne.symm heq)
      refine ihr hsr ⟨fun e he => ?_, hk.2⟩
      rcases mem_append.mp he with he | he
      · exact hk.1 e he
      · rcases mem_append.mp he with he | he
        · exact BitVec.lt_trans (hl _ (mem_keys_of_mem_entries he)) hgt
        · obtain rfl := mem_singleton.mp he
          exact hgt

theorem lookupLoop_stop (h : u = peerAvlEmpty ∨ daddr = (m.heap u).data.v4daddr) (turns : ℕ)
    (stack : List (Link ℕ)) :
    lookupLoop m daddr turns u stack = some (u, stack) := by
  cases turns <;> exact if_pos h

/-- **`lookup`** computes `descend`, and records the links of the position. -/
theorem lookupLoop_spec (daddr : BitVec 32) (k : List (Frame ℕ PeerData)) (H : Keeps m (plug k s))
    (hturns : depth s ≤ turns) :
    lookupLoop m daddr turns (ptr peerAvlEmpty s) (links k) =
      some (ptr peerAvlEmpty (descend daddr k s).2, links (descend daddr k s).1) := by
  induction s generalizing k turns with
  | nil => exact lookupLoop_stop (Or.inl rfl) turns _
  | node l a v r ihl ihr =>
    obtain ⟨hctx, ⟨⟨ha0, ha⟩, -⟩, -⟩ := (stores_plug _ _).mp H.stores
    have hkey : (m.heap a).data.v4daddr = v.v4daddr := by rw [ha]
    show lookupLoop m daddr turns a (links k) = _
    rw [descend]
    by_cases heq : daddr = v.v4daddr
    · rw [if_pos heq]
      exact lookupLoop_stop (Or.inr (heq.trans hkey.symm)) turns _
    · rw [if_neg heq]
      rw [← hkey] at heq
      rw [depth] at hturns
      obtain ⟨turns, rfl⟩ : ∃ n, turns = n + 1 := ⟨turns - 1, by omega⟩
      rw [lookupLoop, if_neg (not_or.mpr ⟨ha0, heq⟩), hkey]
      dsimp only
      by_cases hlt : daddr < v.v4daddr
      · rw [if_pos hlt, if_pos hlt, DownMem.read, ha]
        exact ihl (⟨.left, a, v, r⟩ :: k) H (by omega)
      · rw [if_neg hlt, if_neg hlt, DownMem.read, ha]
        exact ihr (⟨.right, a, v, l⟩ :: k) H (by omega)

theorem lookup_spec (daddr : BitVec 32) (H : Keeps m t) (hturns : depth t ≤ turns) :
    lookup turns m daddr =
      some (ptr peerAvlEmpty (descend daddr [] t).2, links (descend daddr [] t).1) := by
  rw [lookup, H.stores.root_eq]
  exact lookupLoop_spec daddr [] H hturns

/-! ## The second search -/

/-- The loop of `lookup_rightempty` on a tree. -/
def rightmost : List (Frame ℕ PeerData) → Tree → List (Frame ℕ PeerData) × Tree
  | k, .nil => (k, .nil)
  | k, .node l a v .nil => (k, .node l a v .nil)
  | k, .node l a v (.node rl b w rr) => rightmost (⟨.right, a, v, l⟩ :: k) (.node rl b w rr)

/-- What the second search finds: the last peer of the subtree, with only peers before it. -/
theorem rightmost_spec (k : List (Frame ℕ PeerData)) (l r : Tree) (a : ℕ) (v : PeerData) :
    ∃ k' l' b w, rightmost k (.node l a v r) = (k' ++ k, .node l' b w .nil) ∧
      plug k' (.node l' b w .nil) = .node l a v r ∧ (sideEntries k').2 = [] ∧
      k'.length + 1 ≤ depth (.node l a v r) := by
  induction r generalizing k l a v with
  | nil =>
    refine ⟨[], l, a, v, rfl, rfl, rfl, ?_⟩
    exact Nat.succ_le_succ (Nat.zero_le _)
  | node rl b w rr _ ihr =>
    obtain ⟨k', l', c, u, hright, hplug, hside, hlen⟩ := ihr (⟨.right, a, v, l⟩ :: k) rl b w
    refine ⟨k' ++ [⟨.right, a, v, l⟩], l', c, u, ?_, ?_, ?_, ?_⟩
    · rw [rightmost, hright, append_assoc, singleton_append]
    · rw [plug_append, hplug]
      rfl
    · have happend : ∀ k' : List (Frame ℕ PeerData), (sideEntries k').2 = [] →
          (sideEntries (k' ++ [⟨.right, a, v, l⟩])).2 = [] := by
        intro k' hk'
        induction k' with
        | nil => rfl
        | cons f k' ih =>
          rcases f with ⟨d, e, x, s⟩
          cases d with
          | left => exact absurd hk' (by simp [sideEntries])
          | right => exact ih hk'
      exact happend k' hside
    · rw [length_append, length_singleton, depth]
      omega

/-- The loop of **`lookup_rightempty`** computes `rightmost`, and records the links. -/
theorem rightemptyLoop_spec (k : List (Frame ℕ PeerData)) (H : Keeps m (plug k (.node l a v r)))
    (hturns : depth r ≤ turns) :
    rightemptyLoop m turns a (links k) =
      some (ptr peerAvlEmpty (rightmost k (.node l a v r)).2,
        links (rightmost k (.node l a v r)).1) := by
  induction r generalizing k l a v turns with
  | nil =>
    obtain ⟨-, ⟨⟨-, ha⟩, -⟩, -⟩ := (stores_plug _ _).mp H.stores
    have hright : (m.heap a).right = peerAvlEmpty := by rw [ha]; rfl
    cases turns <;> exact if_pos hright
  | node rl b w rr _ ihr =>
    obtain ⟨-, ⟨⟨-, ha⟩, -, ⟨hb0, -⟩, -⟩, -⟩ := (stores_plug _ _).mp H.stores
    have hright : (m.heap a).right = b := by rw [ha]; rfl
    rw [depth] at hturns
    obtain ⟨turns, rfl⟩ : ∃ n, turns = n + 1 := ⟨turns - 1, by omega⟩
    have hnext : rightemptyLoop m (turns + 1) a (links k) =
        rightemptyLoop m turns (m.heap a).right (.child .right a :: links k) :=
      if_neg (by rwa [hright])
    rw [hnext, hright]
    exact ihr (⟨.right, a, v, l⟩ :: k) H (by omega)

end Gp2xKernel.InetPeer
