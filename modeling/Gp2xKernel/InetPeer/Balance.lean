import Mathlib.Tactic.NormNum.NatFib
import Gp2xKernel.InetPeer.Basic

/-!
# Balanced trees of peers

Rebalancing as an operation on trees.  A tree whose subtrees are balanced, and differ in height by
at most two, becomes balanced; its height changes by at most one with respect to any balanced tree
that it differs from in one subtree by one level.  Hence the heights are right again all the way up,
both after an insertion and after a removal.

## Main definitions

* `depth`, `storedHeight`: the height of a tree, and what its root says it is
* `Avl`: stored heights are right, and siblings differ in height by at most one
* `balance`, `rise`: rebalancing a node, and all nodes above a position
* `entries`: the peers of a tree in order, without their heights

## Main results

* `balance_avl`: a node is balanced
* `rise_avl`, `entries_rise`: the tree is balanced after a change of one level at a position
* `fib_le_size`: a balanced tree of a given height has many nodes
-/

namespace Gp2xKernel.InetPeer

open Library LinkedTree Nat

/-- A tree of peers, at their addresses. -/
abbrev Tree := LinkedTree ℕ PeerData

/-! ## Heights -/

/-- The height of a tree. -/
def depth : Tree → ℕ
  | .nil => 0
  | .node l _ _ r => max (depth l) (depth r) + 1

/-- The field `avl_height` of the root. -/
def storedHeight : Tree → ℕ
  | .nil => 0
  | .node _ _ v _ => v.avlHeight

/-- Each `avl_height` is the height, and the heights of siblings differ by at most one. -/
def Avl : Tree → Prop
  | .nil => True
  | .node l _ v r =>
    (depth l ≤ depth r + 1 ∧ depth r ≤ depth l + 1 ∧ v.avlHeight = max (depth l) (depth r) + 1) ∧
      Avl l ∧ Avl r

/-- The same node with another height. -/
def PeerData.withHeight (v : PeerData) (h : ℕ) : PeerData := { v with avlHeight := h }

variable {x y t s outer high s0 : Tree} {k : List (Frame ℕ PeerData)} (d : Side)

theorem depth_join (x y : Tree) (a : ℕ) (v : PeerData) :
    depth (.join d x a v y) = max (depth x) (depth y) + 1 := by
  cases d with
  | left => rfl
  | right => rw [join_right, depth, max_comm]

theorem avl_join {a : ℕ} {v : PeerData} :
    Avl (.join d x a v y) ↔
      (depth x ≤ depth y + 1 ∧ depth y ≤ depth x + 1 ∧
        v.avlHeight = max (depth x) (depth y) + 1) ∧ Avl x ∧ Avl y := by
  cases d with
  | left => exact Iff.rfl
  | right =>
    rw [join_right, Avl, max_comm]
    tauto

@[simp] theorem storedHeight_join (x y : Tree) (a : ℕ) (v : PeerData) :
    storedHeight (.join d x a v y) = v.avlHeight := by
  cases d <;> rfl

theorem Avl.storedHeight_eq (h : Avl t) : storedHeight t = depth t := by
  cases t with
  | nil => rfl
  | node l a v r => exact h.1.2.2

theorem Avl.of_plug (h : Avl (plug k s)) : Avl s := by
  induction k generalizing s with
  | nil => exact h
  | cons f k ih => exact ((avl_join f.side).mp (ih h)).2.1

/-- A balanced tree of a given height has at least as many nodes as the Fibonacci tree. -/
theorem fib_le_size (h : Avl t) : Nat.fib (depth t + 2) ≤ t.addrs.length + 1 := by
  induction t with
  | nil => exact le_rfl
  | node l a v r ihl ihr =>
    obtain ⟨⟨hlr, hrl, -⟩, hl, hr⟩ := h
    have hfl := ihl hl
    have hfr := ihr hr
    rw [addrs_node, List.length_append, List.length_cons, depth]
    -- the lower subtree is at most one level lower
    have hstep : ∀ d, fib (d + 1 + 2) = fib (d + 1) + fib (d + 2) :=
      fun d => fib_add_two
    rcases le_total (depth l) (depth r) with hle | hle
    · rw [max_eq_right hle, hstep]
      have hmono := fib_mono (by omega : depth r + 1 ≤ depth l + 2)
      omega
    · rw [max_eq_left hle, hstep]
      have hmono := fib_mono (by omega : depth l + 1 ≤ depth r + 2)
      omega

/-- Trees with fewer than `2 ^ 27` nodes. -/
theorem depth_le_of_size_lt (h : Avl t) (hsize : t.addrs.length < 2 ^ 27) : depth t ≤ 38 := by
  by_contra hgt
  have hfib := fib_le_size h
  have hmono := fib_mono (by omega : 41 ≤ depth t + 2)
  have hvalue : fib 41 = 165580141 := by norm_num
  omega

/-- Trees with at most one node for each address. -/
theorem depth_le_of_size_le (h : Avl t) (hsize : t.addrs.length ≤ 2 ^ 32) : depth t ≤ 45 := by
  by_contra hgt
  have hfib := fib_le_size h
  have hmono := fib_mono (by omega : 48 ≤ depth t + 2)
  have hvalue : fib 48 = 4807526976 := by norm_num
  omega

/-! ## The peers in order -/

/-- The peers of a tree in order: addresses in memory, addresses of the peers, and counters. -/
def entries (t : Tree) : List (ℕ × BitVec 32 × ℤ) :=
  t.items.map fun p => (p.1, p.2.v4daddr, p.2.refcnt)

@[simp] theorem entries_nil : entries .nil = [] := rfl

@[simp] theorem entries_node (l r : Tree) (a : ℕ) (v : PeerData) :
    entries (.node l a v r) = entries l ++ (a, v.v4daddr, v.refcnt) :: entries r := by
  rw [entries, items_node, List.map_append, List.map_cons, entries, entries]

theorem addrs_eq_entries (t : Tree) : t.addrs = (entries t).map Prod.fst := by
  rw [entries, List.map_map, addrs_eq_map]
  rfl

/-- The entries before and after a position. -/
def sideEntries : List (Frame ℕ PeerData) → List (ℕ × BitVec 32 × ℤ) × List (ℕ × BitVec 32 × ℤ)
  | [] => ([], [])
  | f :: k =>
    let own := (f.addr, f.data.v4daddr, f.data.refcnt)
    match f.side with
    | .left => ((sideEntries k).1, own :: entries f.sibling ++ (sideEntries k).2)
    | .right => ((sideEntries k).1 ++ (entries f.sibling ++ [own]), (sideEntries k).2)

theorem entries_plug (k : List (Frame ℕ PeerData)) (s : Tree) :
    entries (plug k s) = (sideEntries k).1 ++ entries s ++ (sideEntries k).2 := by
  induction k generalizing s with
  | nil => simp [sideEntries]
  | cons f k ih =>
    rw [plug_cons, ih]
    rcases f with ⟨d, a, v, u⟩
    cases d <;> simp [sideEntries, join]

theorem entries_plug_congr {s' : Tree} (h : entries s' = entries s)
    (k : List (Frame ℕ PeerData)) : entries (plug k s') = entries (plug k s) := by
  rw [entries_plug, entries_plug, h]

/-! ## Rebalancing -/

/-- The subtree on one side of a node. -/
def sub (d : Side) (x y : Tree) : Tree :=
  match d with
  | .left => x
  | .right => y

theorem node_eq_join (x y : Tree) (a : ℕ) (v : PeerData) :
    (.node x a v y : Tree) = .join d (sub d x y) a v (sub d.flip x y) := by
  cases d <;> rfl

/-- The rotations, where `high` on side `d` is higher than `low` by two. -/
def rotated (d : Side) (high : Tree) (a : ℕ) (v : PeerData) (low : Tree) : Tree :=
  match high with
  | .nil => .join d high a v low
  | .node x b w y =>
    let outer := sub d x y
    let inner := sub d.flip x y
    if storedHeight inner ≤ storedHeight outer then
      .join d outer b (w.withHeight (storedHeight inner + 1 + 1))
        (.join d inner a (v.withHeight (storedHeight inner + 1)) low)
    else
      match inner with
      | .nil => .join d high a v low
      | .node p c u q =>
        .join d (.join d outer b (w.withHeight (storedHeight low + 1)) (sub d p q)) c
          (u.withHeight (storedHeight low + 2))
          (.join d (sub d.flip p q) a (v.withHeight (storedHeight low + 1)) low)

/-- A node with its subtrees is rebalanced. -/
def balance : Tree → Tree
  | .nil => .nil
  | .node l a v r =>
    if storedHeight l > storedHeight r + 1 then rotated .left l a v r
    else if storedHeight r > storedHeight l + 1 then rotated .right r a v l
    else .node l a (v.withHeight (max (storedHeight l) (storedHeight r) + 1)) r

/-- All nodes above a position are rebalanced, from the position to the root. -/
def rise : List (Frame ℕ PeerData) → Tree → Tree
  | [], s => s
  | f :: k, s => rise k (balance (.join f.side s f.addr f.data f.sibling))

theorem rotated_single {inner : Tree} (h : storedHeight inner ≤ storedHeight outer) (b : ℕ)
    (w : PeerData) (a : ℕ) (v : PeerData) (low : Tree) :
    rotated d (.join d outer b w inner) a v low =
      .join d outer b (w.withHeight (storedHeight inner + 1 + 1))
        (.join d inner a (v.withHeight (storedHeight inner + 1)) low) := by
  cases d <;> exact if_pos h

theorem rotated_double {p q : Tree} {u : PeerData} (h : ¬u.avlHeight ≤ storedHeight outer) (b c : ℕ)
    (w : PeerData) (a : ℕ) (v : PeerData) (low : Tree) :
    rotated d (.join d outer b w (.join d p c u q)) a v low =
      .join d (.join d outer b (w.withHeight (storedHeight low + 1)) p) c
        (u.withHeight (storedHeight low + 2))
        (.join d q a (v.withHeight (storedHeight low + 1)) low) := by
  cases d <;> exact if_neg h

/-- The two rotations, for trees in which the higher subtree of `high` is not empty. -/
theorem rotated_cases (hhigh : Avl high) (hpos : 0 < depth high) :
    (∃ outer b w inner, high = .join d outer b w inner ∧ depth inner ≤ depth outer) ∨
      ∃ outer b w p c u q, high = .join d outer b w (.join d p c u q) ∧
        ¬u.avlHeight ≤ depth outer := by
  cases high with
  | nil => exact absurd hpos (lt_irrefl 0)
  | node x b w y =>
    rw [node_eq_join d] at hhigh ⊢
    generalize sub d x y = outer at *
    generalize sub d.flip x y = inner at *
    by_cases hle : depth inner ≤ depth outer
    · exact Or.inl ⟨outer, b, w, inner, rfl, hle⟩
    · cases inner with
      | nil => exact absurd (zero_le _) hle
      | node p c u q =>
        refine Or.inr ⟨outer, b, w, sub d p q, c, u, sub d.flip p q, by rw [← node_eq_join], ?_⟩
        rwa [← ((avl_join d).mp hhigh).2.2.storedHeight_eq] at hle

theorem entries_rotated (high : Tree) (a : ℕ) (v : PeerData) (low : Tree) :
    entries (rotated d high a v low) = entries (.join d high a v low) := by
  cases high with
  | nil => rfl
  | node x b w y =>
    rw [node_eq_join d x y b w]
    generalize sub d x y = outer
    generalize sub d.flip x y = inner
    by_cases h : storedHeight inner ≤ storedHeight outer
    · rw [rotated_single d h]
      cases d <;> simp [join, PeerData.withHeight]
    · cases inner with
      | nil => exact absurd (zero_le _) h
      | node p c u q =>
        rw [node_eq_join d p q c u, rotated_double d h]
        cases d <;> simp [join, PeerData.withHeight]

theorem entries_balance (t : Tree) : entries (balance t) = entries t := by
  cases t with
  | nil => rfl
  | node l a v r =>
    rw [balance]
    split_ifs
    · rw [entries_rotated]
      rfl
    · rw [entries_rotated]
      rfl
    · simp [PeerData.withHeight]

/-- **A rotation** balances a node whose subtrees are balanced and differ by two. -/
theorem rotated_avl {low : Tree} (a : ℕ) (v : PeerData) (hhigh : Avl high) (hlow : Avl low)
    (hdiff : depth high = depth low + 2) :
    Avl (rotated d high a v low) ∧ depth high ≤ depth (rotated d high a v low) ∧
      depth (rotated d high a v low) ≤ depth high + 1 := by
  rcases rotated_cases d hhigh (by omega) with
    ⟨outer, b, w, inner, rfl, hle⟩ | ⟨outer, b, w, p, c, u, q, rfl, hgt⟩
  · obtain ⟨⟨hoi, hio, -⟩, houter, hinner⟩ := (avl_join d).mp hhigh
    rw [depth_join] at hdiff
    rw [rotated_single d (by rwa [houter.storedHeight_eq, hinner.storedHeight_eq]),
      hinner.storedHeight_eq]
    simp only [avl_join, depth_join, PeerData.withHeight]
    refine ⟨⟨⟨?_, ?_, ?_⟩, houter, ⟨?_, ?_, ?_⟩, hinner, hlow⟩, ?_, ?_⟩ <;> omega
  · obtain ⟨⟨hoi, hio, -⟩, houter, hinner⟩ := (avl_join d).mp hhigh
    obtain ⟨⟨hpq, hqp, hu⟩, hp, hq⟩ := (avl_join d).mp hinner
    rw [depth_join] at hoi hio
    rw [depth_join, depth_join] at hdiff
    rw [rotated_double d (by rwa [houter.storedHeight_eq]), hlow.storedHeight_eq]
    simp only [avl_join, depth_join, PeerData.withHeight]
    refine ⟨⟨⟨?_, ?_, ?_⟩, ⟨⟨?_, ?_, ?_⟩, houter, hp⟩, ⟨?_, ?_, ?_⟩, hq, hlow⟩, ?_, ?_⟩ <;> omega

/-- **A node is balanced** if its subtrees are, and differ by at most two. -/
theorem balance_avl {l r : Tree} (a : ℕ) (v : PeerData) (hl : Avl l) (hr : Avl r)
    (hlr : depth l ≤ depth r + 2) (hrl : depth r ≤ depth l + 2) :
    Avl (balance (.node l a v r)) ∧
      max (depth l) (depth r) ≤ depth (balance (.node l a v r)) ∧
      depth (balance (.node l a v r)) ≤ max (depth l) (depth r) + 1 ∧
      (depth l ≤ depth r + 1 → depth r ≤ depth l + 1 →
        depth (balance (.node l a v r)) = max (depth l) (depth r) + 1) := by
  rw [balance, hl.storedHeight_eq, hr.storedHeight_eq]
  split_ifs with hleft hright
  · obtain ⟨havl, hge, hle⟩ := rotated_avl .left a v hl hr (by omega)
    exact ⟨havl, by omega, by omega, by omega⟩
  · obtain ⟨havl, hge, hle⟩ := rotated_avl .right a v hr hl (by omega)
    exact ⟨havl, by omega, by omega, by omega⟩
  · exact ⟨⟨⟨by omega, by omega, rfl⟩, hl, hr⟩, le_succ _, le_rfl, fun _ _ => rfl⟩

theorem balance_join_avl (a : ℕ) (v : PeerData) (hx : Avl x) (hy : Avl y)
    (hxy : depth x ≤ depth y + 2) (hyx : depth y ≤ depth x + 2) :
    Avl (balance (.join d x a v y)) ∧
      max (depth x) (depth y) ≤ depth (balance (.join d x a v y)) ∧
      depth (balance (.join d x a v y)) ≤ max (depth x) (depth y) + 1 ∧
      (depth x ≤ depth y + 1 → depth y ≤ depth x + 1 →
        depth (balance (.join d x a v y)) = max (depth x) (depth y) + 1) := by
  cases d with
  | left => exact balance_avl a v hx hy hxy hyx
  | right =>
    rw [max_comm]
    obtain ⟨havl, hge, hle, heq⟩ := balance_avl a v hy hx hyx hxy
    exact ⟨havl, hge, hle, fun h h' => heq h' h⟩

/-- One level up: after a change of one level below a node, the node is balanced, and its height
changes by at most one level. -/
theorem balance_frame_avl {f : Frame ℕ PeerData} (h : Avl (.join f.side s0 f.addr f.data f.sibling))
    (hs : Avl s) (hup : depth s ≤ depth s0 + 1) (hdown : depth s0 ≤ depth s + 1) :
    Avl (balance (.join f.side s f.addr f.data f.sibling)) ∧
      depth (balance (.join f.side s f.addr f.data f.sibling)) ≤
        depth (.join f.side s0 f.addr f.data f.sibling) + 1 ∧
      depth (.join f.side s0 f.addr f.data f.sibling) ≤
        depth (balance (.join f.side s f.addr f.data f.sibling)) + 1 := by
  obtain ⟨⟨h1, h2, -⟩, -, hsib⟩ := (avl_join f.side).mp h
  obtain ⟨havl, hge, hle, heq⟩ := balance_join_avl f.side f.addr f.data hs hsib (by omega)
    (by omega)
  rw [depth_join f.side s0]
  refine ⟨havl, by omega, ?_⟩
  by_cases hbal : depth s ≤ depth f.sibling + 1 ∧ depth f.sibling ≤ depth s + 1
  · omega
  · omega

/-- **A change at a position.**  If a subtree of a balanced tree is replaced by a balanced one that
is at most one level higher or lower, the nodes above it are balanced one after another. -/
theorem rise_avl (h : Avl (plug k s0)) (hs : Avl s) (hup : depth s ≤ depth s0 + 1)
    (hdown : depth s0 ≤ depth s + 1) : Avl (rise k s) := by
  induction k generalizing s0 s with
  | nil => exact hs
  | cons f k ih =>
    obtain ⟨havl, hup', hdown'⟩ := balance_frame_avl (Avl.of_plug h) hs hup hdown
    exact ih h havl hup' hdown'

theorem entries_rise (k : List (Frame ℕ PeerData)) (s : Tree) :
    entries (rise k s) = entries (plug k s) := by
  induction k generalizing s with
  | nil => rfl
  | cons f k ih => rw [rise, ih, plug_cons, entries_plug_congr (entries_balance _)]

end Gp2xKernel.InetPeer
