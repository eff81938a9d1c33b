import Gp2xKernel.Library.Run
import Gp2xKernel.PrioTree.Iterate

/-!
# Runs of the priority search tree

Callers fill in nodes, insert them and remove them.  Which nodes are stored is read off the
history of calls and answers, and every run keeps the tree in order: the memory reached holds
exactly the stored nodes, each at a position that its interval spells.

## Main definitions

* `Event`, `storedIn`, `system`: the tree as a system and the reading of a history.
* `Mem.At`: the nodes reached from the root, each with its path.

## Main results

* `prioTree_invariant`: order and paths of the nodes, and the effect of every call.
* `prioTree_query_exact`: enumeration from a fresh iterator.
-/

namespace Gp2xKernel.PrioTree

open Library List
open Mem.Holds (cell index)

variable {α : Type} {w : ℕ} [DecidableEq α]

/-! ## The system -/

/-- A caller fills in a node, inserts one and gets a node back, or removes one. -/
inductive Event (α : Type) (w : ℕ)
  | fill (node : α) (cell : Cell α (Entry w))
  | insert (node answer : α)
  | remove (node : α)

/-- The node was inserted, was the answer of this insertion, and has not been removed
since. -/
def storedIn (a : α) : List (Event α w) → Prop
  | [] => False
  | .fill _ _ :: tr => storedIn a tr
  | .insert node answer :: tr => (node = a ∧ answer = a) ∨ storedIn a tr
  | .remove node :: tr => node ≠ a ∧ storedIn a tr

/-- A node may be inserted if it is there and its interval is not empty. -/
def Insertable (m : Mem α w) (a : α) : Prop := ∃ i, m.index a = some i ∧ i.radix ≤ i.heap

/-- Memory in which the caller has filled in a node. -/
def Mem.fill (m : Mem α w) (a : α) (c : Cell α (Entry w)) : Mem α w :=
  { m with heap := fun e => if e = a then some c else m.heap e }

/-- The tree as a system.  It starts empty, in any memory.  Callers leave stored nodes alone
and remove stored nodes only. -/
def system (α : Type) (w : ℕ) [DecidableEq α] : System (Mem α w) (Event α w) where
  init m := m.root.prioTreeNode = none ∧ m.root.indexBits = 1
  step tr m e m' :=
    match e with
    | .fill a c => ¬ storedIn a tr ∧ m' = m.fill a c
    | .insert a r => Insertable m a ∧ Returns (fun turns => prioTreeInsert turns m a) (m', r)
    | .remove a => storedIn a tr ∧ Returns (fun turns => prioTreeRemove turns m a) m'

/-! ## Positions -/

/-- The node is reached from the root by the path, which is listed from the node upwards. -/
inductive Mem.At (m : Mem α w) : List Side → α → Prop
  | root {a : α} : m.root.prioTreeNode = some a → At m [] a
  | child {path : List Side} {a : α} {c : Cell α (Entry w)} {d : Side} :
      At m path a → m.heap a = some c → c.child d ≠ a → At m (d :: path) (c.child d)

variable {m m' : Mem α w} {t : LinkedTree α (Entry w)} {a : α} {path : List Side}

omit [DecidableEq α] in
theorem Mem.At.exists_plug (H : m.Holds t) (h : m.At path a) :
    ∃ k l v r, t = plug k (.node l a v r) ∧ sides k = path := by
  induction h with
  | root hroot =>
    rw [H.root_eq] at hroot
    cases t with
    | nil => simp at hroot
    | node l e v r =>
      obtain rfl : e = _ := by simpa using hroot
      exact ⟨[], l, v, r, rfl, rfl⟩
  | @child path a c d _ hc hne ih =>
    obtain ⟨k, l, v, r, rfl, rfl⟩ := ih
    obtain ⟨A, B, hjoin⟩ := LinkedTree.exists_join d l r a v
    rw [hjoin] at H ⊢
    obtain rfl := Option.some.inj (hc.symm.trans H.cell)
    rw [Cell.child_join] at hne ⊢
    cases A with
    | nil => simp at hne
    | node al e u ar => exact ⟨⟨d, a, v, B⟩ :: k, al, u, ar, rfl, rfl⟩

omit [DecidableEq α] in
theorem at_of_plug {k : List (Frame α (Entry w))} {l r : LinkedTree α (Entry w)}
    (H : m.Holds (plug k (.node l a v r))) : m.At (sides k) a := by
  induction k generalizing l a v r with
  | nil => exact .root H.root_eq
  | cons f k ih =>
    have hparent : m.At (sides k) f.addr := by
      rcases f with ⟨_ | _, p, u, s⟩
      · exact ih H
      · exact ih H
    have hcell := cell H
    obtain ⟨-, -, hout⟩ := (nodup_plug _ _).mp H.nodup
    have haf := hout a (by simp)
    simp only [mem_around_cons, not_or] at haf
    have hchild := Mem.At.child hparent hcell (by
      rw [Cell.child_join]
      exact haf.1)
    rwa [Cell.child_join] at hchild

omit [DecidableEq α] in
/-- The nodes of the tree are those reached from the root. -/
theorem exists_at_iff (H : m.Holds t) : (∃ path, m.At path a) ↔ a ∈ t.addrs := by
  constructor
  · rintro ⟨path, h⟩
    obtain ⟨k, l, v, r, rfl, -⟩ := h.exists_plug H
    rw [mem_addrs_plug]
    exact .inl (by simp)
  · intro h
    obtain ⟨k, l, v, r, rfl⟩ := exists_plug_of_mem h
    exact ⟨sides k, at_of_plug H⟩

/-! ## The effect of a call -/

omit [DecidableEq α] in
theorem index_of_mem (H : m.Holds t) (h : (a, v) ∈ t.items) :
    m.index a = some (getIndex m.root.raw v) := by
  obtain ⟨k, l, v', r, rfl⟩ := exists_plug_of_mem (LinkedTree.mem_addrs_of_mem_items h)
  -- an address has one entry only
  have hnodup := H.nodup
  rw [LinkedTree.addrs_eq_map] at hnodup
  have hmem : (a, v') ∈ (plug k (.node l a v' r)).items :=
    (items_plug_perm _ _).mem_iff.mpr (by simp)
  obtain rfl : v = v' := congrArg Prod.snd (inj_on_of_nodup_map hnodup h hmem rfl)
  exact index (d := .left) H

omit [DecidableEq α] in
theorem exists_item (h : a ∈ t.addrs) : ∃ v, (a, v) ∈ t.items := by
  rw [LinkedTree.addrs_eq_map] at h
  obtain ⟨⟨e, v⟩, hv, rfl⟩ := mem_map.mp h
  exact ⟨v, hv⟩

omit [DecidableEq α] in
/-- The trees before and after a call have the same intervals at the nodes they share. -/
theorem index_eq {t' : LinkedTree α (Entry w)} (H : m.Holds t) (H' : m'.Holds t')
    (hraw : m'.root.raw = m.root.raw) (h : (a, v) ∈ t.items) (h' : (a, v) ∈ t'.items) :
    m'.index a = m.index a := by
  rw [index_of_mem H h, index_of_mem H' h', hraw]

/-- The two outcomes of an insertion: the interval is stored and the node that holds it is
the answer, or the node is added. -/
theorem insert_outcome (H : WellFormed m t) (ha : Insertable m a) :
    ∃ m' r, Returns (fun turns => prioTreeInsert turns m a) (m', r) ∧
      ((r ∈ t.addrs ∧ m.index r = m.index a ∧ m' = m) ∨
        ((∀ e ∈ t.addrs, m.index e ≠ m.index a) ∧ r = a ∧
          m'.root.raw = m.root.raw ∧
          ∃ t', WellFormed m' t' ∧ (∀ e, e ∈ t'.addrs ↔ e = a ∨ e ∈ t.addrs) ∧
            ∀ e ∈ t'.addrs, m'.index e = m.index e)) := by
  obtain ⟨i, hi, hle⟩ := ha
  obtain ⟨c, hc, rfl⟩ : ∃ c, m.heap a = some c ∧ getIndex m.root.raw c.data = i := by
    simpa [Mem.index] using hi
  by_cases hfound : ∃ p ∈ t.items, getIndex m.root.raw p.2 = getIndex m.root.raw c.data
  · obtain ⟨⟨r, y⟩, hp, heq⟩ := hfound
    refine ⟨m, r, (prioTreeInsert_found H hc hp heq).returns, .inl
      ⟨LinkedTree.mem_addrs_of_mem_items hp, ?_, rfl⟩⟩
    rw [index_of_mem H.holds hp, hi, heq]
  · have hnew : ∀ p ∈ t.items, getIndex m.root.raw p.2 ≠ getIndex m.root.raw c.data :=
      fun p hp heq => hfound ⟨p, hp, heq⟩
    have hother : ∀ e ∈ t.addrs, m.index e ≠ m.index a := by
      intro e he
      obtain ⟨v, hv⟩ := exists_item he
      rw [index_of_mem H.holds hv, hi]
      exact fun h => hnew _ hv (Option.some.inj h)
    have hfresh : a ∉ t.addrs := fun h => hother a h rfl
    obtain ⟨m', t', hrun, H', hraw, hperm⟩ := prioTreeInsert_new H hc hfresh hle hnew
    have haddrs := LinkedTree.addrs_perm_cons hperm
    refine ⟨m', a, hrun.returns, .inr ⟨hother, rfl, hraw, t', H', fun e => ?_,
      fun e he => ?_⟩⟩
    · rw [haddrs.mem_iff, mem_cons]
    · obtain ⟨v, hv⟩ := exists_item he
      rcases mem_cons.mp (hperm.mem_iff.mp hv) with heq | hold
      · obtain ⟨rfl, rfl⟩ := Prod.mk.inj heq
        rw [index_of_mem H'.holds hv, hraw, hi]
      · exact index_eq H.holds H'.holds hraw hold hv

theorem remove_outcome (H : WellFormed m t) (ha : a ∈ t.addrs) :
    ∃ m', Returns (fun turns => prioTreeRemove turns m a) m' ∧
      ∃ t', WellFormed m' t' ∧ (∀ e, e ∈ t'.addrs ↔ e ≠ a ∧ e ∈ t.addrs) ∧
        ∀ e ∈ t'.addrs, m'.index e = m.index e := by
  obtain ⟨m', t', v, hrun, H', hraw, hperm⟩ := prioTreeRemove_wellFormed H ha
  have haddrs := LinkedTree.addrs_perm_cons hperm
  have hnot := (nodup_cons.mp (haddrs.nodup_iff.mp H.holds.nodup)).1
  refine ⟨m', hrun.returns, t', H', fun e => ?_, fun e he => ?_⟩
  · rw [haddrs.mem_iff, mem_cons]
    constructor
    · exact fun he => ⟨ne_of_mem_of_not_mem he hnot, .inr he⟩
    · rintro ⟨hne, rfl | he⟩
      · exact absurd rfl hne
      · exact he
  · obtain ⟨v', hv'⟩ := exists_item he
    exact index_eq H.holds H'.holds hraw (hperm.mem_iff.mpr (mem_cons_of_mem _ hv')) hv'

/-! ## Every run -/

/-- The memory holds a tree in order, of the stored nodes. -/
def Agrees (tr : List (Event α w)) (m : Mem α w) : Prop :=
  ∃ t, WellFormed m t ∧ ∀ a, a ∈ t.addrs ↔ storedIn a tr

variable {tr : List (Event α w)}

omit [DecidableEq α] in
theorem agrees_init (hw : 0 < w) (hroot : m.root.prioTreeNode = none)
    (hbits : m.root.indexBits = 1) : Agrees ([] : List (Event α w)) m := by
  refine ⟨.nil, ⟨⟨hroot, trivial, by simp⟩, trivial, by simp [AllFit], ?_, ?_⟩, fun a => ?_⟩
  · rw [hbits]
  · rw [hbits]
    exact hw
  · simp [storedIn]

theorem agrees_step {e : Event α w} (h : Agrees tr m) (hstep : (system α w).step tr m e m') :
    Agrees (e :: tr) m' := by
  obtain ⟨t, H, hstored⟩ := h
  cases e with
  | fill a c =>
    obtain ⟨ha, rfl⟩ := hstep
    have hheap : ∀ e ∈ t.addrs, (m.fill a c).heap e = m.heap e := by
      intro e he
      refine if_neg ?_
      rintro rfl
      exact ha ((hstored _).mp he)
    exact ⟨t, ⟨H.holds.congr hheap, H.good, H.fits, H.bits_pos, H.bits_le⟩, hstored⟩
  | insert a r =>
    obtain ⟨ha, hrun⟩ := hstep
    obtain ⟨m1, r1, hrun1, hout⟩ := insert_outcome H ha
    obtain ⟨rfl, rfl⟩ := Prod.mk.inj (hrun.unique hrun1)
    rcases hout with ⟨hr, -, rfl⟩ | ⟨-, rfl, -, t', H', haddrs, -⟩
    · refine ⟨t, H, fun e => ?_⟩
      rw [hstored]
      refine ⟨.inr, ?_⟩
      rintro (⟨-, rfl⟩ | he)
      · exact (hstored _).mp hr
      · exact he
    · refine ⟨t', H', fun e => ?_⟩
      rw [haddrs, hstored]
      simp [storedIn, eq_comm]
  | remove a =>
    obtain ⟨ha, hrun⟩ := hstep
    obtain ⟨m1, hrun1, t', H', haddrs, -⟩ := remove_outcome H ((hstored a).mpr ha)
    obtain rfl := hrun.unique hrun1
    refine ⟨t', H', fun e => ?_⟩
    rw [haddrs, hstored]
    exact and_congr_left' ne_comm

theorem reach_agrees (hw : 0 < w) (h : (system α w).Reach tr m) : Agrees tr m := by
  refine h.invariant ?_ fun _ _ _ _ hagree hstep => agrees_step hagree hstep
  intro m hm
  exact agrees_init hw hm.1 hm.2

omit [DecidableEq α] in
/-- What the position of a node says about its interval and those of its children. -/
theorem WellFormed.at_facts (H : WellFormed m t) (h : m.At path a) :
    ∃ c i, m.heap a = some c ∧ m.index a = some i ∧ path.length ≤ m.root.indexBits + w ∧
      Follows m.root.indexBits path i ∧
      ∀ d, c.child d ≠ a → ∃ j, m.index (c.child d) = some j ∧ j.heap ≤ i.heap := by
  obtain ⟨k, l, v, r, rfl, rfl⟩ := h.exists_plug H.holds
  have hsub := H.good.sub
  refine ⟨_, _, cell (d := .left) H.holds, index (d := .left) H.holds, ?_, hsub.1, fun d hd => ?_⟩
  · cases k with
    | nil => simp
    | cons f k =>
      have := WellFormed.depth_lt H (by simp)
      simp only [length_sides, length_cons] at this ⊢
      omega
  · -- the child is a node of the tree, below `a`
    cases d with
    | left =>
      cases l with
      | nil => exact absurd rfl hd
      | node ll e u lr =>
        refine ⟨_, index (k := ⟨.left, a, v, r⟩ :: k) (d := .left) H.holds, ?_⟩
        exact (hsub.2.1 (e, u) (by simp)).heap_le
    | right =>
      cases r with
      | nil => exact absurd rfl hd
      | node rl e u rr =>
        refine ⟨_, index (k := ⟨.right, a, v, l⟩ :: k) (d := .left) H.holds, ?_⟩
        exact (hsub.2.2.1 (e, u) (by simp)).heap_le

omit [DecidableEq α] in
theorem WellFormed.index_inj {e : α} (H : WellFormed m t) (ha : a ∈ t.addrs) (he : e ∈ t.addrs)
    (heq : m.index a = m.index e) : a = e := by
  obtain ⟨v, hv⟩ := exists_item ha
  obtain ⟨u, hu⟩ := exists_item he
  rw [index_of_mem H.holds hv, index_of_mem H.holds hu] at heq
  exact congrArg Prod.fst (inj_on_of_nodup_map H.good.nodup hv hu (Option.some.inj heq))

/-- **The representation invariant.**  In every state a run reaches:

* the nodes reached from the root are the stored ones;
* a node agrees with its path on the leading bits of its start and then of its size, and its
  interval ends no earlier than those of its children;
* no two stored nodes hold the same interval;
* an insertion returns; it answers with the stored node of the same interval and changes
  nothing if there is one, and else it adds exactly the given node;
* the removal of a stored node returns and takes out exactly this node.

A call that ran into the `BUG()` of `prio_tree_insert` would not return. -/
theorem prioTree_invariant (hw : 0 < w) (h : (system α w).Reach tr m) :
    (∀ a, storedIn a tr ↔ ∃ path, m.At path a) ∧
    (∀ path a, m.At path a → ∃ c i, m.heap a = some c ∧ m.index a = some i ∧
      path.length ≤ m.root.indexBits + w ∧ Follows m.root.indexBits path i ∧
      ∀ d, c.child d ≠ a → ∃ j, m.index (c.child d) = some j ∧ j.heap ≤ i.heap) ∧
    (∀ a e, storedIn a tr → storedIn e tr → m.index a = m.index e → a = e) ∧
    (∀ a, Insertable m a → ∃ m' r,
      Returns (fun turns => prioTreeInsert turns m a) (m', r) ∧
      (system α w).Reach (.insert a r :: tr) m' ∧
      ((∃ e, storedIn e tr ∧ m.index e = m.index a) →
        storedIn r tr ∧ m.index r = m.index a ∧ m' = m) ∧
      ((∀ e, storedIn e tr → m.index e ≠ m.index a) → r = a ∧
        ∀ e, (∃ path, m'.At path e) ↔ e = a ∨ ∃ path, m.At path e) ∧
      ∀ e, (∃ path, m'.At path e) → m'.index e = m.index e) ∧
    (∀ a, storedIn a tr → ∃ m', Returns (fun turns => prioTreeRemove turns m a) m' ∧
      (system α w).Reach (.remove a :: tr) m' ∧
      (∀ e, (∃ path, m'.At path e) ↔ e ≠ a ∧ ∃ path, m.At path e) ∧
      ∀ e, (∃ path, m'.At path e) → m'.index e = m.index e) := by
  obtain ⟨t, H, hstored⟩ := reach_agrees hw h
  refine ⟨fun a => ?_, fun path a ha => H.at_facts ha, fun a e ha he heq => ?_, fun a ha => ?_,
    fun a ha => ?_⟩
  · rw [exists_at_iff H.holds, hstored]
  · exact H.index_inj ((hstored a).mpr ha) ((hstored e).mpr he) heq
  · obtain ⟨m', r, hrun, hout⟩ := insert_outcome H ha
    refine ⟨m', r, hrun, .step h ⟨ha, hrun⟩, ?_⟩
    rcases hout with ⟨hr, heq, rfl⟩ | ⟨hnew, rfl, -, t', H', haddrs, hindex⟩
    · refine ⟨fun _ => ⟨(hstored r).mp hr, heq, rfl⟩, fun hnone => ?_, fun _ _ => rfl⟩
      exact absurd heq (hnone r ((hstored r).mp hr))
    · refine ⟨?_, fun _ => ⟨rfl, fun e => ?_⟩, fun e he => ?_⟩
      · rintro ⟨e, he, heq⟩
        exact absurd heq (hnew e ((hstored e).mpr he))
      · rw [exists_at_iff H'.holds, exists_at_iff H.holds, haddrs]
      · exact hindex e ((exists_at_iff H'.holds).mp he)
  · obtain ⟨m', hrun, t', H', haddrs, hindex⟩ := remove_outcome H ((hstored a).mpr ha)
    refine ⟨m', hrun, .step h ⟨ha, hrun⟩, fun e => ?_, fun e he => ?_⟩
    · rw [exists_at_iff H'.holds, exists_at_iff H.holds, haddrs]
    · exact hindex e ((exists_at_iff H'.holds).mp he)

/-- A run that goes on with the insertion of a new interval. -/
theorem reach_insert (hw : 0 < w) (hreach : (system α w).Reach tr m) (ha : Insertable m a)
    (hnew : ∀ e, storedIn e tr → m.index e ≠ m.index a) :
    ∃ m', (system α w).Reach (.insert a a :: tr) m' ∧ m'.root.raw = m.root.raw ∧
      ∀ e, e = a ∨ storedIn e tr → m'.index e = m.index e := by
  obtain ⟨t, H, hstored⟩ := reach_agrees hw hreach
  obtain ⟨m', r, hrun, ⟨hr, heq, -⟩ | ⟨-, rfl, hraw, t', -, haddrs, hindex⟩⟩ := insert_outcome H ha
  · exact absurd heq (hnew r ((hstored r).mp hr))
  · refine ⟨m', .step hreach ⟨ha, hrun⟩, hraw, fun e he => hindex e ((haddrs e).mpr ?_)⟩
    rwa [hstored]

/-- A tree of `unsigned long` intervals in memory without nodes. -/
def emptyTree32 : Mem ℕ 32 := ⟨fun _ => none, ⟨none, 1, false⟩⟩

/-- A node with the interval from 3 to 7. -/
def cell3to7 : Cell ℕ (Entry 32) := ⟨0, 0, 0, ⟨3, 7, 0, 0, 0⟩⟩

/-- A node with the interval from 20 to 30. -/
def cell20to30 : Cell ℕ (Entry 32) := ⟨1, 1, 1, ⟨20, 30, 0, 0, 0⟩⟩

/-- A run that stores the first interval and then fills in the second node. -/
theorem exists_reach_fill : ∃ m,
    (system ℕ 32).Reach [.fill 1 cell20to30, .insert 0 0, .fill 0 cell3to7] m ∧
    m.index 0 = some ⟨3, 7⟩ ∧ m.index 1 = some ⟨20, 30⟩ := by
  have hfill : (system ℕ 32).Reach [.fill 0 cell3to7] (emptyTree32.fill 0 cell3to7) :=
    .step (.init ⟨rfl, rfl⟩) ⟨fun h => h, rfl⟩
  obtain ⟨m, hreach, hraw, hindex⟩ := reach_insert (by decide) hfill (a := 0) ⟨⟨3, 7⟩, rfl,
    by decide⟩
    fun e he => absurd he (by simp [storedIn])
  -- the second node is read as its cell says, since the kind of the tree has not changed
  refine ⟨m.fill 1 cell20to30, .step hreach ⟨by simp [storedIn], rfl⟩, hindex 0 (.inl rfl), ?_⟩
  simp [Mem.index, Mem.fill, hraw, emptyTree32, cell20to30, getIndex]

theorem index_ne_of_storedIn {m : Mem ℕ 32} (h0 : m.index 0 = some ⟨3, 7⟩)
    (h1 : m.index 1 = some ⟨20, 30⟩) (e : ℕ)
    (he : storedIn e [.fill 1 cell20to30, .insert 0 0, .fill 0 cell3to7]) :
    m.index e ≠ m.index 1 := by
  obtain rfl : 0 = e := by simpa [storedIn] using he
  simp [h0, h1]

/-- The second insertion adds its node to the tree. -/
theorem prioTree_invariant_insert :
    ∃ m, (system ℕ 32).Reach
        [.insert 1 1, .fill 1 cell20to30, .insert 0 0, .fill 0 cell3to7] m ∧
      (∃ path, m.At path 0) ∧ ∃ path, m.At path 1 := by
  obtain ⟨m, hreach, h0, h1⟩ := exists_reach_fill
  have hinv := prioTree_invariant (by decide) hreach
  obtain ⟨m', r, -, hreach', -, hnew, -⟩ := hinv.2.2.2.1 1 ⟨_, h1, by decide⟩
  obtain ⟨rfl, hadded⟩ := hnew (index_ne_of_storedIn h0 h1)
  exact ⟨m', hreach', (hadded 0).mpr (.inr ((hinv.1 0).mp (.inl ⟨rfl, rfl⟩))),
    (hadded 1).mpr (.inl rfl)⟩

/-! ## Queries -/

omit [DecidableEq α] in
/-- Two intervals that are not empty have a common element iff each starts before the other
one ends. -/
theorem touches_iff {q i : Index w} (hq : q.radix ≤ q.heap) (hi : i.radix ≤ i.heap) :
    Touches q i ↔ ∃ x, (q.radix ≤ x ∧ x ≤ q.heap) ∧ i.radix ≤ x ∧ x ≤ i.heap := by
  simp only [BitVec.le_def] at *
  constructor
  · rintro ⟨h1, h2⟩
    -- the larger of the two starts
    rcases Nat.le_total q.radix.toNat i.radix.toNat with hle | hle
    · exact ⟨i.radix, ⟨hle, h1⟩, le_rfl, hi⟩
    · exact ⟨q.radix, ⟨le_rfl, hq⟩, hle, h2⟩
  · rintro ⟨x, ⟨h1, h2⟩, h3, h4⟩
    exact ⟨h3.trans h2, h1.trans h4⟩

/-- **Queries are complete and exact.**  In every state a run reaches, and for every query
interval, calling `prio_tree_next` from a fresh iterator until it returns NULL ends and
reports every stored node with an overlapping interval once, and nothing else. -/
theorem prioTree_query_exact (hw : 0 < w) (hreach : (system α w).Reach tr m)
    (iter : PrioTreeIter α w) {r h : BitVec w} (hrh : r ≤ h) :
    ∃ out : List α, out.Nodup ∧
      (∀ a, a ∈ out ↔ storedIn a tr ∧ ∃ i, m.index a = some i ∧
        ∃ x, (r ≤ x ∧ x ≤ h) ∧ i.radix ≤ x ∧ x ≤ i.heap) ∧
      ∃ enough, ∀ turns calls, enough ≤ turns → enough ≤ calls →
        collect turns calls m (prioTreeIterInit iter r h) = some out := by
  obtain ⟨t, H, hstored⟩ := reach_agrees hw hreach
  refine ⟨hits (getIndex m.root.raw) ⟨r, h⟩ t, nodup_hits _ _ H.holds.nodup, fun a => ?_,
    3 * t.addrs.length + 1, fun turns calls hturns hcalls => ?_⟩
  · rw [mem_hits, ← hstored]
    constructor
    · rintro ⟨v, hv, htouch⟩
      exact ⟨LinkedTree.mem_addrs_of_mem_items hv, _, index_of_mem H.holds hv,
        (touches_iff hrh (H.fits (a, v) hv).1).mp htouch⟩
    · rintro ⟨ha, i, hi, hx⟩
      obtain ⟨v, hv⟩ := exists_item ha
      obtain rfl := Option.some.inj ((index_of_mem H.holds hv).symm.trans hi)
      exact ⟨v, hv, (touches_iff hrh (H.fits (a, v) hv).1).mpr hx⟩
  · exact collect_spec (q := ⟨r, h⟩) H iter (by omega) (by omega)

/-- A query from 5 to 9 reports the node with the interval from 3 to 7, and not the one with
the interval from 20 to 30. -/
theorem prioTree_query_exact_5to9 :
    ∃ m, (system ℕ 32).Reach
        [.insert 1 1, .fill 1 cell20to30, .insert 0 0, .fill 0 cell3to7] m ∧
      ∃ out, 0 ∈ out ∧ 1 ∉ out ∧ ∃ enough, ∀ turns calls, enough ≤ turns → enough ≤ calls →
        collect turns calls m (prioTreeIterInit ⟨none, 0, 0, 0, 0, 0⟩ 5 9) = some out := by
  obtain ⟨m, hreach, h0, h1⟩ := exists_reach_fill
  obtain ⟨m', hreach', -, hindex⟩ := reach_insert (by decide) hreach ⟨_, h1, by decide⟩
    (index_ne_of_storedIn h0 h1)
  obtain ⟨out, -, hmem, hcollect⟩ := prioTree_query_exact (by decide) hreach'
    ⟨none, 0, 0, 0, 0, 0⟩ (r := 5) (h := 9) (by decide)
  refine ⟨m', hreach', out, (hmem 0).mpr ⟨.inr (.inl ⟨rfl, rfl⟩), ⟨3, 7⟩, ?_, 6, by decide⟩, ?_,
    hcollect⟩
  · rw [hindex 0 (.inr (.inl ⟨rfl, rfl⟩)), h0]
  · intro hout
    obtain ⟨-, i, hi, x, ⟨-, hx⟩, hx', -⟩ := (hmem 1).mp hout
    rw [hindex 1 (.inl rfl), h1] at hi
    cases hi
    exact absurd (BitVec.le_trans hx' hx) (by decide)

end Gp2xKernel.PrioTree
