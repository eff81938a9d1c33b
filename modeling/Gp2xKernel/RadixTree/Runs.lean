import Gp2xKernel.Library.Run
import Gp2xKernel.RadixTree.Delete

/-!
# Runs of the radix tree

What the tree is for is said from the outside, by the history of calls and
answers alone: an index holds the item of its last successful insertion unless it
was deleted since, and carries a tag iff the tag was set since and not cleared.
Every run of the model, whatever the allocator does, agrees with that reading.

## Main definitions

* `State`, `Op`, `Result`, `step`, `system`: the tree as a system
* `itemOf`, `taggedOf`: the reading of a history
* `NodeAt`: the nodes of a tree and the indices below them

## Main results

* `radixTree_refines_map`: the tree is a finite map, its nodes are in order and
  no `BUG_ON` fires
* `radixTree_tags_exact`: every tag bit says what it summarises
* `radixTreeNextHole_lowest`: the scan for a hole
-/

namespace Gp2xKernel.RadixTree

open Library Nat

variable {c : Config} {α : Type}

/-! ## The system -/

/-- A tree and the nodes in the slab. -/
structure State (c : Config) (α : Type) where
  root : Root c α
  freed : List (Node c α)

/-- A call.  An insertion comes with what the allocator will do while it runs. -/
inductive Op (c : Config) (α : Type)
  | insert (index : c.Index) (item : α) (allocs : List AllocChoice)
  | delete (index : c.Index)
  | tagSet (index : c.Index) (tag : Tag)
  | tagClear (index : c.Index) (tag : Tag)

/-- What a call returns: an error number or a pointer. -/
inductive Result (α : Type)
  | status (s : Status)
  | ptr (p : Option α)

/-- One call. -/
def step (s : State c α) : Op c α → Except Fault (Result α × State c α)
  | .insert index item allocs => do
    let (status, root, m) ← radixTreeInsert s.root index item ⟨s.freed, allocs⟩
    pure (.status status, ⟨root, m.freed⟩)
  | .delete index => do
    let (item, root, freed) ← radixTreeDelete s.root index s.freed
    pure (.ptr item, ⟨root, freed⟩)
  | .tagSet index tag => do
    let (item, root) ← radixTreeTagSet s.root index tag
    pure (.ptr item, ⟨root, s.freed⟩)
  | .tagClear index tag => do
    let (item, root) ← radixTreeTagClear s.root index tag
    pure (.ptr item, ⟨root, s.freed⟩)

/-- A call with its answer. -/
abbrev Event (c : Config) (α : Type) : Type := Op c α × Result α

/-- The item of the last successful insertion at `i` that no deletion followed. -/
def itemOf (i : c.Index) : List (Event c α) → Option α
  | [] => none
  | (.insert j x _, .status .ok) :: tr => if j = i then some x else itemOf i tr
  | (.delete j, _) :: tr => if j = i then none else itemOf i tr
  | _ :: tr => itemOf i tr

/-- Tag `t` was set on `i` since its last insertion and not cleared since. -/
def taggedOf (i : c.Index) (t : Tag) : List (Event c α) → Bool
  | [] => false
  | (.insert j _ _, .status .ok) :: tr => if j = i then false else taggedOf i t tr
  | (.delete j, _) :: tr => if j = i then false else taggedOf i t tr
  | (.tagSet j t', _) :: tr => if j = i ∧ t' = t then true else taggedOf i t tr
  | (.tagClear j t', _) :: tr => if j = i ∧ t' = t then false else taggedOf i t tr
  | _ :: tr => taggedOf i t tr

/-- What the callers promise: a tag is set on a present index only. -/
def Legal (tr : List (Event c α)) : Op c α → Prop
  | .tagSet i _ => itemOf i tr ≠ none
  | _ => True

/-- The tree as a system.  It starts empty, with no tag bit in the mask, beside a
slab that other trees may have filled with blank nodes. -/
def system (c : Config) (α : Type) : System (State c α) (Event c α) where
  init s := AllBlank s.freed ∧ ∃ mask, mask &&& gfpBitsMask = mask ∧ s.root = radixTreeInit mask
  step tr s e s' := Legal tr e.1 ∧ step s e.1 = .ok (e.2, s')

/-! ## The invariant of a run -/

/-- The tree is in order and stores what the history says. -/
structure Agrees (tr : List (Event c α)) (s : State c α) : Prop where
  inv : s.root.Inv
  blank : AllBlank s.freed
  entry : ∀ i : c.Index, s.root.entry i =
    (itemOf i tr).map fun a => (a, fun t => taggedOf i t tr)
  untagged : ∀ (i : c.Index) (t : Tag), itemOf i tr = none → taggedOf i t tr = false

variable {tr : List (Event c α)} {s : State c α} {h p : ℕ} {root : Root c α} {n : Node c α}

theorem Agrees.item (h : Agrees tr s) (i : c.Index) :
    (s.root.entry i).map Prod.fst = itemOf i tr := by
  rw [h.entry]
  cases itemOf i tr <;> rfl

theorem agrees_init (h : (system c α).init s) : Agrees [] s := by
  obtain ⟨hblank, mask, hmask, hroot⟩ := h
  have htags (t : Tag) : rootTagGet (radixTreeInit mask : Root c α) t = false := by
    have hclear := congrFun (tags_rootTagClearAll (radixTreeInit mask : Root c α)) t
    simpa [Root.tags, rootTagClearAll, radixTreeInit, hmask] using hclear
  refine ⟨hroot ▸ ⟨Nat.zero_le _, htags, fun i _ hi => absurd (Slot.entry_null i 0 _) hi⟩, hblank,
    fun i => ?_, fun _ _ _ => rfl⟩
  rw [hroot]
  exact entry_of_top_null rfl i

theorem update_eq_ite (b : Tag → Bool) (t : Tag) (v : Bool) :
    Function.update b t v = fun t' => if t = t' then v else b t' := by
  funext t'
  simp only [Function.update_apply, eq_comm]

/-- An insertion answers with a status; after it the history and the tree agree
again. -/
theorem step_insert (h : Agrees tr s) (i : c.Index) (x : α) (allocs : List AllocChoice) :
    ∃ status s', step s (.insert i x allocs) = .ok (.status status, s') ∧
      (status = .eexist ↔ itemOf i tr ≠ none) ∧
      (status ≠ .ok → ∀ j, s'.root.entry j = s.root.entry j) ∧
      Agrees ((.insert i x allocs, .status status) :: tr) s' := by
  obtain ⟨status, root', m', hrun, hm', hpost⟩ :=
    radixTreeInsert_spec (x := x) (m := ⟨s.freed, allocs⟩) h.inv i.isLt h.blank
  refine ⟨status, ⟨root', m'.freed⟩, ?_, ?_, ?_, hpost.inv, hm', ?_, ?_⟩
  · simp [step, hrun, bind, Except.bind, pure, Except.pure]
  · rw [hpost.eexist, h.entry]
    simp
  · intro hne j
    simp [hpost.entry, hne]
  · intro j
    rw [hpost.entry]
    cases status with
    | ok =>
      by_cases hj : i = j
      · subst hj
        simp [itemOf, taggedOf]
      · simp [itemOf, taggedOf, hj, Fin.val_ne_of_ne (Ne.symm hj), h.entry]
    | enomem | eexist => simp [itemOf, taggedOf, h.entry]
  · intro j t
    cases status with
    | ok =>
      by_cases hj : i = j
      · simp [itemOf, hj]
      · simpa [itemOf, taggedOf, hj] using h.untagged j t
    | enomem | eexist => simpa [itemOf, taggedOf] using h.untagged j t

theorem step_delete (h : Agrees tr s) (i : c.Index) :
    ∃ s', step s (.delete i) = .ok (.ptr (itemOf i tr), s') ∧
      Agrees ((.delete i, .ptr (itemOf i tr)) :: tr) s' := by
  obtain ⟨root', freed', hrun, hinv, hfreed, hent⟩ := radixTreeDelete_spec h.inv i.isLt h.blank
  rw [h.item] at hrun
  refine ⟨⟨root', freed'⟩, ?_, hinv, hfreed, ?_, ?_⟩
  · simp [step, hrun, bind, Except.bind, pure, Except.pure]
  · intro j
    rw [hent]
    by_cases hj : i = j
    · subst hj
      simp [itemOf]
    · simp [itemOf, taggedOf, hj, Fin.val_ne_of_ne (Ne.symm hj), h.entry]
  · intro j t
    by_cases hj : i = j
    · simp [taggedOf, hj]
    · simpa [itemOf, taggedOf, hj] using h.untagged j t

theorem step_tagSet (h : Agrees tr s) (i : c.Index) (t : Tag) (hi : itemOf i tr ≠ none) :
    ∃ s', step s (.tagSet i t) = .ok (.ptr (itemOf i tr), s') ∧
      Agrees ((.tagSet i t, .ptr (itemOf i tr)) :: tr) s' := by
  obtain ⟨a, ha⟩ := Option.ne_none_iff_exists'.mp hi
  have he : s.root.entry i = some (a, fun t => taggedOf i t tr) := by
    rw [h.entry, ha]
    rfl
  obtain ⟨root', hrun, hinv, hent⟩ := radixTreeTagSet_spec (t := t) h.inv i.isLt he
  refine ⟨⟨root', s.freed⟩, ?_, hinv, h.blank, ?_, ?_⟩
  · simp [step, hrun, ha, bind, Except.bind, pure, Except.pure]
  · intro j
    rw [hent]
    by_cases hj : i = j
    · subst hj
      simp [itemOf, taggedOf, ha, update_eq_ite]
    · simp [itemOf, taggedOf, hj, Fin.val_ne_of_ne (Ne.symm hj), h.entry]
  · intro j t'
    by_cases hj : i = j
    · subst hj
      simp [itemOf, ha]
    · simpa [itemOf, taggedOf, hj] using h.untagged j t'

theorem step_tagClear (h : Agrees tr s) (i : c.Index) (t : Tag) :
    ∃ s', step s (.tagClear i t) = .ok (.ptr (itemOf i tr), s') ∧
      Agrees ((.tagClear i t, .ptr (itemOf i tr)) :: tr) s' := by
  obtain ⟨root', hrun, hinv, -, hent⟩ := radixTreeTagClear_spec t h.inv i.isLt
  rw [h.item] at hrun
  refine ⟨⟨root', s.freed⟩, ?_, hinv, h.blank, ?_, ?_⟩
  · simp [step, hrun, bind, Except.bind, pure, Except.pure]
  · intro j
    rw [hent]
    by_cases hj : i = j
    · subst hj
      rw [h.entry]
      cases hitem : itemOf i tr <;> simp [itemOf, taggedOf, hitem, update_eq_ite]
    · simp [itemOf, taggedOf, hj, Fin.val_ne_of_ne (Ne.symm hj), h.entry]
  · intro j t' hnone
    have hold := h.untagged j t' (by simpa [itemOf] using hnone)
    simp [taggedOf, hold]

/-- Every legal call returns, and keeps history and tree in agreement. -/
theorem step_agrees (h : Agrees tr s) (op : Op c α) (hop : Legal tr op) :
    ∃ r s', step s op = .ok (r, s') ∧ Agrees ((op, r) :: tr) s' := by
  cases op with
  | insert i x allocs =>
    obtain ⟨status, s', hrun, -, -, hs'⟩ := step_insert h i x allocs
    exact ⟨_, s', hrun, hs'⟩
  | delete i =>
    obtain ⟨s', hrun, hs'⟩ := step_delete h i
    exact ⟨_, s', hrun, hs'⟩
  | tagSet i t =>
    obtain ⟨s', hrun, hs'⟩ := step_tagSet h i t hop
    exact ⟨_, s', hrun, hs'⟩
  | tagClear i t =>
    obtain ⟨s', hrun, hs'⟩ := step_tagClear h i t
    exact ⟨_, s', hrun, hs'⟩

theorem reach_agrees (h : (system c α).Reach tr s) : Agrees tr s := by
  refine h.invariant (fun s hs => agrees_init hs) ?_
  rintro tr s ⟨op, r⟩ s' hs ⟨hlegal, hrun⟩
  obtain ⟨r', s'', hrun', hs''⟩ := step_agrees hs op hlegal
  obtain ⟨rfl, rfl⟩ : r' = r ∧ s'' = s' := by
    have := hrun'.symm.trans hrun
    simpa using this
  exact hs''

/-! ## The nodes of a tree -/

/-- The nodes of a tree: `NodeAt root h p n` says that `n` is a node of `root`, at
height `h`, and that the indices below it are those `i` with
`i / span h = p`. -/
inductive NodeAt (root : Root c α) : (h p : ℕ) → Node c α → Prop
  | top {n : Node c α} : root.top = .node n → NodeAt root root.height 0 n
  | child {h p : ℕ} {n m : Node c α} {o : Fin c.mapSize} :
      NodeAt root (h + 1) p n → n.slots o = .node m → NodeAt root h (p * c.mapSize + o) m

/-- The indices below slot `o` of a node are below the node and take that slot. -/
theorem Config.div_span_cases (c : Config) {i : ℕ} {o : Fin c.mapSize}
    (hi : i / c.span h = p * c.mapSize + o) :
    i / c.span (h + 1) = p ∧ c.offset i (h + 1) = o := by
  have hsplit : i / c.span h = i / c.span (h + 1) * c.mapSize + (c.offset i (h + 1)).val :=
    div_eq_digit_add _ _ _
  obtain ⟨hp, ho⟩ :=
    eq_and_eq_of_mul_add_eq (c.offset i (h + 1)).isLt o.isLt (hsplit.symm.trans hi)
  exact ⟨hp, Fin.ext ho⟩

/-- What is known of a node of a tree in order. -/
structure NodeFacts (root : Root c α) (h p : ℕ) (n : Node c α) : Prop where
  inv : ∃ b, Slot.Inv h (.node n) b
  room : (p + 1) * c.span h ≤ c.span root.height
  entry : ∀ (i : ℕ) (b : Tag → Bool), i / c.span h = p →
    Slot.entry i h (.node n) b = Slot.entry i root.height root.top root.tags

theorem NodeAt.facts (hroot : root.Inv)
    (hn : NodeAt root h p n) : ∃ k, h = k + 1 ∧ NodeFacts root h p n := by
  induction hn with
  | @top n htop =>
    have hslot := hroot.slot
    rw [htop] at hslot
    cases hh : root.height with
    | zero =>
      rw [hh] at hslot
      exact hslot.elim
    | succ k =>
      rw [hh] at hslot
      refine ⟨k, rfl, ⟨_, hslot⟩, by rw [hh]; omega, fun i b _ => ?_⟩
      rw [hh, htop, Slot.entry_node, Slot.entry_node]
  | @child h p n m o _ hm ih =>
    obtain ⟨-, -, ⟨b, hinv⟩, hroom, hentry⟩ := ih
    have hsub := (Slot.inv_node.mp hinv).2.2.2 o
    rw [hm] at hsub
    cases h with
    | zero => exact hsub.elim
    | succ k =>
      refine ⟨k, rfl, ⟨_, hsub⟩, ?_, fun i b' hi => ?_⟩
      · -- the child's part of the indices lies inside its parent's
        calc (p * c.mapSize + o + 1) * c.span (k + 1)
            ≤ ((p + 1) * c.mapSize) * c.span (k + 1) := by
              refine mul_le_mul_right _ ?_
              rw [add_mul]
              omega
          _ = (p + 1) * c.span (k + 2) := by rw [c.span_succ (k + 1)]; ring
          _ ≤ c.span root.height := hroom
      · obtain ⟨hp, hoff⟩ := c.div_span_cases hi
        have hparent := hentry i b hp
        rw [Slot.entry_node, hoff, hm] at hparent
        rw [← hparent, Slot.entry_node, Slot.entry_node]

/-- The tag bit a node keeps for a slot, read as a statement about the indices
below that slot. -/
theorem NodeAt.tag_iff (hroot : root.Inv) (hn : NodeAt root (h + 1) p n) (t : Tag)
    (o : Fin c.mapSize) :
    n.tags t o = true ↔ ∃ i : c.Index, i.val / c.span h = p * c.mapSize + o ∧
      ∃ e, root.entry i = some e ∧ e.2 t = true := by
  obtain ⟨-, -, ⟨b, hinv⟩, hroom, hentry⟩ := hn.facts hroot
  have htag := ((Slot.inv_node.mp hinv).2.2.2 o).tag_iff t
  constructor
  · intro hbit
    obtain ⟨i, hi, e, he, het⟩ := htag.mp hbit
    -- the index with the digits of the node and of the slot in front
    have hdiv : (i + c.span h * (p * c.mapSize + o)) / c.span h = p * c.mapSize + o := by
      rw [add_mul_div_left _ _ (c.span_pos h), div_eq_of_lt hi, zero_add]
    set j := i + c.span h * (p * c.mapSize + o)
    obtain ⟨hp, hoff⟩ := c.div_span_cases hdiv
    have hjlt : j < c.span root.height := by
      have : j < (p + 1) * c.span (h + 1) := by
        rw [← div_lt_iff_lt_mul (c.span_pos (h + 1))]
        omega
      omega
    have hent : Slot.entry j root.height root.top root.tags = some e := by
      rw [← hentry j b hp, Slot.entry_node, hoff, ← he]
      exact Slot.entry_congr (add_mul_mod_self_left _ _ _) _ _
    refine ⟨⟨j, hroot.real j hjlt (by rw [hent]; simp)⟩, hdiv, e, ?_, het⟩
    rw [Root.entry, if_pos hjlt]
    exact hent
  · rintro ⟨i, hi, e, he, het⟩
    rw [Root.entry] at he
    split_ifs at he with hlt
    obtain ⟨hp, hoff⟩ := c.div_span_cases hi
    rw [← hentry i b hp, Slot.entry_node, hoff] at he
    refine htag.mpr ⟨i % c.span h, mod_lt _ (c.span_pos h), e, ?_, het⟩
    rw [← he]
    exact Slot.entry_congr (mod_mod _ _) _ _

/-! ## Main results -/

/-- What a call answers, read off the history before it: an insertion fails with
`-EEXIST` iff the index is present and then, as with `-ENOMEM`, nothing is stored
or lost; the other calls return the item of the index. -/
def Answers (tr : List (Event c α)) (s s' : State c α) : Event c α → Prop
  | (.insert i _ _, .status status) =>
    (status = .eexist ↔ itemOf i tr ≠ none) ∧
      (status ≠ .ok → ∀ j : c.Index, radixTreeLookup s'.root j = radixTreeLookup s.root j)
  | (.insert _ _ _, .ptr _) => False
  | (.delete i, r) => r = .ptr (itemOf i tr)
  | (.tagSet i _, r) => r = .ptr (itemOf i tr)
  | (.tagClear i _, r) => r = .ptr (itemOf i tr)

/-- **The radix tree is a finite map.**  In every state a run reaches, whatever
the allocator did:

* a lookup returns what the history says;
* every legal call returns without a `BUG_ON` or a bad access, answers as it
  should and leads to a state of a run again;
* every node counts its slots in use, and its children are one level lower. -/
theorem radixTree_refines_map {tr : List (Event c α)} {s : State c α}
    (h : (system c α).Reach tr s) :
    (∀ i : c.Index, radixTreeLookup s.root i = .ok (itemOf i tr)) ∧
    (∀ op, Legal tr op → ∃ r s', step s op = .ok (r, s') ∧
      (system c α).Reach ((op, r) :: tr) s' ∧ Answers tr s s' (op, r)) ∧
    ∀ height p n, NodeAt s.root height p n →
      n.count = Node.used n ∧ n.height = height ∧
        ∀ o m, n.slots o = .node m → m.height + 1 = n.height := by
  have hagree := reach_agrees h
  have hlookup (s : State c α) (hs : s.root.Inv) (i : c.Index) :
      radixTreeLookup s.root i = .ok ((s.root.entry i).map Prod.fst) :=
    radixTreeLookup_spec hs i.isLt
  refine ⟨fun i => by rw [hlookup s hagree.inv, hagree.item], ?_, ?_⟩
  · intro op hop
    cases op with
    | insert i x allocs =>
      obtain ⟨status, s', hrun, hexist, hsame, hs'⟩ := step_insert hagree i x allocs
      refine ⟨_, s', hrun, .step h ⟨hop, hrun⟩, hexist, fun hne j => ?_⟩
      rw [hlookup s' hs'.inv, hlookup s hagree.inv, hsame hne]
    | delete i =>
      obtain ⟨s', hrun, -⟩ := step_delete hagree i
      exact ⟨_, s', hrun, .step h ⟨hop, hrun⟩, rfl⟩
    | tagSet i t =>
      obtain ⟨s', hrun, -⟩ := step_tagSet hagree i t hop
      exact ⟨_, s', hrun, .step h ⟨hop, hrun⟩, rfl⟩
    | tagClear i t =>
      obtain ⟨s', hrun, -⟩ := step_tagClear hagree i t
      exact ⟨_, s', hrun, .step h ⟨hop, hrun⟩, rfl⟩
  · intro height p n hn
    obtain ⟨k, rfl, ⟨b, hinv⟩, -, -⟩ := hn.facts hagree.inv
    obtain ⟨hheight, hcount, -, hsub⟩ := Slot.inv_node.mp hinv
    refine ⟨hcount, hheight, fun o m hm => ?_⟩
    have hchild := hsub o
    rw [hm] at hchild
    cases k with
    | zero => exact hchild.elim
    | succ k => rw [hheight, (Slot.inv_node.mp hchild).1]

/-- The kernel's configuration on a 32-bit machine. -/
def config32 : Config := ⟨6, 32, by decide, by decide⟩

/-- The last index of a 32-bit word. -/
def lastIndex32 : config32.Index := ⟨2 ^ 32 - 1, by decide⟩

/-- After an insertion at the last index, with all the nodes of the path
allocated, the item is found there. -/
theorem radixTree_refines_map_insert :
    ∃ s : State config32 ℕ,
      (system config32 ℕ).Reach
        [(.insert lastIndex32 7 (List.replicate 6 .ctor), .status .ok)] s ∧
      radixTreeLookup s.root lastIndex32 = .ok (some 7) := by
  have hinit : (system config32 ℕ).Reach [] ⟨radixTreeInit 0#32, []⟩ :=
    .init ⟨by simp [AllBlank], 0#32, by decide, rfl⟩
  obtain ⟨r, s', hrun, hreach, -⟩ := (radixTree_refines_map hinit).2.1
    (.insert lastIndex32 7 (List.replicate 6 .ctor)) trivial
  obtain rfl : r = .status .ok := by
    have hstatus : (step ⟨radixTreeInit 0#32, []⟩
        (.insert lastIndex32 7 (List.replicate 6 .ctor))).map Prod.fst =
        .ok (.status .ok) := rfl
    rw [hrun] at hstatus
    simpa [Except.map] using hstatus
  exact ⟨s', hreach, (radixTree_refines_map hreach).1 lastIndex32⟩

/-- **Tag summaries are exact.**  In every state a run reaches:

* the bit a node keeps for a slot is set iff a present item below that slot
  carries the tag;
* the root's bit is set iff some present item carries it;
* an index carries a tag iff the tag was set since its last insertion and not
  cleared since;
* no bit is set for an empty slot. -/
theorem radixTree_tags_exact {tr : List (Event c α)} {s : State c α}
    (h : (system c α).Reach tr s) (t : Tag) :
    (∀ height p n, NodeAt s.root (height + 1) p n → ∀ o,
      (n.tags t o = true ↔ ∃ i : c.Index, i.val / c.span height = p * c.mapSize + o ∧
        itemOf i tr ≠ none ∧ taggedOf i t tr = true)) ∧
    (radixTreeTagged s.root t = true ↔
      ∃ i : c.Index, itemOf i tr ≠ none ∧ taggedOf i t tr = true) ∧
    (∀ i : c.Index, radixTreeTagGet s.root i t = .ok (taggedOf i t tr)) ∧
    ∀ height p n, NodeAt s.root height p n → ∀ o, n.slots o = .null → n.tags t o = false := by
  have hagree := reach_agrees h
  have hcarry (i : c.Index) : (∃ e, s.root.entry i = some e ∧ e.2 t = true) ↔
      itemOf i tr ≠ none ∧ taggedOf i t tr = true := by
    rw [hagree.entry]
    cases itemOf i tr <;> simp
  refine ⟨?_, ?_, ?_, ?_⟩
  · intro height p n hn o
    rw [hn.tag_iff hagree.inv t o]
    exact exists_congr fun i => and_congr_right fun _ => hcarry i
  · have htop : radixTreeTagged s.root t = s.root.tags t := rfl
    rw [htop, hagree.inv.slot.tag_iff t]
    constructor
    · rintro ⟨i, hi, e, he, het⟩
      have hreal := hagree.inv.real i hi (by rw [he]; simp)
      refine ⟨⟨i, hreal⟩, (hcarry ⟨i, hreal⟩).mp ⟨e, ?_, het⟩⟩
      rw [Root.entry, if_pos hi]
      exact he
    · rintro ⟨i, hi⟩
      obtain ⟨e, he, het⟩ := (hcarry i).mpr hi
      rw [Root.entry] at he
      split_ifs at he with hlt
      exact ⟨i, hlt, e, he, het⟩
  · intro i
    rw [radixTreeTagGet_spec t hagree.inv i.isLt, hagree.entry]
    cases hitem : itemOf i tr with
    | none => simp [hagree.untagged i t hitem]
    | some a => simp
  · intro height p n hn o ho
    obtain ⟨k, rfl, ⟨b, hinv⟩, -, -⟩ := hn.facts hagree.inv
    have hsub := (Slot.inv_node.mp hinv).2.2.2 o
    rw [ho, Slot.inv_null] at hsub
    exact hsub t

/-- A run that inserts an item at 70, in a tree of two levels. -/
theorem exists_reach_insert : ∃ s : State config32 ℕ,
    (system config32 ℕ).Reach [(.insert 70 7 [.ctor, .ctor], .status .ok)] s := by
  have hinit : (system config32 ℕ).Reach [] ⟨radixTreeInit 0#32, []⟩ :=
    .init ⟨by simp [AllBlank], 0#32, by decide, rfl⟩
  obtain ⟨r, s, hrun, -⟩ := step_agrees (reach_agrees hinit) (.insert 70 7 [.ctor, .ctor]) trivial
  obtain rfl : r = .status .ok := by
    have hstatus : (step ⟨radixTreeInit 0#32, []⟩
        (.insert (70 : config32.Index) 7 [.ctor, .ctor])).map Prod.fst =
        .ok (.status .ok) := rfl
    rw [hrun] at hstatus
    simpa [Except.map] using hstatus
  exact ⟨s, .step hinit ⟨trivial, hrun⟩⟩

/-- After an insertion at 70 and a tag on it, the root's bit is set. -/
theorem radixTree_tags_exact_tagSet :
    ∃ s : State config32 ℕ, ∃ r r',
      (system config32 ℕ).Reach
        [(.tagSet 70 1, r'), (.insert 70 7 [.ctor, .ctor], r)] s ∧
      radixTreeTagged s.root 1 = true := by
  obtain ⟨s1, hreach1⟩ := exists_reach_insert
  have hlegal : Legal [(.insert (70 : config32.Index) 7 [.ctor, .ctor], .status .ok)]
      (.tagSet 70 1) := by simp [Legal, itemOf]
  obtain ⟨r', s2, hrun2, -⟩ := step_agrees (reach_agrees hreach1) (.tagSet 70 1) hlegal
  have hreach2 : (system config32 ℕ).Reach
      [(.tagSet 70 1, r'), (.insert 70 7 [.ctor, .ctor], .status .ok)] s2 :=
    .step hreach1 ⟨hlegal, hrun2⟩
  refine ⟨s2, _, _, hreach2, ((radixTree_tags_exact hreach2 1).2.1).mpr ⟨70, ?_, ?_⟩⟩
  · simp [itemOf]
  · simp [taggedOf]

/-- **The scan for a hole** passes over `n` indices in use, and stops at a hole, at the end of its
range or, with the answer 0, behind the last index. -/
theorem radixTreeNextHole_lowest (h : (system c α).Reach tr s) (i : c.Index) (maxScan : ℕ) :
    ∃ n ≤ maxScan, i + n ≤ 2 ^ c.indexBits ∧
      radixTreeNextHole s.root i maxScan = .ok ((i + n) % 2 ^ c.indexBits) ∧
      (∀ j : c.Index, i ≤ j → j.val < i + n → itemOf j tr ≠ none) ∧
      (n = maxScan ∨ i + n = 2 ^ c.indexBits ∨
        ∃ j : c.Index, j.val = i + n ∧ itemOf j tr = none) := by
  have hagree := reach_agrees h
  induction maxScan generalizing i with
  | zero =>
    refine ⟨0, le_rfl, i.isLt.le, ?_, fun j hle hlt => absurd hle (not_le.mpr hlt), .inl rfl⟩
    exact congrArg _ (Nat.mod_eq_of_lt i.isLt).symm
  | succ maxScan ih =>
    rw [radixTreeNextHole, radixTreeLookup_spec hagree.inv i.isLt, hagree.item]
    cases hitem : itemOf i tr with
    | none =>
      refine ⟨0, Nat.zero_le _, i.isLt.le, ?_, fun j hle hlt => absurd hle (not_le.mpr hlt),
        .inr (.inr ⟨i, rfl, hitem⟩)⟩
      exact congrArg _ (Nat.mod_eq_of_lt i.isLt).symm
    | some x =>
      -- the index itself is in use, and the others are those that the rest of the scan passes over
      have hsplit {n : ℕ}
          (hrest : ∀ j : c.Index, i + 1 ≤ j.val → j.val < i + n → itemOf j tr ≠ none) (j : c.Index)
          (hle : i ≤ j) (hlt : j.val < i + n) : itemOf j tr ≠ none := by
        rcases hle.eq_or_lt with rfl | hlt'
        · simp [hitem]
        · exact hrest j hlt' hlt
      rcases eq_or_lt_of_le (show i.val + 1 ≤ 2 ^ c.indexBits from i.isLt) with hlast | hnext
      · refine ⟨1, Nat.le_add_left .., hlast.le, ?_, hsplit fun j hle hlt => by omega,
          .inr (.inl hlast)⟩
        simp [hlast, bind, Except.bind, pure, Except.pure]
      · obtain ⟨n, hn, hle, hrun, hfull, hstop⟩ := ih ⟨i + 1, hnext⟩
        simp only [Nat.add_right_comm] at hle hrun hfull hstop
        refine ⟨n + 1, Nat.succ_le_succ hn, hle, ?_, hsplit hfull, ?_⟩
        · simp [Nat.mod_eq_of_lt hnext, bind, Except.bind, hrun, ← add_assoc]
        · rwa [Nat.succ_inj]

/-- After an insertion at 70, a scan from there passes over 70 and stops at 71. -/
theorem radixTreeNextHole_lowest_insert :
    ∃ s : State config32 ℕ,
      (system config32 ℕ).Reach [(.insert 70 7 [.ctor, .ctor], .status .ok)] s ∧
      radixTreeNextHole s.root 70 5 = .ok 71 := by
  obtain ⟨s, hreach⟩ := exists_reach_insert
  obtain ⟨n, hn, -, hrun, hfull, hstop⟩ := radixTreeNextHole_lowest hreach 70 5
  change ∀ j : config32.Index, 70 ≤ j → j.val < 70 + n → _ at hfull
  -- 70 is no hole, and 71 is
  have hpos : n ≠ 0 := by
    rintro rfl
    obtain hstop | hstop | ⟨j, hj, hitem⟩ := hstop
    · cases hstop
    · cases hstop
    · obtain rfl : j = 70 := Fin.ext hj
      simp [itemOf] at hitem
  have hle : n ≤ 1 := by
    by_contra hgt
    exact hfull 71 (by decide) (show 71 < 70 + n by omega) (by simp [itemOf])
  obtain rfl : n = 1 := by omega
  exact ⟨s, hreach, hrun⟩

end Gp2xKernel.RadixTree
