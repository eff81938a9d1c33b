import Gp2xKernel.RadixTree.Tags

/-!
# Deletion from the radix tree

`radix_tree_delete` clears the tags of the item, empties its slot, frees the
chain of nodes that have become empty and lets `radix_tree_shrink` take levels
off the top.  Every node that goes back to the slab is blank.

## Main results

* `shrinkLoop_spec`: shrinking stores the same items
* `deleteLoop_spec`: the freeing loop
* `radixTreeDelete_spec`: deletion
-/

namespace Gp2xKernel.RadixTree

open Function Slot

variable {c : Config} {α : Type}

/-! ## Shrinking -/

variable {h i : ℕ} {n : Node c α} {b tg : Tag → Bool} {root : Root c α} {freed : List (Node c α)}
  {s : Slot c α} {a : α}

/-- A node of count 1 whose slot 0 is in use has no other slot in use. -/
theorem Slot.Inv.only_zero (hn : Slot.Inv (h + 1) (.node n) b) (hcount : n.count = 1)
    (hzero : (n.slots c.slotZero).isNull = false) (o : Fin c.mapSize) (ho : o ≠ c.slotZero) :
    n.slots o = .null := by
  obtain ⟨-, hused, -, -⟩ := inv_node.mp hn
  rw [hcount] at hused
  obtain ⟨p, hp⟩ := Finset.card_eq_one.mp hused.symm
  have hmem (q : Fin c.mapSize) (hq : (n.slots q).isNull = false) : q = p := by
    have : q ∈ ({p} : Finset _) := by
      rw [← hp]
      simpa using hq
    simpa using this
  cases hnull : (n.slots o).isNull with
  | true => exact isNull_iff.mp hnull
  | false => exact absurd ((hmem o hnull).trans (hmem _ hzero).symm) ho

/-- The node taken off the top has been zeroed. -/
theorem shrink_blank (hn : Slot.Inv (h + 1) (.node n) b)
    (hnull : ∀ o, o ≠ c.slotZero → n.slots o = .null) :
    Node.Blank ({ tagClear (tagClear n 0 c.slotZero) 1 c.slotZero with
      slots := update n.slots c.slotZero .null, count := 0 } : Node c α) := by
  refine ⟨rfl, fun o => ?_, fun t o => ?_⟩
  · by_cases ho : o = c.slotZero
    · subst ho
      exact update_self c.slotZero _ n.slots
    · exact (update_of_ne ho _ n.slots).trans (hnull o ho)
  · rw [tagClear_tags, tagClear_tags]
    by_cases ho : o = c.slotZero
    · fin_cases t <;> simp [ho]
    · simp [ho, hn.tags_of_null (hnull o ho) t]

/-- One level taken off the top: slot 0 becomes the top. -/
theorem shrink_step {root' : Root c α} (hroot : root.Inv) (hh : root.height = h + 1)
    (htop : root.top = .node n) (hcount : n.count = 1) (hzero : (n.slots c.slotZero).isNull = false)
    (hh' : root'.height = h) (htop' : root'.top = n.slots c.slotZero)
    (htags' : root'.tags = root.tags) :
    root'.Inv ∧ ∀ i, root'.entry i = root.entry i := by
  have hslot := hroot.slot
  rw [hh, htop] at hslot
  obtain ⟨-, -, htag, hsub⟩ := inv_node.mp hslot
  have hnull := hslot.only_zero hcount hzero
  -- slot 0 carries all of the root's tags, the other slots being empty
  have hat : Node.tagsAt n c.slotZero = root.tags := by
    funext t
    rw [Bool.eq_iff_iff, htag t]
    refine ⟨fun ht => ⟨_, ht⟩, ?_⟩
    rintro ⟨o, ho⟩
    by_cases hoz : o = c.slotZero
    · rw [← hoz]
      exact ho
    · rw [hslot.tags_of_null (hnull o hoz)] at ho
      exact absurd ho (by simp)
  have hall (i : ℕ) : root'.entry i = root.entry i := by
    unfold Root.entry
    rw [hh', htop', htags', hh, htop, entry_node]
    by_cases hi : i < c.span h
    · rw [if_pos hi, if_pos (hi.trans_le (c.span_mono (Nat.le_succ h))),
        c.offset_eq_slotZero hi, hat]
    · split_ifs with hi'
      · rw [hnull _ fun ho => hi (c.lt_span_of_offset hi' ho), entry_null]
      · rfl
  refine ⟨⟨?_, ?_, ?_⟩, hall⟩
  · have := hroot.height_le
    omega
  · rw [hh', htop', htags', ← hat]
    exact hsub c.slotZero
  · intro i hi hent
    have hsame := hall i
    rw [Root.entry, if_pos hi, Root.entry] at hsame
    rw [hh'] at hi
    rw [hsame, if_pos (by rw [hh]; exact hi.trans_le (c.span_mono (Nat.le_succ h)))] at hent
    exact hroot.real i (by rw [hh]; exact hi.trans_le (c.span_mono (Nat.le_succ h))) hent

/-- `radix_tree_shrink` stores the same items and frees blank nodes; its
`BUG_ON` stays silent as long as the tree has a top. -/
theorem shrinkLoop_spec (hroot : root.Inv) (hh : root.height = h) (hne : root.top.isNull = false)
    (hfreed : AllBlank freed) :
    ∃ root' freed', shrinkLoop h root freed = .ok (root', freed') ∧ root'.Inv ∧
      AllBlank freed' ∧ ∀ i, root'.entry i = root.entry i := by
  induction h generalizing root freed with
  | zero => exact ⟨root, freed, rfl, hroot, hfreed, fun _ => rfl⟩
  | succ h ih =>
    obtain ⟨n, hr, htop, hslot⟩ : ∃ n, root.rnode = .indirect n ∧ root.top = .node n ∧
        Slot.Inv (h + 1) (.node n) root.tags := by
      rcases hroot.cases with ⟨-, htop⟩ | ⟨a, -, -, h0⟩ | ⟨n, k, hr, htop, hk, hslot⟩
      · rw [htop] at hne
        cases hne
      · omega
      · exact ⟨n, hr, htop, hk.symm.trans hh ▸ hslot⟩
    unfold shrinkLoop
    simp only [hr]
    by_cases hcount : n.count = 1
    · rw [if_neg (by simp [hcount])]
      cases hzero : (n.slots c.slotZero).isNull with
      | true => exact ⟨root, freed, by simp, hroot, hfreed, fun _ => rfl⟩
      | false =>
        have hnew : Root.top { root with
            rnode := (n.slots c.slotZero).toRnode, height := h } = n.slots c.slotZero :=
          radixTreeIndirectToPtr_toRnode _
        obtain ⟨hinv, hent⟩ := shrink_step hroot hh htop hcount hzero rfl hnew rfl
        have hblank : AllBlank ({ tagClear (tagClear n 0 c.slotZero) 1 c.slotZero with
            slots := update n.slots c.slotZero .null, count := 0 } :: freed) := by
          exact List.forall_mem_cons.mpr ⟨shrink_blank hslot (hslot.only_zero hcount hzero), hfreed⟩
        obtain ⟨root', freed', hrun, hinv', hfreed', hent'⟩ :=
          ih hinv rfl (by rw [hnew]; exact hzero) hblank
        refine ⟨root', freed', ?_, hinv', hfreed', fun i => (hent' i).trans (hent i)⟩
        exact hrun
    · rw [if_pos hcount]
      exact ⟨root, freed, rfl, hroot, hfreed, fun _ => rfl⟩

/-! ## The freeing loop -/

/-- What taking index `i` out leaves below a slot. -/
structure DeletePost (i h : ℕ) (b : Tag → Bool) (s s' : Slot c α) (freed : List (Node c α)) :
    Prop where
  inv : Slot.Inv h s' b
  blank : AllBlank freed
  updates : Slot.Updates i none h s b s' b

/-- The freeing loop of `radix_tree_delete`, for a stored index whose tags have
been cleared. -/
theorem deleteLoop_spec (hs : Slot.Inv h s b) (he : entry i h s b = some (a, fun _ => false)) :
    ∃ s' freed here, deleteLoop i h s = .ok (s', freed, here) ∧ DeletePost i h b s s' freed := by
  induction h generalizing s b with
  | zero =>
    rcases hs.cases_zero with rfl | ⟨a', rfl⟩
    · simp at he
    · obtain ⟨rfl, rfl⟩ : a' = a ∧ b = fun _ => false := by simpa using he
      refine ⟨.null, [], true, rfl, fun _ => rfl, by simp [AllBlank], fun j => ?_⟩
      simp [Nat.mod_one]
  | succ h ih =>
    rcases hs.cases_succ with rfl | ⟨n, rfl⟩
    · simp at he
    obtain ⟨hheight, hcount, htag, hsub⟩ := inv_node.mp hs
    rw [entry_node] at he
    obtain ⟨child, freed, here, hrun, hpost⟩ := ih (hsub (c.offset i (h + 1))) he
    have hcard := card_used_update n.slots (c.offset i (h + 1)) child
    rw [isNull_of_entry he, if_neg (by simp)] at hcard
    generalize hslots : update n.slots (c.offset i (h + 1)) child = slots at hcard
    -- the node with the child put back, whatever its count
    have hput (k : ℕ) (hk : k = Node.used { n with slots }) :
        Slot.Inv (h + 1) (.node { n with slots, count := k }) b ∧
          Slot.Updates i none (h + 1) (.node n) b (.node { n with slots, count := k }) b :=
      hs.put rfl hslots.symm (fun _ _ => rfl) hk htag hpost.inv hpost.updates
    cases hnull : child.isNull with
    | false =>
      -- the loop has stopped below
      rw [hnull, if_neg (by simp)] at hcard
      obtain ⟨hinv, hup⟩ := hput n.count (by
        rw [hcount, Node.used, Node.used]
        simp only
        omega)
      refine ⟨.node { n with slots }, freed, false, ?_, hinv, hpost.blank, hup⟩
      simp [deleteLoop, hrun, hnull, hslots, bind, Except.bind, pure, Except.pure]
    | true =>
      rw [hnull, if_pos rfl] at hcard
      have hused : n.count - 1 = Node.used { n with slots } := by
        rw [hcount, Node.used, Node.used]
        simp only
        omega
      obtain ⟨hinv, hup⟩ := hput _ hused
      by_cases hzero : n.count - 1 = 0
      · -- the node is empty now: it is freed, and it is blank
        have hempty (o : Fin c.mapSize) : slots o = .null := by
          have hzero' := hused.symm.trans hzero
          rw [Node.used, Finset.card_eq_zero, Finset.filter_eq_empty_iff] at hzero'
          have := hzero' (Finset.mem_univ o)
          rw [← isNull_iff]
          simpa using this
        have htags (t : Tag) (o : Fin c.mapSize) : n.tags t o = false :=
          hinv.tags_of_null (hempty o) t
        refine ⟨.null, { n with slots, count := 0 } :: freed, true, ?_, ?_, ?_, fun j => ?_⟩
        · simp [deleteLoop, hrun, hnull, hzero, hslots, bind, Except.bind, pure, Except.pure]
        · refine inv_null.mpr fun t => ?_
          cases hb : b t with
          | false => rfl
          | true =>
            obtain ⟨o, ho⟩ := (htag t).mp hb
            rw [htags t o] at ho
            exact absurd ho (by simp)
        · exact List.forall_mem_cons.mpr ⟨⟨rfl, hempty, htags⟩, hpost.blank⟩
        · have hj : entry j h (slots _) _ = _ := hup j
          rw [hempty, entry_null] at hj
          exact hj
      · refine ⟨.node { n with slots, count := n.count - 1 }, freed, true, ?_, hinv,
          hpost.blank, hup⟩
        simp [deleteLoop, hrun, hnull, hzero, hslots, bind, Except.bind, pure, Except.pure]

/-! ## Deletion -/

/-- The node above a stored item keeps the item's tags. -/
theorem leafNode_spec (hs : Slot.Inv (h + 1) s b) (he : entry i (h + 1) s b = some (a, tg)) :
    ∃ n, leafNode i (h + 1) s = .ok n ∧ Node.tagsAt n (c.offset i 1) = tg := by
  induction h generalizing s b with
  | zero =>
    rcases hs.cases_succ with rfl | ⟨n, rfl⟩
    · simp at he
    refine ⟨n, rfl, ?_⟩
    rw [entry_node] at he
    rcases ((inv_node.mp hs).2.2.2 (c.offset i 1)).cases_zero with hnull | ⟨a', ha⟩
    · rw [hnull] at he
      simp at he
    · rw [ha] at he
      simpa using (Prod.mk.inj (Option.some.inj he)).2
  | succ h ih =>
    rcases hs.cases_succ with rfl | ⟨n, rfl⟩
    · simp at he
    exact ih ((inv_node.mp hs).2.2.2 (c.offset i (h + 2))) he

theorem deleteTagClear_spec (t : Tag) (hroot : root.Inv) (hi : i < 2 ^ c.indexBits)
    (hpos : 0 < root.height) (he : root.entry i = some (a, tg)) :
    ∃ root', deleteTagClear root i t = .ok root' ∧ root'.Inv ∧ root'.height = root.height ∧
      ∀ j, root'.entry j = if j = i then some (a, update tg t false) else root.entry j := by
  obtain ⟨h, hh⟩ : ∃ h, root.height = h + 1 := ⟨root.height - 1, by omega⟩
  have he' := (Root.lt_span_of_entry he).2
  have hslot := hroot.slot
  rw [hh] at hslot he'
  obtain ⟨n, hleaf, htg⟩ := leafNode_spec hslot he'
  rw [Root.top, ← hh] at hleaf
  have hbit : tagGet n t (c.offset i 1) = tg t := congrFun htg t
  unfold deleteTagClear
  rw [hleaf]
  simp only [bind, Except.bind, pure, Except.pure, hbit]
  cases ht : tg t with
  | true =>
    obtain ⟨root', hrun, hinv, hheight, hent⟩ := radixTreeTagClear_spec t hroot hi
    refine ⟨root', by simp [hrun], hinv, hheight, fun j => ?_⟩
    rw [hent j, he]
    rfl
  | false =>
    refine ⟨root, by simp, hroot, rfl, fun j => ?_⟩
    rw [update_false_eq_self ht]
    split_ifs with hj
    · rw [hj, he]
    · rfl

theorem entry_of_top_null (htop : root.top = .null) (j : ℕ) : root.entry j = none := by
  simp [Root.entry, htop]

/-- An empty root in order. -/
theorem inv_of_top_null (hle : root.height ≤ c.maxPath) (htop : root.top = .null)
    (htags : root.tags = fun _ => false) : root.Inv := by
  refine ⟨hle, ?_, fun j _ hj => ?_⟩
  · rw [htop, htags]
    exact inv_null.mpr fun _ => rfl
  · rw [htop, entry_null] at hj
    exact absurd rfl hj

/-- `radix_tree_delete` returns the item stored and takes it out, and frees only
blank nodes. -/
theorem radixTreeDelete_spec (hroot : root.Inv) (hi : i < 2 ^ c.indexBits)
    (hfreed : AllBlank freed) :
    ∃ root' freed', radixTreeDelete root i freed =
        .ok ((root.entry i).map Prod.fst, root', freed') ∧
      root'.Inv ∧ AllBlank freed' ∧
      ∀ j, root'.entry j = if j = i then none else root.entry j := by
  unfold radixTreeDelete
  rw [radixTreeMaxindex_eq hroot.height_le]
  simp only [bind, Except.bind, pure, Except.pure, c.maxindex_lt_iff hi]
  by_cases hfit : i < c.span root.height
  · rw [if_neg (not_le.mpr hfit)]
    by_cases h0 : root.height = 0
    · -- the item sits in the root itself
      rw [if_pos h0]
      rw [h0, c.span_zero] at hfit
      obtain rfl : i = 0 := by omega
      have hslot := hroot.slot
      rw [h0] at hslot
      have hnew : Root.top ({ rootTagClearAll root with rnode := .null } : Root c α) = .null := rfl
      have hrest (j : ℕ) : Root.entry ({ rootTagClearAll root with rnode := .null } : Root c α) j =
          if j = 0 then none else root.entry j := by
        rw [entry_of_top_null hnew]
        split_ifs with hj
        · rfl
        · rw [Root.entry, h0, c.span_zero, if_neg (by omega)]
      have hitem : (radixTreeIndirectToPtr root.rnode).asItem =
          .ok ((root.entry 0).map Prod.fst) := by
        change root.top.asItem = _
        rw [Root.entry, h0, c.span_zero]
        rcases hslot.cases_zero with hnull | ⟨a, ha⟩
        · rw [hnull]
          rfl
        · rw [ha]
          rfl
      exact ⟨{ rootTagClearAll root with rnode := .null }, freed, by rw [hitem],
        inv_of_top_null hroot.height_le hnew (tags_rootTagClearAll root), hfreed, hrest⟩
    · rw [if_neg h0]
      have hent : root.entry i = entry i root.height root.top root.tags := if_pos hfit
      obtain ⟨slot, hslotAt, hcase⟩ := slotAt_spec hroot.slot
      rw [Root.top] at hslotAt
      rw [hslotAt]
      rcases hcase with ⟨hnone, rfl⟩ | ⟨a, tg, hsome, rfl⟩
      · refine ⟨root, freed, by simp [hent, hnone], hroot, hfreed, fun j => ?_⟩
        split_ifs with hj
        · rw [hj, hent, hnone]
        · rfl
      · -- clear both tags, then free the chain
        have he : root.entry i = some (a, tg) := hent.trans hsome
        obtain ⟨root1, hrun1, hinv1, hh1, hent1⟩ :=
          deleteTagClear_spec 0 hroot hi (by omega) he
        obtain ⟨root2, hrun2, hinv2, hh2, hent2⟩ :=
          deleteTagClear_spec 1 hinv1 hi (by omega) ((hent1 i).trans (if_pos rfl))
        have hclear : update (update tg 0 false) 1 false = fun _ => false := by
          funext t
          fin_cases t <;> rfl
        have hi2 : root2.entry i = some (a, fun _ => false) := by
          rw [hent2 i, if_pos rfl, hclear]
        have hother (j : ℕ) (hj : j ≠ i) : root2.entry j = root.entry j := by
          rw [hent2, if_neg hj, hent1, if_neg hj]
        obtain ⟨hfit2, hi2'⟩ := Root.lt_span_of_entry hi2
        obtain ⟨top, toFree, here, hloop, hpost⟩ := deleteLoop_spec hinv2.slot hi2'
        rw [Root.top] at hloop
        have hnew : Root.top { root2 with rnode := top.toRnode } = top :=
          radixTreeIndirectToPtr_toRnode top
        obtain ⟨hinv3, hent3⟩ := hinv2.of_updates { root2 with rnode := top.toRnode } hi
          hfit2 rfl (by rw [hnew]; exact hpost.inv) (by rw [hnew]; exact hpost.updates)
        have hall (j : ℕ) : Root.entry { root2 with rnode := top.toRnode } j =
            if j = i then none else root.entry j := by
          rw [hent3 j]
          split_ifs with hj
          · rfl
          · exact hother j hj
        have hblank : AllBlank (toFree ++ freed) := by
          exact List.forall_mem_append.mpr ⟨hpost.blank, hfreed⟩
        simp only [isNull_item, Bool.false_eq_true, if_false, asItem, hrun1, hrun2, hloop,
          he, Option.map_some]
        cases hnull : top.isNull with
        | true =>
          have htop : top = .null := isNull_iff.mp hnull
          have hempty : Root.top ({ rootTagClearAll root2 with
              height := 0, rnode := .null } : Root c α) = .null := rfl
          refine ⟨_, _, by rw [if_pos rfl], inv_of_top_null (Nat.zero_le _) hempty
            (tags_rootTagClearAll root2), hblank, fun j => ?_⟩
          rw [entry_of_top_null hempty, ← hall j, entry_of_top_null (hnew.trans htop)]
        | false =>
          cases here with
          | false => exact ⟨_, _, by simp, hinv3, hblank, hall⟩
          | true =>
            obtain ⟨root4, freed4, hshrink, hinv4, hfreed4, hent4⟩ :=
              shrinkLoop_spec hinv3 rfl (by rw [hnew]; exact hnull) hblank
            refine ⟨root4, freed4, ?_, hinv4, hfreed4, fun j => (hent4 j).trans (hall j)⟩
            simp [radixTreeShrink, hshrink]
  · have hnone : root.entry i = none := if_neg hfit
    rw [if_pos (not_lt.mp hfit)]
    refine ⟨root, freed, by rw [hnone]; rfl, hroot, hfreed, fun j => ?_⟩
    split_ifs with hj
    · rw [hj, hnone]
    · rfl

end Gp2xKernel.RadixTree
