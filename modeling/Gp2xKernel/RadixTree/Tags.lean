import Gp2xKernel.RadixTree.Insert

/-!
# Tags of the radix tree

`radix_tree_tag_set` sets a bit at every level on the way down;
`radix_tree_tag_clear` clears on the way up and stops at the first level where
another bit is left.  Both change the tag of one index and keep every summary
exact.

## Main results

* `tagSetLoop_spec`, `radixTreeTagSet_spec`: setting a tag on a stored index
* `tagClearLoop_spec`, `radixTreeTagClear_spec`: clearing a tag
* `radixTreeTagGet_spec`: what `radix_tree_tag_get` reads
-/

namespace Gp2xKernel.RadixTree

open Function BitVec Slot
open Node (tagsAt used)

variable {c : Config} {α : Type}

/-! ## The bits of a node and of the root -/

variable (n : Node c α)

theorem tagClear_tags (t t' : Tag) (o o' : Fin c.mapSize) :
    (tagClear n t o).tags t' o' = if t' = t ∧ o' = o then false else n.tags t' o' :=
  update_tags n.tags t t' o o' false

theorem tagsAt_update (t : Tag) (o : Fin c.mapSize) (v : Bool) (p : Fin c.mapSize) :
    tagsAt { n with tags := update n.tags t (update (n.tags t) o v) } p =
      if p = o then update (tagsAt n p) t v else tagsAt n p := by
  funext t'
  by_cases hp : p = o <;> by_cases ht : t' = t <;> simp [tagsAt, update_tags, hp, ht]

section

variable (root : Root c α) (t : Tag)

theorem rootTagGet_eq : rootTagGet root t = root.gfpMask.getLsbD (t.val + gfpBitsShift) := by
  have hlt : t.val + gfpBitsShift < 32 := by
    simp only [gfpBitsShift]
    omega
  rw [rootTagGet, ← twoPow_eq, and_twoPow]
  cases hbit : root.gfpMask.getLsbD (t.val + gfpBitsShift) with
  | true =>
    have hne : BitVec.twoPow 32 (t.val + gfpBitsShift) ≠ 0#32 := by
      intro h0
      have := congrArg (fun x => x.getLsbD (t.val + gfpBitsShift)) h0
      simp [hlt] at this
    simpa using hne
  | false => simp

theorem tags_rootTagSet : (rootTagSet root t).tags = update root.tags t true := by
  funext t'
  simp only [Root.tags, rootTagGet_eq, rootTagSet, ← twoPow_eq, getLsbD_or, getLsbD_twoPow]
  fin_cases t <;> fin_cases t' <;> simp [Root.tags, rootTagGet_eq, gfpBitsShift]

theorem tags_rootTagClear : (rootTagClear root t).tags = update root.tags t false := by
  funext t'
  simp only [Root.tags, rootTagGet_eq, rootTagClear, ← twoPow_eq, getLsbD_and,
    getLsbD_not, getLsbD_twoPow]
  fin_cases t <;> fin_cases t' <;> simp [Root.tags, rootTagGet_eq, gfpBitsShift]

theorem tags_rootTagClearAll : (rootTagClearAll root).tags = fun _ => false := by
  funext t
  have hmask : gfpBitsMask.getLsbD (t.val + gfpBitsShift) = false := by
    fin_cases t <;> decide
  simp only [Root.tags, rootTagGet_eq, rootTagClearAll, getLsbD_and, hmask, Bool.and_false]

theorem rootTagSet_of_unset :
    ∃ root', (if !rootTagGet root t then rootTagSet root t else root) = root' ∧
      root'.height = root.height ∧ root'.top = root.top ∧
      root'.tags = update root.tags t true := by
  cases hbit : rootTagGet root t with
  | false => exact ⟨rootTagSet root t, rfl, rfl, rfl, tags_rootTagSet root t⟩
  | true => exact ⟨root, rfl, rfl, rfl, (update_eq_self_iff.mpr hbit.symm).symm⟩

/-- The root's bit is cleared when the climb reaches the root. -/
theorem rootTagClear_of_climbing (climbing : Bool) :
    ∃ root', (if climbing && rootTagGet root t then rootTagClear root t else root) = root' ∧
      root'.height = root.height ∧ root'.top = root.top ∧
      root'.tags = if climbing then update root.tags t false else root.tags := by
  cases climbing with
  | false => exact ⟨root, rfl, rfl, rfl, rfl⟩
  | true =>
    cases hbit : rootTagGet root t with
    | true => exact ⟨rootTagClear root t, rfl, rfl, rfl, tags_rootTagClear root t⟩
    | false => exact ⟨root, rfl, rfl, rfl, (update_eq_self_iff.mpr hbit.symm).symm⟩

/-! ## Setting a tag -/

end

/-- Putting a child back with the same emptiness leaves the count exact. -/
theorem used_update_same (o : Fin c.mapSize) (child : Slot c α)
    (hsame : child.isNull = (n.slots o).isNull) :
    used { n with slots := update n.slots o child } = used n := by
  have hcard := card_used_update n.slots o child
  rw [hsame] at hcard
  unfold used
  simp only
  omega

variable {i h : ℕ} {t : Tag} {s child : Slot c α} {b tg : Tag → Bool} {a : α} {root : Root c α}
  {n : Node c α}

/-- `radix_tree_tag_set` below a slot that stores the index. -/
theorem tagSetLoop_spec (hs : Slot.Inv h s b) (he : entry i h s b = some (a, tg)) :
    ∃ s', tagSetLoop i t h s = .ok (.item a, s') ∧ s'.isNull = false ∧
      Slot.Inv h s' (update b t true) ∧
      Slot.Updates i (some (a, update tg t true)) h s b s' (update b t true) := by
  induction h generalizing s b with
  | zero =>
    rcases hs.cases_zero with rfl | ⟨a', rfl⟩
    · simp at he
    · obtain ⟨rfl, rfl⟩ : a' = a ∧ b = tg := by simpa using he
      refine ⟨.item a', rfl, rfl, trivial, fun j => ?_⟩
      simp [Nat.mod_one]
  | succ h ih =>
    rcases hs.cases_succ with rfl | ⟨n, rfl⟩
    · simp at he
    obtain ⟨hheight, hcount, htag, hsub⟩ := inv_node.mp hs
    rw [entry_node] at he
    obtain ⟨child, hrun, hchild, hinv, hup⟩ := ih (hsub (c.offset i (h + 1))) he
    -- setting a bit that is set already changes nothing
    have hset : (if tagGet n t (c.offset i (h + 1)) then n else tagSet n t (c.offset i (h + 1))) =
        tagSet n t (c.offset i (h + 1)) := by
      split_ifs with hbit
      · have htags : (tagSet n t (c.offset i (h + 1))).tags = n.tags := by
          funext t' o'
          rw [tagSet_tags]
          split_ifs with hcase
          · rw [hcase.1, hcase.2]
            exact hbit.symm
          · rfl
        exact congrArg (fun tags => { n with tags := tags }) htags.symm
      · rfl
    have hfull := isNull_of_entry he
    have hat := tagsAt_update n t (c.offset i (h + 1)) true
    refine ⟨.node { tagSet n t (c.offset i (h + 1)) with
        slots := update n.slots (c.offset i (h + 1)) child }, ?_, rfl,
      hs.put rfl rfl (fun o ho => ?_) ?_ (fun t' => ?_) ?_ ?_⟩
    · have hslots : (tagSet n t (c.offset i (h + 1))).slots = n.slots := rfl
      simp only [tagSetLoop, hset, hslots, hfull, hrun]
      rfl
    · exact (hat o).trans (if_neg ho)
    · exact hcount.trans (used_update_same n _ child (by rw [hchild, hfull])).symm
    · simp only [tagSet_tags]
      by_cases ht : t' = t
      · subst ht
        simp only [update_self, true_and, true_iff]
        exact ⟨_, by rw [if_pos rfl]⟩
      · rw [update_of_ne ht, htag t']
        simp [ht]
    · exact ((hat _).trans (if_pos rfl)).symm ▸ hinv
    · exact ((hat _).trans (if_pos rfl)).symm ▸ hup

/-- `radix_tree_tag_set` on a stored index returns the item and sets its tag. -/
theorem radixTreeTagSet_spec (hroot : root.Inv) (hi : i < 2 ^ c.indexBits)
    (he : root.entry i = some (a, tg)) :
    ∃ root', radixTreeTagSet root i t = .ok (some a, root') ∧ root'.Inv ∧
      ∀ j, root'.entry j = if j = i then some (a, update tg t true) else root.entry j := by
  obtain ⟨hfit, he⟩ := Root.lt_span_of_entry he
  obtain ⟨slot, hrun, -, hinv, hup⟩ := tagSetLoop_spec (t := t) hroot.slot he
  obtain ⟨root', hroot', hheight, htop, htags⟩ :=
    rootTagSet_of_unset { root with rnode := slot.toRnode } t
  have htop' : root'.top = slot := htop.trans (radixTreeIndirectToPtr_toRnode slot)
  have htags' : root'.tags = update root.tags t true := htags
  rw [Root.top] at hrun
  refine ⟨root', ?_, ?_⟩
  · simp only [radixTreeTagSet, radixTreeMaxindex_eq hroot.height_le, bind, Except.bind, pure,
      Except.pure, c.maxindex_lt_iff hi, if_neg (not_le.mpr hfit), hrun, asItem, isNull_item,
      Bool.not_false, Bool.true_and, hroot']
  · exact hroot.of_updates root' hi hfit hheight (by rw [htags', htop']; exact hinv)
      (by rw [htags', htop']; exact hup)

/-! ## Clearing a tag -/

/-- What clearing tag `t` of index `i` leaves below a slot.  While the climb goes
on, the bit kept for the slot is about to be cleared as well. -/
structure TagClearPost (i : ℕ) (t : Tag) (h : ℕ) (b : Tag → Bool) (s s' : Slot c α)
    (climbing : Bool) : Prop where
  same : s'.isNull = s.isNull
  inv : Slot.Inv h s' (if climbing then Function.update b t false else b)
  updates : Slot.Updates i
    ((Slot.entry i h s b).map fun e => (e.1, Function.update e.2 t false)) h s b s'
    (if climbing then Function.update b t false else b)

/-- A tag that is not set may as well have been cleared. -/
theorem update_false_eq_self (hb : b t = false) : update b t false = b := by
  rw [← hb, update_eq_self]

theorem tagClear_node_spec {n' : Node c α} (hs : Slot.Inv (h + 1) (.node n) b)
    (hpost : TagClearPost i t h (tagsAt n (c.offset i (h + 1)))
      (n.slots (c.offset i (h + 1))) child true)
    (hn' : n' = { tagClear n t (c.offset i (h + 1)) with
      slots := update n.slots (c.offset i (h + 1)) child }) :
    TagClearPost i t (h + 1) b (.node n) (.node n')
      (tagGet n t (c.offset i (h + 1)) && !anyTagSet n' t) := by
  subst hn'
  obtain ⟨-, hcount, htag, -⟩ := inv_node.mp hs
  set n' : Node c α := { tagClear n t (c.offset i (h + 1)) with
    slots := update n.slots (c.offset i (h + 1)) child }
  have htags (t' : Tag) (o : Fin c.mapSize) : n'.tags t' o =
      if t' = t ∧ o = c.offset i (h + 1) then false else n.tags t' o := tagClear_tags n t t' _ o
  have hat (o : Fin c.mapSize) : tagsAt n' o =
      if o = c.offset i (h + 1) then update (tagsAt n o) t false
      else tagsAt n o := tagsAt_update n t _ false o
  have hany : anyTagSet n' t = true ↔ ∃ o, n'.tags t o = true := by simp [anyTagSet]
  refine And.elim (TagClearPost.mk rfl) (hs.put rfl rfl (fun o ho => ?_) ?_ (fun t' => ?_) ?_ ?_)
  · rw [hat, if_neg ho]
  · exact hcount.trans (used_update_same n _ child hpost.same).symm
  · by_cases ht : t' = t
    · subst ht
      -- the bit above goes exactly when it was set and no other bit is left here
      cases hbit : tagGet n t' (c.offset i (h + 1)) with
      | false =>
        rw [if_neg (by simp), htag t']
        refine exists_congr fun o => ?_
        rw [htags]
        split_ifs with ho
        · have hoff : n.tags t' o = false := by rw [ho.2]; exact hbit
          simp [hoff]
        · rfl
      | true =>
        have hb : b t' = true := (htag t').mpr ⟨_, hbit⟩
        cases hleft : anyTagSet n' t' with
        | true => simpa [hb] using hany.mp hleft
        | false =>
          have hnone : ¬ ∃ o, n'.tags t' o = true := by rw [← hany]; simp [hleft]
          simpa using fun o => by simpa using not_exists.mp hnone o
    · have hb : (if (tagGet n t (c.offset i (h + 1)) && !anyTagSet n' t) = true then
          update b t false else b) t' = b t' := by
        split_ifs
        · exact update_of_ne ht _ _
        · rfl
      rw [hb, htag t']
      exact exists_congr fun o => by rw [htags, if_neg (fun h' => ht h'.1)]
  · rw [hat, if_pos rfl]
    exact hpost.inv
  · rw [hat, if_pos rfl]
    exact hpost.updates

/-- A node above the point where the climb has stopped. -/
theorem tagClear_stop_spec (hs : Slot.Inv (h + 1) (.node n) b)
    (hpost : TagClearPost i t h (tagsAt n (c.offset i (h + 1)))
      (n.slots (c.offset i (h + 1))) child false) :
    TagClearPost i t (h + 1) b (.node n)
      (.node { n with slots := update n.slots (c.offset i (h + 1)) child }) false := by
  obtain ⟨-, hcount, htag, -⟩ := inv_node.mp hs
  refine And.elim (TagClearPost.mk rfl)
    (hs.put rfl rfl (fun _ _ => rfl) ?_ htag hpost.inv hpost.updates)
  exact hcount.trans (used_update_same n _ child hpost.same).symm

/-- The two loops of `radix_tree_tag_clear`, by induction on the height. -/
theorem tagClearLoop_spec (i : ℕ) (t : Tag) (hs : Slot.Inv h s b) :
    ∃ found s' climbing, tagClearLoop i t h s = .ok (found, s', climbing) ∧
      found.asItem = .ok ((entry i h s b).map Prod.fst) ∧
      TagClearPost i t h b s s' climbing := by
  induction h generalizing s b with
  | zero =>
    rcases hs.cases_zero with rfl | ⟨a, rfl⟩
    · exact ⟨.null, .null, false, rfl, rfl, rfl, hs, Slot.Updates.refl i 0 (.null : Slot c α) b⟩
    · refine ⟨.item a, .item a, true, rfl, rfl, rfl, trivial, fun j => ?_⟩
      simp [Nat.mod_one]
  | succ h ih =>
    rcases hs.cases_succ with rfl | ⟨n, rfl⟩
    · refine ⟨.null, .null, false, rfl, rfl, rfl, hs, ?_⟩
      simpa using Slot.Updates.refl i (h + 1) (.null : Slot c α) b
    obtain ⟨found, child, climbing, hrun, hfound, hpost⟩ :=
      ih ((inv_node.mp hs).2.2.2 (c.offset i (h + 1)))
    have hget : tagGet { n with slots := update n.slots (c.offset i (h + 1)) child } t
        (c.offset i (h + 1)) = tagGet n t (c.offset i (h + 1)) := rfl
    cases climbing with
    | false =>
      refine ⟨found, _, false, ?_, hfound, tagClear_stop_spec hs hpost⟩
      simp only [tagClearLoop, hrun, bind, Except.bind, pure, Except.pure, Bool.not_false, if_true]
    | true =>
      cases hbit : tagGet n t (c.offset i (h + 1)) with
      | false =>
        have hoff : tagsAt n (c.offset i (h + 1)) t = false := hbit
        have hpost' : TagClearPost i t h (tagsAt n (c.offset i (h + 1)))
            (n.slots (c.offset i (h + 1))) child false := by
          refine ⟨hpost.same, ?_, ?_⟩
          · simpa [update_false_eq_self hoff] using hpost.inv
          · simpa [update_false_eq_self hoff] using hpost.updates
        refine ⟨found, _, false, ?_, hfound, tagClear_stop_spec hs hpost'⟩
        simp only [tagClearLoop, hrun, bind, Except.bind, pure, Except.pure, hget, hbit,
          Bool.not_true, Bool.not_false, if_true, Bool.false_eq_true, if_false]
      | true =>
        have hnode := tagClear_node_spec hs hpost rfl
        refine ⟨found, _, _, ?_, hfound, hnode⟩
        simp only [tagClearLoop, hrun, bind, Except.bind, pure, Except.pure, hget, hbit,
          Bool.not_true, Bool.false_eq_true, if_false]
        rfl

/-- `radix_tree_tag_clear` returns what a lookup would and clears the tag of the
index, if it is stored. -/
theorem radixTreeTagClear_spec (t : Tag) (hroot : root.Inv) (hi : i < 2 ^ c.indexBits) :
    ∃ root', radixTreeTagClear root i t = .ok ((root.entry i).map Prod.fst, root') ∧ root'.Inv ∧
      root'.height = root.height ∧
      ∀ j, root'.entry j =
        if j = i then (root.entry i).map fun e => (e.1, update e.2 t false)
        else root.entry j := by
  by_cases hfit : i < c.span root.height
  · obtain ⟨found, slot, climbing, hrun, hfound, hpost⟩ := tagClearLoop_spec i t hroot.slot
    obtain ⟨root', hroot', hheight, htop, htags⟩ :=
      rootTagClear_of_climbing { root with rnode := slot.toRnode } t climbing
    have htop' : root'.top = slot := htop.trans (radixTreeIndirectToPtr_toRnode slot)
    have htags' : root'.tags = if climbing then update root.tags t false else root.tags :=
      htags
    have hent : root.entry i = entry i root.height root.top root.tags := if_pos hfit
    obtain ⟨hinv, hall⟩ := hroot.of_updates root' hi hfit hheight
      (by rw [htags', htop']; exact hpost.inv) (by rw [htags', htop']; exact hpost.updates)
    rw [Root.top] at hrun
    refine ⟨root', ?_, hinv, hheight, ?_⟩
    · rw [hent]
      simp only [radixTreeTagClear, radixTreeMaxindex_eq hroot.height_le, bind, Except.bind, pure,
        Except.pure, c.maxindex_lt_iff hi, if_neg (not_le.mpr hfit), hrun, hfound, hroot']
    · intro j
      rw [hall j, hent]
  · have hnone : root.entry i = none := if_neg hfit
    refine ⟨root, ?_, hroot, rfl, ?_⟩
    · simp only [radixTreeTagClear, radixTreeMaxindex_eq hroot.height_le, bind, Except.bind, pure,
        Except.pure, c.maxindex_lt_iff hi, if_pos (not_lt.mp hfit), hnone, Option.map_none]
    · intro j
      by_cases hj : j = i
      · simp [hj, hnone]
      · simp [hj]

/-! ## Reading a tag -/

/-- The loop of `radix_tree_tag_get`, below a slot in order whose own bit has been
seen: an unset bit on the way means the tag is unset at the bottom. -/
theorem tagGetLoop_spec {saw : Bool} (hs : Slot.Inv (h + 1) s b) (hsaw : saw = true → b t = false) :
    tagGetLoop i t (h + 1) s saw = .ok ((entry i (h + 1) s b).any fun e => e.2 t) := by
  induction h generalizing s b saw with
  | zero =>
    rcases hs.cases_succ with rfl | ⟨n, rfl⟩
    · simp [tagGetLoop]
    obtain ⟨-, -, htag, hsub⟩ := inv_node.mp hs
    have hbug : tagGet n t (c.offset i 1) = true → saw = false := by
      intro hbit
      cases hcase : saw with
      | false => rfl
      | true =>
        have := (htag t).mpr ⟨_, hbit⟩
        rw [hsaw hcase] at this
        exact this.symm
    have hleaf : ((entry i 1 (.node n) b).any fun e => e.2 t) = tagGet n t (c.offset i 1) := by
      rw [entry_node]
      rcases (hsub (c.offset i 1)).cases_zero with hnull | ⟨a, ha⟩
      · have : tagGet n t (c.offset i 1) = false := hs.tags_of_null hnull t
        simp [hnull, this]
      · simp [ha, tagsAt, tagGet]
    rw [hleaf]
    cases hbit : tagGet n t (c.offset i 1) with
    | false => simp [tagGetLoop, hbit]
    | true => simp [tagGetLoop, hbit, hbug hbit]
  | succ h ih =>
    rcases hs.cases_succ with rfl | ⟨n, rfl⟩
    · simp [tagGetLoop]
    obtain ⟨-, -, htag, hsub⟩ := inv_node.mp hs
    have hsaw' : (if !tagGet n t (c.offset i (h + 2)) then true else saw) = true →
        tagsAt n (c.offset i (h + 2)) t = false := by
      intro hcase
      cases hbit : tagGet n t (c.offset i (h + 2)) with
      | false => exact hbit
      | true =>
        rw [hbit] at hcase
        have := (htag t).mpr ⟨_, hbit⟩
        rw [hsaw (by simpa using hcase)] at this
        exact absurd this (by simp)
    rw [entry_node, ← ih (hsub (c.offset i (h + 2))) hsaw']
    simp [tagGetLoop]

/-- `radix_tree_tag_get` reads the tag of a stored index, and its `BUG_ON` stays
silent. -/
theorem radixTreeTagGet_spec (t : Tag) (hroot : root.Inv) (hi : i < 2 ^ c.indexBits) :
    radixTreeTagGet root i t = .ok ((root.entry i).any fun e => e.2 t) := by
  have hslot := hroot.slot
  have hle := hroot.height_le
  unfold radixTreeTagGet
  cases hbit : rootTagGet root t with
  | false =>
    -- no item carries the tag when the root's bit is clear
    have hnone : ((root.entry i).any fun e => e.2 t) = false := by
      rw [Root.entry]
      split_ifs with hfit
      · cases he : entry i root.height root.top root.tags with
        | none => rfl
        | some e =>
          have hiff := hslot.tag_iff t
          have hb : root.tags t = false := hbit
          rw [hb] at hiff
          have : ¬ e.2 t = true := fun het => by
            simpa using hiff.mpr ⟨i, hfit, e, he, het⟩
          simpa using this
      · rfl
    simp [hnone]
  | true =>
    unfold Root.entry
    rcases hroot.cases with ⟨hr, htop⟩ | ⟨a, hr, htop, hh⟩ | ⟨n, h, hr, htop, hh, hslot⟩
    · simp [hr, htop]
    · have hb : root.tags t = true := hbit
      by_cases h0 : i = 0
      · simp [hr, hh, htop, h0, hb]
      · simp [hr, hh, h0]
    · rw [hh] at hle
      simp only [hr, hh, (inv_node.mp hslot).1, radixTreeMaxindex_eq hle, bind, Except.bind, htop,
        c.maxindex_lt_iff hi]
      by_cases hin : i < c.span (h + 1)
      · rw [if_neg (not_le.mpr hin), if_pos hin]
        exact tagGetLoop_spec hslot (by simp)
      · rw [if_pos (not_lt.mp hin), if_neg hin]
        rfl

end Gp2xKernel.RadixTree
