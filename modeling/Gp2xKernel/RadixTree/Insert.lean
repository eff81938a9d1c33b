import Gp2xKernel.RadixTree.Invariant

/-!
# Insertion and lookup in the radix tree

`radix_tree_insert` first raises the tree until the index fits and then walks
down, adding the nodes that are missing.  Either part may stop in the middle when
a node cannot be allocated; what is left behind keeps the invariant and stores
the same items.

## Main results

* `insertLoop_spec`: the walk down, from any slot in order
* `radixTreeExtend_spec`: raising the tree stores the same items
* `radixTreeInsert_spec`: insertion
* `radixTreeLookup_spec`: lookup reads what is stored
-/

namespace Gp2xKernel.RadixTree

open Library Function Slot
open Node (used tagsAt)

variable {c : Config} {α : Type}

/-- Every freed node is as the slab must hold it. -/
def AllBlank (freed : List (Node c α)) : Prop := ∀ n ∈ freed, Node.Blank n

/-! ## Walking down -/

variable {h i : ℕ} {n : Node c α} {b : Tag → Bool} {s : Slot c α} {m : Slab c α} {root : Root c α}
  {x : α}

/-- The slot an allocated node is put in place of was empty, so the node must
stand for no tag at all. -/
theorem Slot.Inv.of_blank (hn : n.Blank)
    (hb : ∀ t, b t = false) : Slot.Inv (h + 1) (.node { n with height := h + 1 }) b := by
  refine inv_node.mpr ⟨rfl, ?_, ?_, ?_⟩
  · have hused : used { n with height := h + 1 } = used n := rfl
    rw [hused, hn.used_eq_zero]
    exact hn.count
  · simp [hb, hn.tags]
  · intro o
    simp only [hn.slots]
    exact inv_null.mpr fun t => hn.tags t o

/-- What `insertNode` finds or makes: a node in order that stores what the slot
stored. -/
theorem insertNode_spec (hs : Slot.Inv (h + 1) s b) (hm : AllBlank m.freed) :
    ∃ node m', insertNode (h + 1) s m = .ok (node, m') ∧ AllBlank m'.freed ∧
      (node = none → s = .null) ∧
      ∀ n, node = some n → Slot.Inv (h + 1) (.node n) b ∧
        ∀ i, entry i (h + 1) (.node n) b = entry i (h + 1) s b := by
  rcases hs.cases_succ with rfl | ⟨n, rfl⟩
  · obtain ⟨hnew, hrest⟩ := radixTreeNodeAlloc_blank hm
    unfold insertNode
    rcases hal : radixTreeNodeAlloc m with ⟨_ | new, m'⟩
    · rw [hal] at hrest
      exact ⟨none, m', rfl, hrest, fun _ => rfl, by simp⟩
    · rw [hal] at hnew hrest
      have hblank := hnew new rfl
      refine ⟨_, m', rfl, hrest, by simp, ?_⟩
      rintro n ⟨⟩
      refine ⟨Slot.Inv.of_blank hblank (inv_null.mp hs), fun i => ?_⟩
      rw [entry_node]
      simp [hblank.slots]
  · refine ⟨some n, m, rfl, hm, by simp, ?_⟩
    rintro n' ⟨⟩
    exact ⟨hs, fun i => rfl⟩

/-- What an insertion of `x` for `i` below a slot leaves there. -/
structure InsertPost (i : ℕ) (x : α) (h : ℕ) (b : Tag → Bool) (s s' : Slot c α)
    (status : Status) : Prop where
  inv : Slot.Inv h s' b
  grows : s.isNull = false → s'.isNull = false
  filled : status = .ok → s'.isNull = false
  eexist : status = .eexist ↔ Slot.entry i h s b ≠ none
  updates : Slot.Updates i
    (if status = .ok then some (x, fun _ => false) else Slot.entry i h s b) h s b s' b

/-- An item goes into an empty slot, which carries no tag. -/
theorem InsertPost.untagged {s' : Slot c α} (hs : Slot.Inv 0 s b)
    (hpost : InsertPost i x 0 b s s' .ok) (t : Tag) : b t = false := by
  rcases hs.cases_zero with rfl | ⟨a, rfl⟩
  · exact inv_null.mp hs t
  · simpa using hpost.eexist

theorem storeChild_used (n : Node c α) (o : Fin c.mapSize) (child : Slot c α)
    (hcount : n.count = used n)
    (hgrow : (n.slots o).isNull = false → child.isNull = false) :
    (storeChild n o child).count = used (storeChild n o child) := by
  have hcard := card_used_update n.slots o child
  change (if (n.slots o).isNull && !child.isNull then n.count + 1 else n.count) =
    (Finset.univ.filter fun p => (Function.update n.slots o child p).isNull = false).card
  rw [hcount]
  unfold used
  cases hold : (n.slots o).isNull <;> cases hnew : child.isNull <;> simp_all

variable {v : Option (α × (Tag → Bool))}

/-- **A child that is put back**: a node that changes at the slot for `i` only, and gets a child in
order there, is in order and changes in what it stores for `i` only. -/
theorem Slot.Inv.put {m : Node c α} {child : Slot c α} {b' : Tag → Bool}
    (hn : Slot.Inv (h + 1) (.node n) b)
    (hheight : m.height = n.height)
    (hslots : m.slots = Function.update n.slots (c.offset i (h + 1)) child)
    (hat : ∀ o, o ≠ c.offset i (h + 1) → tagsAt m o = tagsAt n o)
    (hcount : m.count = used m) (htag : ∀ t, b' t = true ↔ ∃ o, m.tags t o = true)
    (hchild : Slot.Inv h child (tagsAt m (c.offset i (h + 1))))
    (hup : Slot.Updates i v h (n.slots (c.offset i (h + 1))) (tagsAt n (c.offset i (h + 1)))
      child (tagsAt m (c.offset i (h + 1)))) :
    Slot.Inv (h + 1) (.node m) b' ∧ Slot.Updates i v (h + 1) (.node n) b (.node m) b' := by
  obtain ⟨hn, -, -, hsub⟩ := inv_node.mp hn
  refine ⟨inv_node.mpr ⟨hheight.trans hn, hcount, htag, fun o => ?_⟩,
    Slot.Updates.node n m (fun o ho => ⟨?_, hat o ho⟩) ?_ b b'⟩
  · by_cases ho : o = c.offset i (h + 1)
    · rw [hslots, ho, update_self]
      exact hchild
    · rw [hslots, update_of_ne ho, hat o ho]
      exact hsub o
  · rw [hslots, update_of_ne ho]
  · rw [hslots, update_self]
    exact hup

/-- The walk down of `radix_tree_insert`, by induction on the height: no `BUG_ON`
fires, and the slot afterwards is as `InsertPost` says. -/
theorem insertLoop_spec (i : ℕ) (x : α) (hs : Slot.Inv h s b) (hm : AllBlank m.freed) :
    ∃ status s' m', insertLoop i x h s m = .ok (status, s', m') ∧ AllBlank m'.freed ∧
      InsertPost i x h b s s' status := by
  induction h generalizing s b m with
  | zero =>
    rcases hs.cases_zero with rfl | ⟨a, rfl⟩
    · have hb : b = fun _ => false := funext (inv_null.mp hs)
      refine ⟨.ok, .item x, m, rfl, hm, trivial, by simp, by simp, by simp, ?_⟩
      intro j
      simp [hb, Nat.mod_one]
    · exact ⟨.eexist, .item a, m, rfl, hm, hs, by simp, by simp, by simp,
        by simpa using Slot.Updates.refl i 0 (.item a : Slot c α) b⟩
  | succ h ih =>
    obtain ⟨node, m1, hnode, hm1, hnone, hsome⟩ := insertNode_spec hs hm
    cases node with
    | none =>
      -- the node to go down into could not be allocated
      obtain rfl := hnone rfl
      refine ⟨.enomem, .null, m1, ?_, hm1, hs, by simp, by simp, by simp, ?_⟩
      · simp [insertLoop, hnode, bind, Except.bind, pure, Except.pure]
      · simpa using Slot.Updates.refl i (h + 1) (.null : Slot c α) b
    | some n =>
      obtain ⟨hn, hsame⟩ := hsome n rfl
      obtain ⟨-, hcount, htag, hsub⟩ := inv_node.mp hn
      obtain ⟨status, child, m2, hrec, hm2, hpost⟩ := ih (hsub (c.offset i (h + 1))) hm1
      refine ⟨status, .node (storeChild n (c.offset i (h + 1)) child), m2, ?_, hm2, ?_⟩
      · -- an empty slot carries no tag, so the `BUG_ON`s stay silent
        have hbug : ¬ (h = 0 ∧ status = .ok ∧
            (tagGet n 0 (c.offset i (h + 1)) || tagGet n 1 (c.offset i (h + 1)))) := by
          rintro ⟨rfl, rfl, hset⟩
          have h0 : tagGet n 0 (c.offset i 1) = false := hpost.untagged (hsub _) 0
          have h1 : tagGet n 1 (c.offset i 1) = false := hpost.untagged (hsub _) 1
          simp [h0, h1] at hset
        simp only [insertLoop, hnode, hrec, bind, Except.bind, if_neg hbug, pure, Except.pure]
      · have hentry : entry i (h + 1) s b =
            entry i h (n.slots (c.offset i (h + 1))) (tagsAt n (c.offset i (h + 1))) :=
          (hsame i).symm
        have hup := hpost.updates
        rw [← hentry] at hup
        obtain ⟨hinv, hup⟩ := hn.put (m := storeChild n (c.offset i (h + 1)) child) rfl rfl
          (fun _ _ => rfl) (storeChild_used n _ child hcount hpost.grows) htag hpost.inv hup
        refine ⟨hinv, by simp, by simp, ?_, fun j => ?_⟩
        · rw [hentry]
          exact hpost.eexist
        · rw [hup j, hsame j]

/-! ## Raising the tree -/

/-- One tag bit of one slot is changed. -/
theorem update_tags (tags : Tag → Fin c.mapSize → Bool) (t t' : Tag) (o o' : Fin c.mapSize)
    (v : Bool) : update tags t (update (tags t) o v) t' o' =
      if t' = t ∧ o' = o then v else tags t' o' := by
  by_cases ht : t' = t
  · subst ht
    rw [update_self, update_apply]
    simp
  · simp [ht]

theorem tagSet_tags (n : Node c α) (t t' : Tag) (o o' : Fin c.mapSize) :
    (tagSet n t o).tags t' o' = if t' = t ∧ o' = o then true else n.tags t' o' :=
  update_tags n.tags t t' o o' true

theorem extendHeight_spec (hi : i < 2 ^ c.indexBits) (turns h : ℕ)
    (hturns : turns + h = c.maxPath + 1) (hpos : 0 < turns) :
    ∃ h', extendHeight c i turns h = .ok h' ∧ h ≤ h' ∧ h' ≤ c.maxPath ∧ i < c.span h' := by
  induction turns generalizing h with
  | zero => omega
  | succ turns ih =>
    rw [extendHeight, radixTreeMaxindex_eq (by omega)]
    simp only [bind, Except.bind, pure, Except.pure, c.maxindex_lt_iff hi]
    by_cases hmax : c.span h ≤ i
    · -- the last entry of the table bounds every index, so a turn is left
      have hlt : h < c.maxPath := by
        by_contra hge
        obtain rfl : h = c.maxPath := by omega
        exact absurd hmax (not_le.mpr (c.lt_span_maxPath hi))
      rw [if_pos hmax]
      obtain ⟨h', he, hle, hmax', hspan⟩ := ih (h + 1) (by omega) (by omega)
      exact ⟨h', he, by omega, hmax', hspan⟩
    · rw [if_neg hmax]
      exact ⟨h, rfl, le_rfl, by omega, not_le.mp hmax⟩

theorem extendNode_top (root : Root c α) (new : Node c α) (hnew : new.Blank) :
    ∃ n : Node c α, (extendNode root new).top = .node n ∧ n.height = root.height + 1 ∧
      n.count = 1 ∧ n.slots = Function.update (fun _ => .null) c.slotZero root.top ∧
      ∀ t o, n.tags t o = if o = c.slotZero then root.tags t else false := by
  refine ⟨_, rfl, rfl, rfl, ?_, ?_⟩
  · have hslots : new.slots = fun _ => .null := funext hnew.slots
    simp only [hslots]
    split_ifs <;> rfl
  · intro t o
    have htags := hnew.tags
    have h0 : root.tags 0 = rootTagGet root 0 := rfl
    have h1 : root.tags 1 = rootTagGet root 1 := rfl
    fin_cases t <;> by_cases ho : o = c.slotZero <;>
      cases hr0 : rootTagGet root 0 <;> cases hr1 : rootTagGet root 1 <;>
      simp_all [tagSet_tags]

/-- One more level on top of a tree that is not empty. -/
theorem extendNode_spec {new : Node c α} (hroot : root.Inv) (hnew : new.Blank)
    (hne : root.top.isNull = false) (hle : root.height + 1 ≤ c.maxPath) :
    (extendNode root new).Inv ∧ (extendNode root new).top.isNull = false ∧
      ∀ i, (extendNode root new).entry i = root.entry i := by
  obtain ⟨n, htop, hheight, hcount, hslots, htags⟩ := extendNode_top root new hnew
  have hh : (extendNode root new).height = root.height + 1 := rfl
  have htg : (extendNode root new).tags = root.tags := rfl
  have hat0 : tagsAt n c.slotZero = root.tags := by
    funext t
    simp [tagsAt, htags]
  have hentry (i : ℕ) (b : Tag → Bool) : entry i (root.height + 1) (.node n) b =
      if c.offset i (root.height + 1) = c.slotZero then
        entry i root.height root.top root.tags else none := by
    rw [entry_node, hslots]
    split_ifs with ho
    · rw [ho, update_self, hat0]
    · rw [update_of_ne ho, entry_null]
  have hall (i : ℕ) : (extendNode root new).entry i = root.entry i := by
    unfold Root.entry
    rw [hh, htop, hentry]
    by_cases hi : i < c.span root.height
    · rw [if_pos hi, if_pos (hi.trans_le (c.span_mono (by omega))),
        if_pos (c.offset_eq_slotZero hi)]
    · split_ifs with h₁ h2
      · exact absurd (c.lt_span_of_offset h₁ h2) hi
      · rfl
      · rfl
  refine ⟨⟨hle, ?_, ?_⟩, by rw [htop]; rfl, hall⟩
  · rw [htop, htg]
    refine inv_node.mpr ⟨hheight, ?_, ?_, ?_⟩
    · have hcard := card_used_update (fun _ => (.null : Slot c α)) c.slotZero root.top
      rw [hcount, used, hslots]
      simpa [hne] using hcard.symm
    · simp [htags]
    · intro o
      rw [hslots]
      by_cases ho : o = c.slotZero
      · subst ho
        rw [hat0]
        exact hroot.slot
      · rw [update_of_ne ho]
        exact inv_null.mpr fun t => by simp [tagsAt, htags, ho]
  · intro i hi hent
    have hsame := hall i
    rw [Root.entry, if_pos hi] at hsame
    rw [hsame, Root.entry] at hent
    split_ifs at hent with hlt
    · exact hroot.real i hlt hent
    · exact absurd rfl hent

/-- What raising the tree leaves: the same content, and on success the height
asked for. -/
structure ExtendPost (root root' : Root c α) (height : ℕ) (status : Status) : Prop where
  inv : root'.Inv
  entry : ∀ i, root'.entry i = root.entry i
  status : status = .ok ∧ root'.height = height ∨ status = .enomem

theorem extendLoop_spec (turns : ℕ) (hroot : root.Inv) (hne : root.top.isNull = false)
    (hle : root.height + turns ≤ c.maxPath) (hm : AllBlank m.freed) :
    ∃ status root' m', extendLoop turns root m = (status, root', m') ∧ AllBlank m'.freed ∧
      ExtendPost root root' (root.height + turns) status := by
  induction turns generalizing root m with
  | zero => exact ⟨.ok, root, m, rfl, hm, hroot, fun _ => rfl, .inl ⟨rfl, rfl⟩⟩
  | succ turns ih =>
    obtain ⟨hnew, hrest⟩ := radixTreeNodeAlloc_blank hm
    rcases hal : radixTreeNodeAlloc m with ⟨_ | new, m1⟩
    · rw [hal] at hrest
      exact ⟨.enomem, root, m1, by simp [extendLoop, hal], hrest, hroot, fun _ => rfl, .inr rfl⟩
    · rw [hal] at hnew hrest
      obtain ⟨hinv, hne', hent⟩ := extendNode_spec hroot (hnew new rfl) hne (by omega)
      have hh : (extendNode root new).height = root.height + 1 := rfl
      obtain ⟨status, root', m', hrun, hm', hpost⟩ :=
        ih hinv hne' (by rw [hh]; omega) hrest
      refine ⟨status, root', m', by simp [extendLoop, hal, hrun], hm', hpost.inv, ?_, ?_⟩
      · intro i
        rw [hpost.entry, hent]
      · have := hpost.status
        rcases this with ⟨h₁, h2⟩ | h₁
        · exact .inl ⟨h₁, by omega⟩
        · exact .inr h₁

/-- `radix_tree_extend`: on success the index fits, and nothing that is stored
has changed either way. -/
theorem radixTreeExtend_spec (hroot : root.Inv) (hi : i < 2 ^ c.indexBits)
    (hout : c.span root.height ≤ i) (hm : AllBlank m.freed) :
    ∃ status root' m' height, radixTreeExtend root i m = .ok (status, root', m') ∧
      AllBlank m'.freed ∧ i < c.span height ∧ ExtendPost root root' height status := by
  have hlt : root.height < c.maxPath := by
    by_contra hge
    have := c.lt_span_maxPath hi
    have := c.span_mono (Nat.le_of_not_lt hge)
    omega
  obtain ⟨height, hheight, hle, hmax, hspan⟩ :=
    extendHeight_spec hi (c.maxPath + 1 - (root.height + 1)) (root.height + 1) (by omega) (by omega)
  unfold radixTreeExtend
  simp only [hheight, bind, Except.bind, pure, Except.pure]
  by_cases hr : root.rnode = .null
  · have htop : root.top = .null := by simp [Root.top, hr, radixTreeIndirectToPtr]
    have htop' : Root.top { root with height := height } = .null := htop
    have hslot : ∀ t, root.tags t = false := by
      have := hroot.slot
      rwa [htop, inv_null] at this
    refine ⟨.ok, { root with height := height }, m, height, by simp [hr], hm, hspan, ?_⟩
    refine ⟨⟨hmax, ?_, ?_⟩, ?_, .inl ⟨rfl, rfl⟩⟩
    · rw [htop']
      exact inv_null.mpr hslot
    · intro j _ hj
      rw [htop', entry_null] at hj
      exact absurd rfl hj
    · simp [Root.entry, htop, htop']
  · have hne : root.top.isNull = false := by
      rw [isNull_eq_false_iff]
      intro htop
      apply hr
      cases hcase : root.rnode <;> simp [Root.top, hcase, radixTreeIndirectToPtr] at htop
      rfl
    obtain ⟨status, root', m', hrun, hm', hpost⟩ :=
      extendLoop_spec (height - root.height) hroot hne (by omega) hm
    rw [Nat.add_sub_cancel' (by omega)] at hpost
    refine ⟨status, root', m', height, ?_, hm', hspan, hpost⟩
    split
    · contradiction
    · rw [hrun]

/-! ## Insertion -/

theorem Root.Inv.of_updates (hroot : root.Inv) (root' : Root c α)
    (hi : i < 2 ^ c.indexBits) (hfit : i < c.span root.height) (hh : root'.height = root.height)
    (hinv : Slot.Inv root.height root'.top root'.tags)
    (hup : Slot.Updates i v root.height root.top root.tags root'.top root'.tags) :
    root'.Inv ∧ ∀ j, root'.entry j = if j = i then v else root.entry j := by
  refine ⟨⟨hh ▸ hroot.height_le, hh ▸ hinv, ?_⟩, ?_⟩
  · intro j hj hent
    rw [hh] at hj hent
    rw [hup j] at hent
    split_ifs at hent with hji
    · rw [Nat.mod_eq_of_lt hj, Nat.mod_eq_of_lt hfit] at hji
      omega
    · exact hroot.real j hj hent
  · intro j
    unfold Root.entry
    rw [hh]
    by_cases hj : j < c.span root.height
    · rw [if_pos hj, if_pos hj, hup j, Nat.mod_eq_of_lt hj, Nat.mod_eq_of_lt hfit]
    · rw [if_neg hj, if_neg hj, if_neg]
      omega

/-- What `radix_tree_insert` leaves. -/
structure RootInsertPost (i : ℕ) (x : α) (root root' : Root c α) (status : Status) : Prop where
  inv : root'.Inv
  eexist : status = .eexist ↔ root.entry i ≠ none
  entry : ∀ j, root'.entry j =
    if status = .ok ∧ j = i then some (x, fun _ => false) else root.entry j

/-- Insertion into a tree that is high enough. -/
theorem insertLoop_root_spec (hroot : root.Inv) (hi : i < 2 ^ c.indexBits)
    (hfit : i < c.span root.height) (hm : AllBlank m.freed) :
    ∃ status slot m', insertLoop i x root.height root.top m = .ok (status, slot, m') ∧
      AllBlank m'.freed ∧
      ¬ (root.height = 0 ∧ status = .ok ∧ (rootTagGet root 0 || rootTagGet root 1) = true) ∧
      RootInsertPost i x root { root with rnode := slot.toRnode } status := by
  obtain ⟨status, slot, m', hrun, hm', hpost⟩ := insertLoop_spec i x hroot.slot hm
  have hnew : Root.top { root with rnode := slot.toRnode } = slot :=
    radixTreeIndirectToPtr_toRnode slot
  have hent : root.entry i = entry i root.height root.top root.tags := if_pos hfit
  refine ⟨status, slot, m', hrun, hm', ?_, ?_⟩
  · -- at height 0 the item goes into an empty root, whose tag bits are clear
    rintro ⟨h0, rfl, htag⟩
    have hslot := hroot.slot
    rw [h0] at hslot hpost
    have h0 : rootTagGet root 0 = false := hpost.untagged hslot 0
    have h1 : rootTagGet root 1 = false := hpost.untagged hslot 1
    simp [h0, h1] at htag
  · obtain ⟨hinv, hall⟩ := hroot.of_updates { root with rnode := slot.toRnode } hi hfit
      rfl (by rw [hnew]; exact hpost.inv) (by rw [hnew]; exact hpost.updates)
    refine ⟨hinv, by rw [hent]; exact hpost.eexist, fun j => ?_⟩
    rw [hall j, ← hent]
    by_cases hok : status = .ok
    · simp [hok]
    · by_cases hj : j = i
      · simp [hok, hj]
      · simp [hok, hj]

/-- `radix_tree_insert`, from any tree in order and for every behaviour of the
allocator. -/
theorem radixTreeInsert_spec (hroot : root.Inv) (hi : i < 2 ^ c.indexBits) (hm : AllBlank m.freed) :
    ∃ status root' m', radixTreeInsert root i x m = .ok (status, root', m') ∧
      AllBlank m'.freed ∧ RootInsertPost i x root root' status := by
  unfold radixTreeInsert
  rw [radixTreeMaxindex_eq hroot.height_le]
  simp only [bind, Except.bind, pure, Except.pure, c.maxindex_lt_iff hi]
  by_cases hout : c.span root.height ≤ i
  · obtain ⟨error, root1, m1, height, hrun, hm1, hfit, hpost⟩ :=
      radixTreeExtend_spec hroot hi hout hm
    rw [if_pos hout, hrun]
    have hnone : root.entry i = none := if_neg (not_lt.mpr hout)
    rcases hpost.status with ⟨rfl, hheight⟩ | rfl
    · obtain ⟨status, slot, m2, hloop, hm2, hbug, hins⟩ :=
        insertLoop_root_spec (x := x) hpost.inv hi (by rw [hheight]; exact hfit) hm1
      refine ⟨status, _, m2, ?_, hm2, hins.inv, ?_, ?_⟩
      · rw [Root.top] at hloop
        simp only [hloop, if_neg hbug, if_true]
      · rw [hins.eexist, hpost.entry]
      · intro j
        rw [hins.entry, hpost.entry]
    · refine ⟨.enomem, root1, m1, by simp, hm1, hpost.inv, by simp [hnone], ?_⟩
      simp [hpost.entry]
  · obtain ⟨status, slot, m2, hloop, hm2, hbug, hins⟩ :=
      insertLoop_root_spec hroot hi (not_le.mp hout) hm
    refine ⟨status, _, m2, ?_, hm2, hins⟩
    rw [Root.top] at hloop
    simp only [if_neg hout, hloop, if_neg hbug, if_true]

/-! ## Lookup -/

theorem slotAt_spec (hs : Slot.Inv h s b) :
    ∃ s', slotAt i h s = .ok s' ∧
      (entry i h s b = none ∧ s' = .null ∨ ∃ a tg, entry i h s b = some (a, tg) ∧
        s' = .item a) := by
  induction h generalizing s b with
  | zero =>
    rcases hs.cases_zero with rfl | ⟨a, rfl⟩
    · exact ⟨.null, rfl, .inl ⟨rfl, rfl⟩⟩
    · exact ⟨.item a, rfl, .inr ⟨a, b, rfl, rfl⟩⟩
  | succ h ih =>
    rcases hs.cases_succ with rfl | ⟨n, rfl⟩
    · exact ⟨.null, rfl, .inl ⟨rfl, rfl⟩⟩
    · exact ih ((inv_node.mp hs).2.2.2 _)

theorem radixTreeLookup_spec (hroot : root.Inv) (hi : i < 2 ^ c.indexBits) :
    radixTreeLookup root i = .ok ((root.entry i).map Prod.fst) := by
  have hle := hroot.height_le
  unfold radixTreeLookup Root.entry
  rcases hroot.cases with ⟨hr, htop⟩ | ⟨a, hr, htop, hh⟩ | ⟨n, h, hr, htop, hh, hslot⟩
  · simp [hr, htop]
  · -- the span of height 0 is the index 0
    simp only [hr, hh, htop, c.span_zero, entry_item]
    by_cases h0 : i = 0
    · simp [h0]
    · simp [h0, Nat.pos_of_ne_zero h0]
  · rw [hh] at hle
    simp only [hr, hh, (inv_node.mp hslot).1, radixTreeMaxindex_eq hle, bind, Except.bind, pure,
      Except.pure, htop, c.maxindex_lt_iff hi]
    by_cases hin : i < c.span (h + 1)
    · obtain ⟨s', hs', hcase⟩ := slotAt_spec hslot
      rw [if_neg (not_le.mpr hin), if_pos hin, hs']
      rcases hcase with ⟨hnone, rfl⟩ | ⟨a, tg, hsome, rfl⟩
      · rw [hnone]
        rfl
      · rw [hsome]
        rfl
    · rw [if_pos (not_lt.mp hin), if_neg hin]
      rfl

end Gp2xKernel.RadixTree
