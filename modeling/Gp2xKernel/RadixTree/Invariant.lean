import Gp2xKernel.RadixTree.Basic

/-!
# The invariant of the radix tree

A slot is read together with the tag bits its parent (or, at the top, the root's
`gfp_mask`) keeps for it.  That pair is what every level sees of the level
below, so the invariant and the content of the tree are both defined by
recursion on the height over such a pair, and the root is one more level.

The invariant allows the debris of failed insertions: nodes without any slot in
use, and a root whose height is larger than what it holds needs.

## Main definitions

* `Slot.entry`: the item stored for an index, with its tags
* `Slot.Inv`: heights, counts and tag summaries are exact below a slot
* `Node.Blank`: a node as the slab must hold it
* `Root.Inv`, `Root.entry`: the same for the whole tree

## Main results

* `Config.maxindex_lt_iff`: what `__maxindex` bounds
* `Slot.Inv.tag_iff`: a tag bit is set iff an item below carries the tag
-/

namespace Gp2xKernel.RadixTree

open Library Finset Nat Function

/-! ## Index arithmetic -/

namespace Config

variable (c : Config)

theorem offset_succ_val (i h : ℕ) : (c.offset i (h + 1)).val = digit c.mapShift h i := rfl

/-- The number of indices `h` levels address. -/
def span (h : ℕ) : ℕ := 2 ^ (h * c.mapShift)

theorem span_pos (h : ℕ) : 0 < c.span h := Nat.two_pow_pos _

@[simp] theorem span_zero : c.span 0 = 1 := by simp [span]

theorem span_succ (h : ℕ) : c.span (h + 1) = c.span h * c.mapSize := two_pow_succ_mul _ _

variable {h i : ℕ}

theorem span_mono {k : ℕ} (hk : h ≤ k) : c.span h ≤ c.span k :=
  Nat.pow_le_pow_right (by decide) (Nat.mul_le_mul_right _ hk)

/-- Two indices meet at the same place `h + 1` levels down iff they take the same
slot first and meet below it. -/
theorem mod_span_succ_iff (h i j : ℕ) :
    i % c.span (h + 1) = j % c.span (h + 1) ↔
      c.offset i (h + 1) = c.offset j (h + 1) ∧ i % c.span h = j % c.span h := by
  rw [Fin.ext_iff]
  exact mod_succ_eq_iff _ _ _ _

theorem offset_eq_slotZero (hi : i < c.span h) : c.offset i (h + 1) = c.slotZero :=
  Fin.ext (digit_eq_zero_of_lt hi)

theorem lt_span_of_offset (hi : i < c.span (h + 1))
    (ho : c.offset i (h + 1) = c.slotZero) : i < c.span h :=
  lt_of_digit_eq_zero hi (Fin.ext_iff.mp ho)

/-- An index below a slot, with the digit of the slot put in front. -/
theorem prepend_digit (hi : i < c.span h) (o : Fin c.mapSize) :
    i + c.span h * o.val < c.span (h + 1) ∧ c.offset (i + c.span h * o.val) (h + 1) = o := by
  constructor
  · rw [c.span_succ]
    calc i + c.span h * o.val < c.span h + c.span h * o.val := by omega
      _ = c.span h * (o.val + 1) := by ring
      _ ≤ c.span h * c.mapSize := mul_le_mul_left _ o.isLt
  · apply Fin.ext
    rw [c.offset_succ_val, digit_eq]
    change (i + c.span h * o.val) / c.span h % c.mapSize = o.val
    rw [add_mul_div_left _ _ (c.span_pos h), div_eq_of_lt hi, zero_add, mod_eq_of_lt o.isLt]

/-- `~0UL >> shift`, for a shift that leaves `a` bits. -/
theorem two_pow_sub_one_div (a b : ℕ) : (2 ^ (a + b) - 1) / 2 ^ b = 2 ^ a - 1 := by
  have ha := Nat.two_pow_pos a
  have hb := Nat.two_pow_pos b
  apply Nat.div_eq_of_lt_le
  · rw [Nat.pow_add, Nat.sub_mul]
    omega
  · rw [Nat.pow_add, Nat.sub_add_cancel ha]
    have := mul_pos ha hb
    omega

/-- `__maxindex(height)` is the largest index that `height` levels address, cut
off at the width of a word. -/
theorem maxindex_lt_iff (hi : i < 2 ^ c.indexBits) (h : ℕ) : c.maxindex h < i ↔ c.span h ≤ i := by
  unfold maxindex
  simp only []
  split_ifs with hneg hge
  · -- more levels than the word has bits: every index is addressed
    have hw : c.indexBits ≤ h * c.mapShift := by omega
    have := Nat.pow_le_pow_right (n := 2) (by decide) hw
    simp only [span]
    omega
  · have hw : h * c.mapShift = 0 := by omega
    simp only [span, hw]
    omega
  · obtain ⟨b, hb⟩ : ∃ b, c.indexBits = h * c.mapShift + b :=
      Nat.exists_eq_add_of_le (by omega)
    have hs : ((c.indexBits : ℤ) - (h * c.mapShift : ℕ)).toNat = b := by omega
    rw [hs, hb, shiftRight_eq_div_pow, two_pow_sub_one_div]
    have := c.span_pos h
    simp only [span] at this ⊢
    omega

/-- `RADIX_TREE_MAX_PATH` levels address every index. -/
theorem indexBits_le_maxPath_mul : c.indexBits ≤ c.maxPath * c.mapShift := by
  have hs := c.mapShift_pos
  have hdiv := div_add_mod (c.indexBits + c.mapShift - 1) c.mapShift
  have hmod := mod_lt (c.indexBits + c.mapShift - 1) hs
  have hcomm : c.maxPath * c.mapShift =
      c.mapShift * ((c.indexBits + c.mapShift - 1) / c.mapShift) := mul_comm _ _
  omega

theorem lt_span_maxPath (hi : i < 2 ^ c.indexBits) : i < c.span c.maxPath :=
  hi.trans_le (Nat.pow_le_pow_right (by decide) c.indexBits_le_maxPath_mul)

end Config

variable {c : Config} {α : Type}

theorem radixTreeMaxindex_eq {h : ℕ} (hh : h ≤ c.maxPath) :
    radixTreeMaxindex c h = .ok (c.maxindex h) :=
  if_pos (by omega)

/-! ## Slots and nodes -/

@[simp] theorem Slot.isNull_null : (Slot.null : Slot c α).isNull = true := rfl
@[simp] theorem Slot.isNull_item (a : α) : (Slot.item a : Slot c α).isNull = false := rfl
@[simp] theorem Slot.isNull_node (n : Node c α) : (Slot.node n).isNull = false := rfl

variable {s : Slot c α}

theorem Slot.isNull_iff : s.isNull = true ↔ s = .null := by
  cases s <;> simp

theorem Slot.isNull_eq_false_iff : s.isNull = false ↔ s ≠ .null := by
  cases s <;> simp

@[simp] theorem radixTreeIndirectToPtr_toRnode (s : Slot c α) :
    radixTreeIndirectToPtr s.toRnode = s := by
  cases s <;> rfl

/-- The number of slots in use. -/
def Node.used (n : Node c α) : ℕ := (Finset.univ.filter fun o => (n.slots o).isNull = false).card

/-- A node as the slab must hold it: no slot in use, no tag set.  The height is
whatever it was. -/
structure Node.Blank (n : Node c α) : Prop where
  count : n.count = 0
  slots : ∀ o, n.slots o = .null
  tags : ∀ t o, n.tags t o = false

theorem radixTreeNodeCtor_blank : Node.Blank (radixTreeNodeCtor : Node c α) :=
  ⟨rfl, fun _ => rfl, fun _ _ => rfl⟩

/-- What an allocation hands out is blank when everything freed was. -/
theorem radixTreeNodeAlloc_blank {m : Slab c α} (hm : ∀ n ∈ m.freed, Node.Blank n) :
    (∀ n, (radixTreeNodeAlloc m).1 = some n → Node.Blank n) ∧
      ∀ n ∈ (radixTreeNodeAlloc m).2.freed, Node.Blank n := by
  unfold radixTreeNodeAlloc
  split
  · exact ⟨by simp, hm⟩
  · exact ⟨by simp, hm⟩
  · refine ⟨?_, hm⟩
    rintro n ⟨⟩
    exact radixTreeNodeCtor_blank
  · refine ⟨fun n hn => hm n (List.mem_of_getElem? hn), fun n hn => hm n ?_⟩
    exact List.mem_of_mem_eraseIdx hn

theorem Node.Blank.used_eq_zero {n : Node c α} (hn : n.Blank) : n.used = 0 := by
  simp [Node.used, hn.slots]

/-- The tag bits a node keeps for one slot. -/
def Node.tagsAt (n : Node c α) (o : Fin c.mapSize) : Tag → Bool := fun t => n.tags t o

/-- Replacing the content of one slot changes the number in use by that slot
alone. -/
theorem card_used_update (slots : Fin c.mapSize → Slot c α) (o : Fin c.mapSize) (s : Slot c α) :
    (Finset.univ.filter fun p => (update slots o s p).isNull = false).card +
        (if (slots o).isNull then 0 else 1) =
      (Finset.univ.filter fun p => (slots p).isNull = false).card +
        (if s.isNull then 0 else 1) := by
  have hsplit (f : Fin c.mapSize → Slot c α) : (univ.filter fun p => (f p).isNull = false).card =
        ((univ.erase o).filter fun p => (f p).isNull = false).card +
          (if (f o).isNull then 0 else 1) := by
    conv_lhs => rw [← insert_erase (mem_univ o), filter_insert]
    cases h : (f o).isNull <;> simp
  have hrest : ((univ.erase o).filter fun p => (update slots o s p).isNull = false) =
      (univ.erase o).filter fun p => (slots p).isNull = false := by
    apply filter_congr
    intro p hp
    rw [update_of_ne (ne_of_mem_erase hp)]
  rw [hsplit (update slots o s), hsplit slots, hrest, update_self]
  omega

/-! ## Content and invariant below a slot -/

namespace Slot

/-- The item stored for index `i` below a slot at height `h`, with its tags; `b`
are the tag bits kept for the slot itself. -/
def entry (i : ℕ) : (h : ℕ) → Slot c α → (b : Tag → Bool) → Option (α × (Tag → Bool))
  | 0, .item a, b => some (a, b)
  | h + 1, .node n, _ =>
    entry i h (n.slots (c.offset i (h + 1))) (Node.tagsAt n (c.offset i (h + 1)))
  | _, _, _ => none

/-- Everything below a slot at height `h` is in order, and `b` are the right tag
bits for it. -/
def Inv : (h : ℕ) → Slot c α → (b : Tag → Bool) → Prop
  | _, .null, b => ∀ t, b t = false
  | 0, .item _, _ => True
  | h + 1, .node n, b =>
    n.height = h + 1 ∧ n.count = Node.used n ∧ (∀ t, b t = true ↔ ∃ o, n.tags t o = true) ∧
      ∀ o, Inv h (n.slots o) (Node.tagsAt n o)
  | 0, .node _, _ => False
  | _ + 1, .item _, _ => False

@[simp] theorem entry_null (i h : ℕ) (b : Tag → Bool) : entry i h (.null : Slot c α) b = none := by
  cases h <;> rfl

theorem isNull_of_entry {i h : ℕ} {b : Tag → Bool} {s : Slot c α} {e : α × (Tag → Bool)}
    (he : entry i h s b = some e) : s.isNull = false := by
  rw [isNull_eq_false_iff]
  rintro rfl
  rw [entry_null] at he
  cases he

@[simp] theorem entry_item (i : ℕ) (a : α) (b : Tag → Bool) :
    entry i 0 (.item a : Slot c α) b = some (a, b) := rfl

theorem entry_node (i h : ℕ) (n : Node c α) (b : Tag → Bool) :
    entry i (h + 1) (.node n) b =
      entry i h (n.slots (c.offset i (h + 1))) (Node.tagsAt n (c.offset i (h + 1))) := rfl

variable {h i : ℕ} {b : Tag → Bool} {s : Slot c α}

theorem inv_null : Inv h (.null : Slot c α) b ↔ ∀ t, b t = false := by
  cases h <;> rfl

theorem inv_node {n : Node c α} :
    Inv (h + 1) (.node n) b ↔
      n.height = h + 1 ∧ n.count = Node.used n ∧ (∀ t, b t = true ↔ ∃ o, n.tags t o = true) ∧
        ∀ o, Inv h (n.slots o) (Node.tagsAt n o) := Iff.rfl

/-- An empty slot carries no tag. -/
theorem Inv.tags_of_null {n : Node c α} {o : Fin c.mapSize} (hn : Inv (h + 1) (.node n) b)
    (hnull : n.slots o = .null) (t : Tag) : n.tags t o = false := by
  have hslot := (inv_node.mp hn).2.2.2 o
  rw [hnull, inv_null] at hslot
  exact hslot t

/-- A slot at height 0 is empty or holds an item. -/
theorem Inv.cases_zero (hs : Inv 0 s b) : s = .null ∨ ∃ a, s = .item a := by
  cases s with
  | null => exact .inl rfl
  | item a => exact .inr ⟨a, rfl⟩
  | node n => exact hs.elim

/-- A slot above height 0 is empty or holds a node. -/
theorem Inv.cases_succ (hs : Inv (h + 1) s b) : s = .null ∨ ∃ n, s = .node n := by
  cases s with
  | null => exact .inl rfl
  | item a => exact hs.elim
  | node n => exact .inr ⟨n, rfl⟩

/-- What is stored below a slot at height `h` depends on the index only through
its residue. -/
theorem entry_congr {j : ℕ} (hij : i % c.span h = j % c.span h) (s : Slot c α)
    (b : Tag → Bool) : entry i h s b = entry j h s b := by
  induction h generalizing s b with
  | zero => cases s <;> rfl
  | succ h ih =>
    obtain ⟨ho, hm⟩ := (c.mod_span_succ_iff h i j).mp hij
    cases s with
    | node n => rw [entry_node, entry_node, ho, ih hm]
    | null => simp
    | item a => rfl

/-- A tag bit is set exactly when an item below carries the tag; the index of the
item can be chosen below the span of the slot. -/
theorem Inv.tag_iff (hs : Inv h s b) (t : Tag) :
    b t = true ↔ ∃ i < c.span h, ∃ e, entry i h s b = some e ∧ e.2 t = true := by
  induction h generalizing s b with
  | zero =>
    rcases hs.cases_zero with rfl | ⟨a, rfl⟩
    · simp [inv_null.mp hs t]
    · simp
  | succ h ih =>
    rcases hs.cases_succ with rfl | ⟨n, rfl⟩
    · simp [inv_null.mp hs t]
    obtain ⟨-, -, htag, hsub⟩ := inv_node.mp hs
    rw [htag t]
    constructor
    · rintro ⟨o, ho⟩
      obtain ⟨i, hi, e, he, het⟩ := (ih (hsub o)).mp ho
      obtain ⟨hlt, hoff⟩ := c.prepend_digit hi o
      refine ⟨i + c.span h * o.val, hlt, e, ?_, het⟩
      rw [entry_node, hoff, ← he]
      exact entry_congr (add_mul_mod_self_left _ _ _) _ _
    · rintro ⟨i, -, e, he, het⟩
      refine ⟨c.offset i (h + 1), (ih (hsub _)).mpr ⟨i % c.span h, ?_, e, ?_, het⟩⟩
      · exact mod_lt _ (c.span_pos h)
      · rw [← he]
        exact entry_congr (mod_mod _ _) _ _

/-! ### Changing one index -/

/-- Below a slot at height `h`, the new slot stores `v` for index `i` and what
the old one stored for every other. -/
def Updates (i : ℕ) (v : Option (α × (Tag → Bool))) (h : ℕ) (s : Slot c α) (b : Tag → Bool)
    (s' : Slot c α) (b' : Tag → Bool) : Prop :=
  ∀ j, entry j h s' b' = if j % c.span h = i % c.span h then v else entry j h s b

theorem Updates.refl (i h : ℕ) (s : Slot c α) (b : Tag → Bool) :
    Updates i (entry i h s b) h s b s b := by
  intro j
  split_ifs with hj
  · exact entry_congr hj s b
  · rfl

/-- A node changed at the slot `i` goes through, and there only in what it stores
for `i`, is changed in what it stores for `i` only. -/
theorem Updates.node {v : Option (α × (Tag → Bool))} (n n' : Node c α)
    (hne : ∀ p, p ≠ c.offset i (h + 1) →
      n'.slots p = n.slots p ∧ Node.tagsAt n' p = Node.tagsAt n p)
    (hup : Updates i v h (n.slots (c.offset i (h + 1))) (Node.tagsAt n (c.offset i (h + 1)))
      (n'.slots (c.offset i (h + 1))) (Node.tagsAt n' (c.offset i (h + 1))))
    (b b' : Tag → Bool) : Updates i v (h + 1) (.node n) b (.node n') b' := by
  intro j
  rw [entry_node, entry_node]
  by_cases ho : c.offset j (h + 1) = c.offset i (h + 1)
  · rw [ho, hup j]
    simp [c.mod_span_succ_iff, ho]
  · obtain ⟨h1, h2⟩ := hne _ ho
    rw [h1, h2, if_neg]
    exact fun hj => ho ((c.mod_span_succ_iff h j i).mp hj).1

end Slot

/-! ## The whole tree -/

namespace Root

/-- The tag bits the root keeps for the whole tree. -/
def tags (root : Root c α) : Tag → Bool := fun t => rootTagGet root t

/-- The top of the tree, as a slot. -/
def top (root : Root c α) : Slot c α := radixTreeIndirectToPtr root.rnode

/-- The item stored for index `i`, with its tags. -/
def entry (root : Root c α) (i : ℕ) : Option (α × (Tag → Bool)) :=
  if i < c.span root.height then Slot.entry i root.height root.top root.tags else none

/-- The tree is in order.  The last clause says that the slots of the topmost
level beyond the width of a word are not used. -/
structure Inv (root : Root c α) : Prop where
  height_le : root.height ≤ c.maxPath
  slot : Slot.Inv root.height root.top root.tags
  real : ∀ i < c.span root.height, Slot.entry i root.height root.top root.tags ≠ none →
    i < 2 ^ c.indexBits

variable {root : Root c α}

/-- A root in order is empty, or holds one item, or a node. -/
theorem Inv.cases (hroot : root.Inv) :
    root.rnode = .null ∧ root.top = .null ∨
    (∃ a, root.rnode = .direct a ∧ root.top = .item a ∧ root.height = 0) ∨
    ∃ n h, root.rnode = .indirect n ∧ root.top = .node n ∧ root.height = h + 1 ∧
      Slot.Inv (h + 1) (.node n) root.tags := by
  have hslot := hroot.slot
  cases hr : root.rnode with
  | null => exact .inl ⟨rfl, by rw [top, hr]; rfl⟩
  | direct a =>
    have htop : root.top = .item a := by rw [top, hr]; rfl
    cases hh : root.height with
    | zero => exact .inr (.inl ⟨a, rfl, htop, rfl⟩)
    | succ h =>
      rw [htop, hh] at hslot
      exact hslot.elim
  | indirect n =>
    have htop : root.top = .node n := by rw [top, hr]; rfl
    rw [htop] at hslot
    cases hh : root.height with
    | zero =>
      rw [hh] at hslot
      exact hslot.elim
    | succ h => exact .inr (.inr ⟨n, h, rfl, htop, rfl, hh ▸ hslot⟩)

/-- A stored index is one the levels address. -/
theorem lt_span_of_entry {e : α × (Tag → Bool)} {i : ℕ} (he : root.entry i = some e) :
    i < c.span root.height ∧ Slot.entry i root.height root.top root.tags = some e := by
  rw [entry] at he
  split_ifs at he with hfit
  exact ⟨hfit, he⟩

end Root

end Gp2xKernel.RadixTree
