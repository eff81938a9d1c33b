import Gp2xKernel.PosixAcl.Basic
import Mathlib.Tactic.IntervalCases

/-!
# The ACLs that are valid

`posix_acl_valid` accepts exactly the arrays of one shape: the owner, named users, the owning
group, named groups, a mask that may be missing when nobody is named, and all others.  The other
functions are evaluated once and for all on this shape; what they compute is then a matter of the
permissions of four entries.

## Main definitions

* `Acl`: an ACL of the shape, `Acl.entries`: its array
* `Acl.setOwner`, `Acl.setOther`, `Acl.setClass`: change the permissions of one entry
* `Acl.classPerm`: the permissions of the group class

## Main results

* `exists_acl_of_valid`: a valid array is that of an `Acl`
* `validLoop_iff_clear`: permissions in range and the right tags and ids make an array valid
* `equivMode_entries`, `createMasq_entries`, `chmodMasq_entries`: the functions on the shape
-/

namespace Gp2xKernel.PosixAcl

open List

/-! ## The shape -/

/-- The ACLs of the shape. -/
structure Acl where
  owner : Entry
  users : List Entry
  group : Entry
  groups : List Entry
  mask : Option Entry
  other : Entry
  owner_tag : owner.tag = .userObj
  users_tag : ∀ e ∈ users, e.tag = .user
  group_tag : group.tag = .groupObj
  groups_tag : ∀ e ∈ groups, e.tag = .group
  mask_tag : ∀ e ∈ mask, e.tag = .mask
  other_tag : other.tag = .other
  named : mask = none → users = [] ∧ groups = []

namespace Acl

/-- The array of entries. -/
def entries (a : Acl) : List Entry :=
  a.owner :: (a.users ++ a.group :: (a.groups ++ (a.mask.toList ++ [a.other])))

/-- Change the permissions of the owner. -/
def setOwner (a : Acl) (p : BitVec 16) : Acl := { a with owner := { a.owner with perm := p } }

/-- Change the permissions of all others. -/
def setOther (a : Acl) (p : BitVec 16) : Acl := { a with other := { a.other with perm := p } }

/-- Change the permissions of the owning group. -/
def setGroup (a : Acl) (p : BitVec 16) : Acl := { a with group := { a.group with perm := p } }

/-- Change the permissions of the mask, if there is one. -/
def setMask (a : Acl) (p : BitVec 16) : Acl :=
  { a with
    mask := a.mask.map fun e => { e with perm := p }
    mask_tag := by
      intro e he
      obtain ⟨m, hm, rfl⟩ := Option.map_eq_some_iff.mp he
      exact a.mask_tag m hm
    named := fun h => a.named (Option.map_eq_none_iff.mp h) }

/-- Change the permissions of the group class. -/
def setClass (a : Acl) (p : BitVec 16) : Acl := if a.mask.isSome then a.setMask p else a.setGroup p

/-- The permissions of the group class. -/
def classPerm (a : Acl) : BitVec 16 := (a.mask.getD a.group).perm

/-- The number of the entry that holds the permissions of the group class. -/
def classIndex (a : Acl) : ℕ :=
  if a.mask.isSome then a.users.length + (a.groups.length + 1) + 1 else a.users.length + 1

/-- The nine bits of the mode that the ACL stands for. -/
def modeBits (a : Acl) : Mode :=
  (a.owner.perm &&& S_IRWXO) <<< 6 ||| (a.classPerm &&& S_IRWXO) <<< 3 |||
    (a.other.perm &&& S_IRWXO)

end Acl

/-! ## Valid arrays have the shape -/

variable {l : List Entry} {c : Check}

/-- Nothing may follow the entry for all others. -/
theorem validLoop_done (hc : c.state = .done) (h : validLoop l c = .ok ()) : l = [] := by
  cases l with
  | nil => rfl
  | cons pa rest =>
    rw [validLoop] at h
    cases htag : pa.tag <;> simp [checkTag, namedEntry, htag, hc, Except.bind] at h

theorem validLoop_other (hc : c.state = .other)
    (h : validLoop l c = .ok ()) : ∃ o : Entry, o.tag = .other ∧ l = [o] := by
  cases l with
  | nil => simp [validLoop, hc] at h
  | cons pa rest =>
    rw [validLoop] at h
    split_ifs at h
    cases htag : pa.tag <;> simp [checkTag, namedEntry, htag, hc, Except.bind] at h
    obtain rfl := validLoop_done rfl h
    exact ⟨pa, htag, rfl⟩

/-- What follows the owning group. -/
theorem validLoop_group (hc : c.state = .group) (h : validLoop l c = .ok ()) :
    ∃ (groups : List Entry) (mask : Option Entry) (o : Entry),
      l = groups ++ (mask.toList ++ [o]) ∧ (∀ e ∈ groups, e.tag = .group) ∧
        (∀ e ∈ mask, e.tag = .mask) ∧ o.tag = .other ∧
        (mask = none → groups = [] ∧ c.needsMask = false) := by
  induction l generalizing c with
  | nil => simp [validLoop, hc] at h
  | cons pa rest ih =>
    rw [validLoop] at h
    split_ifs at h
    cases htag : pa.tag <;>
      simp only [checkTag, namedEntry, htag, hc, Except.bind, reduceCtorEq, if_false, ne_eq,
        not_false_eq_true, if_true, true_and, false_or] at h
    case group =>
      split_ifs at h
      obtain ⟨groups, mask, o, rfl, hgroups, hmask, ho, hnone⟩ := ih rfl h
      refine ⟨pa :: groups, mask, o, rfl, ?_, hmask, ho, ?_⟩
      · simpa [htag] using hgroups
      · intro hm
        exact absurd (hnone hm).2 (by simp)
    case mask =>
      obtain ⟨o, ho, rfl⟩ := validLoop_other rfl h
      exact ⟨[], some pa, o, rfl, by simp, by simpa using htag, ho, by simp⟩
    case other =>
      split_ifs at h with hneeds
      obtain rfl := validLoop_done rfl h
      exact ⟨[], none, pa, rfl, by simp, by simp, htag, fun _ => ⟨rfl, hneeds⟩⟩

/-- What follows the owner. -/
theorem validLoop_user (hc : c.state = .user) (h : validLoop l c = .ok ()) :
    ∃ (users : List Entry) (g : Entry) (rest : List Entry) (c' : Check), l = users ++ g :: rest ∧
      (∀ e ∈ users, e.tag = .user) ∧ g.tag = .groupObj ∧ c'.state = .group ∧
        validLoop rest c' = .ok () ∧ (c'.needsMask = false → users = [] ∧ c.needsMask = false) := by
  induction l generalizing c with
  | nil => simp [validLoop, hc] at h
  | cons pa rest ih =>
    rw [validLoop] at h
    split_ifs at h
    cases htag : pa.tag <;>
      simp only [checkTag, namedEntry, htag, hc, Except.bind, reduceCtorEq, if_false, ne_eq,
        not_false_eq_true, if_true, false_and, or_self] at h
    case user =>
      split_ifs at h
      obtain ⟨users, g, rest, c', rfl, husers, hg, hc', hrest, hneeds⟩ := ih rfl h
      refine ⟨pa :: users, g, rest, c', rfl, ?_, hg, hc', hrest, ?_⟩
      · simpa [htag] using husers
      · intro hm
        exact absurd (hneeds hm).2 (by simp)
    case groupObj => exact ⟨[], pa, rest, _, rfl, by simp, htag, rfl, h, fun hm => ⟨rfl, hm⟩⟩

/-- **A valid array is the array of an ACL.** -/
theorem exists_acl_of_valid (h : posixAclValid l = .ok ()) : ∃ a : Acl, l = a.entries := by
  cases l with
  | nil => cases h
  | cons pa rest =>
    rw [posixAclValid, validLoop] at h
    split_ifs at h
    cases htag : pa.tag <;>
      simp only [checkTag, namedEntry, htag, Except.bind, reduceCtorEq, if_false, ne_eq,
        not_false_eq_true, if_true, false_and, or_self] at h
    obtain ⟨users, g, _, c', rfl, husers, hg, hc', hrest, hneeds⟩ := validLoop_user rfl h
    obtain ⟨groups, mask, o, rfl, hgroups, hmask, ho, hnone⟩ := validLoop_group hc' hrest
    exact ⟨⟨pa, users, g, groups, mask, o, htag, husers, hg, hgroups, hmask, ho,
      fun hm => ⟨(hneeds (hnone hm).2).1, (hnone hm).1⟩⟩, rfl⟩

/-! ## Validity and permissions -/

/-- The permissions of an entry are read, write and execute only. -/
def InRange (p : BitVec 16) : Prop := p &&& ~~~aclAll = 0

/-- An entry without permissions. -/
def Entry.clear (e : Entry) : Entry := { e with perm := 0 }

/-- **Validity** is a matter of tags and ids, and of permissions in range. -/
theorem validLoop_iff_clear (l : List Entry) (c : Check) :
    validLoop l c = .ok () ↔
      (∀ e ∈ l, InRange e.perm) ∧ validLoop (l.map Entry.clear) c = .ok () := by
  induction l generalizing c with
  | nil => simp
  | cons pa rest ih =>
    rw [map_cons, validLoop, validLoop, forall_mem_cons]
    have hzero : ¬ (Entry.clear pa).perm &&& ~~~aclAll ≠ 0 := by simp [Entry.clear]
    have htag : checkTag c pa.clear = checkTag c pa := by
      cases h : pa.tag <;> simp [checkTag, namedEntry, Entry.clear, h]
    rw [if_neg hzero, htag]
    by_cases hrange : pa.perm &&& ~~~aclAll ≠ 0
    · rw [if_pos hrange]
      constructor
      · intro h
        cases h
      · rintro ⟨⟨hpa, -⟩, -⟩
        exact absurd hpa hrange
    · rw [if_neg hrange]
      have hpa : InRange pa.perm := not_not.mp hrange
      cases hcheck : checkTag c pa with
      | error e => simp [Except.bind]
      | ok c' => simp only [Except.bind, ih c', hpa, true_and]

namespace Acl

variable (a : Acl) (p : BitVec 16)

theorem setOther_clear : (a.setOther p).entries.map Entry.clear = a.entries.map Entry.clear := by
  simp [entries, setOther, Entry.clear]

theorem setClass_clear : (a.setClass p).entries.map Entry.clear = a.entries.map Entry.clear := by
  cases h : a.mask <;> simp [entries, setClass, setMask, setGroup, Entry.clear, h]

/-- The permissions of all entries of the array are in range. -/
def Ranged : Prop := ∀ e ∈ a.entries, InRange e.perm

variable {a}

theorem ranged_iff :
    a.Ranged ↔ InRange a.owner.perm ∧ (∀ e ∈ a.users, InRange e.perm) ∧ InRange a.group.perm ∧
      (∀ e ∈ a.groups, InRange e.perm) ∧ (∀ e ∈ a.mask, InRange e.perm) ∧
      InRange a.other.perm := by
  simp only [Ranged, entries, forall_mem_cons, forall_mem_append, Option.mem_toList,
    Option.mem_def, not_mem_nil, false_implies, implies_true, and_true]

variable {p : BitVec 16}

theorem Ranged.setOwner (h : a.Ranged) (hp : InRange p) : (a.setOwner p).Ranged := by
  rw [ranged_iff] at h ⊢
  exact ⟨hp, h.2⟩

theorem Ranged.setOther (h : a.Ranged) (hp : InRange p) : (a.setOther p).Ranged := by
  rw [ranged_iff] at h ⊢
  exact ⟨h.1, h.2.1, h.2.2.1, h.2.2.2.1, h.2.2.2.2.1, hp⟩

theorem Ranged.setClass (h : a.Ranged) (hp : InRange p) : (a.setClass p).Ranged := by
  rw [Acl.setClass]
  rw [ranged_iff] at h
  split_ifs
  · rw [ranged_iff]
    refine ⟨h.1, h.2.1, h.2.2.1, h.2.2.2.1, ?_, h.2.2.2.2.2⟩
    intro e he
    obtain ⟨m, -, rfl⟩ := Option.map_eq_some_iff.mp he
    exact hp
  · rw [ranged_iff]
    exact ⟨h.1, h.2.1, hp, h.2.2.2⟩

theorem Ranged.classPerm (h : a.Ranged) : InRange a.classPerm := by
  rw [ranged_iff] at h
  rw [Acl.classPerm]
  cases hm : a.mask with
  | none => exact h.2.2.1
  | some m => exact h.2.2.2.2.1 m hm

end Acl

/-! ## The mode of an ACL -/

/-- Named entries do not change the mode. -/
theorem equivLoop_named (h : ∀ e ∈ l, e.tag = .user ∨ e.tag = .group) (rest : List Entry)
    (s : Equiv) :
    equivLoop (l ++ rest) s = equivLoop rest { s with notEquiv := s.notEquiv || !l.isEmpty } := by
  induction l generalizing s with
  | nil => simp
  | cons pa l ih =>
    have hstep : equivStep s pa = .ok { s with notEquiv := true } := by
      rcases h pa mem_cons_self with htag | htag <;> rw [equivStep, htag]
    rw [cons_append, equivLoop, hstep, Except.bind, ih fun e he => h e (mem_cons_of_mem _ he)]
    simp

namespace Acl

variable (a : Acl)

theorem users_named : ∀ e ∈ a.users, e.tag = .user ∨ e.tag = .group :=
  fun e he => .inl (a.users_tag e he)

theorem groups_named : ∀ e ∈ a.groups, e.tag = .user ∨ e.tag = .group :=
  fun e he => .inr (a.groups_tag e he)

/-- **`posix_acl_equiv_mode`** yields the nine bits of the ACL, and 1 if there is a mask. -/
theorem equivMode_entries (modeP : Mode) :
    posixAclEquivMode a.entries modeP =
      .ok ((modeP &&& ~~~S_IRWXUGO) ||| a.modeBits, a.mask.isSome) := by
  have hloop : equivLoop a.entries ⟨0, false⟩ = .ok ⟨a.modeBits, a.mask.isSome⟩ := by
    rw [entries, equivLoop, equivStep, a.owner_tag, Except.bind, equivLoop_named a.users_named,
      equivLoop, equivStep, a.group_tag, Except.bind, equivLoop_named a.groups_named, modeBits,
      classPerm]
    cases hm : a.mask with
    | none =>
      obtain ⟨husers, hgroups⟩ := a.named hm
      simp [equivLoop, equivStep, a.other_tag, Except.bind, husers, hgroups]
    | some m =>
      have hmtag := a.mask_tag m hm
      simp only [Option.toList_some, cons_append, nil_append, equivLoop, equivStep,
        hmtag, a.other_tag]
      refine congrArg (fun bits => Except.ok (Equiv.mk bits true))
        (BitVec.eq_of_getLsbD_eq fun i hi => ?_)
      interval_cases i <;> simp [S_IRWXO, S_IRWXG]
  rw [posixAclEquivMode, hloop]
  rfl

/-! ## Changing an ACL -/

variable {l : List Entry} (mode : Mode)

section

variable (h : ∀ e ∈ l, e.tag = .user ∨ e.tag = .group)
include h

theorem masqLoop_create_named (rest : List Entry)
    (s : Masq) :
    masqLoop createStep (l ++ rest) s =
      masqLoop createStep rest
        { s with entries := s.entries ++ l, notEquiv := s.notEquiv || !l.isEmpty } := by
  induction l generalizing s with
  | nil => simp
  | cons pa l ih =>
    have hstep : createStep s pa = .ok { s.push pa with notEquiv := true } := by
      rcases h pa mem_cons_self with htag | htag <;> rw [createStep, htag]
    rw [cons_append, masqLoop, hstep, Except.bind, ih fun e he => h e (mem_cons_of_mem _ he)]
    simp [Masq.push]

theorem masqLoop_chmod_named (rest : List Entry)
    (s : Masq) :
    masqLoop chmodStep (l ++ rest) s =
      masqLoop chmodStep rest { s with entries := s.entries ++ l } := by
  induction l generalizing s with
  | nil => simp
  | cons pa l ih =>
    have hstep : chmodStep s pa = .ok (s.push pa) := by
      rcases h pa mem_cons_self with htag | htag <;> rw [chmodStep, htag]
    rw [cons_append, masqLoop, hstep, Except.bind, ih fun e he => h e (mem_cons_of_mem _ he)]
    simp [Masq.push]

end

/-- The number of the mask in the array. -/
def maskIndex : Option ℕ := a.mask.map fun _ => a.users.length + (a.groups.length + 1) + 1

theorem maskIndex_or : a.maskIndex.or (some (a.users.length + 1)) = some a.classIndex := by
  cases hm : a.mask <;> simp [maskIndex, classIndex, hm]

theorem getElem?_classIndex : a.entries[a.classIndex]? = some (a.mask.getD a.group) := by
  cases hm : a.mask with
  | none => simp [entries, classIndex, hm]
  | some m =>
    simp only [entries, classIndex, hm, Option.isSome_some, if_true, List.getElem?_cons_succ]
    rw [List.getElem?_append_right (by omega), Nat.add_sub_cancel_left, List.getElem?_cons_succ,
      List.getElem?_append_right le_rfl, Nat.sub_self]
    rfl

theorem set_classIndex (p : BitVec 16) :
    a.entries.set a.classIndex { a.mask.getD a.group with perm := p } = (a.setClass p).entries := by
  cases hm : a.mask with
  | none => simp [entries, classIndex, setClass, setGroup, hm]
  | some m =>
    simp only [entries, classIndex, setClass, setMask, hm, Option.isSome_some, if_true,
      set_cons_succ]
    rw [set_append_right _ _ (by omega), Nat.add_sub_cancel_left, set_cons_succ,
      set_append_right _ _ le_rfl, Nat.sub_self]
    rfl

/-- The mode after the owner has been limited. -/
def ownerMode (mode : Mode) : Mode :=
  limitMode mode (limitPerm a.owner.perm mode 6) 6 S_IRWXU

/-- The mode after all others have been limited as well. -/
def otherMode (mode : Mode) : Mode :=
  limitMode (a.ownerMode mode) (limitPerm a.other.perm (a.ownerMode mode) 0) 0 S_IRWXO

/-- The mode after the group class has been limited as well. -/
def createMode (mode : Mode) : Mode :=
  limitMode (a.otherMode mode) (limitPerm a.classPerm (a.otherMode mode) 3) 3 S_IRWXG

/-- The ACL that `posix_acl_create_masq` makes. -/
def created (mode : Mode) : Acl :=
  ((a.setOwner (limitPerm a.owner.perm mode 6)).setOther
    (limitPerm a.other.perm (a.ownerMode mode) 0)).setClass
      (limitPerm a.classPerm (a.otherMode mode) 3)

theorem masqLoop_create :
    masqLoop createStep a.entries ⟨[], mode, none, none, false⟩ =
      .ok ⟨((a.setOwner (limitPerm a.owner.perm mode 6)).setOther
          (limitPerm a.other.perm (a.ownerMode mode) 0)).entries,
        a.otherMode mode, some (a.users.length + 1), a.maskIndex, a.mask.isSome⟩ := by
  rw [entries, masqLoop, createStep, a.owner_tag, Except.bind, masqLoop_create_named a.users_named,
    masqLoop, createStep, a.group_tag, Except.bind, masqLoop_create_named a.groups_named]
  cases hm : a.mask with
  | none =>
    obtain ⟨husers, hgroups⟩ := a.named hm
    simp [masqLoop, createStep, a.other_tag, Except.bind, husers, hgroups, Masq.limit, Masq.push,
      entries, setOwner, setOther, hm, maskIndex, otherMode, ownerMode]
  | some m =>
    have hmtag := a.mask_tag m hm
    simp [masqLoop, createStep, a.other_tag, Except.bind, hmtag, Masq.limit, Masq.push,
      entries, setOwner, setOther, hm, maskIndex, otherMode, ownerMode]

/-- **`posix_acl_create_masq`** on the shape. -/
theorem createMasq_entries :
    posixAclCreateMasq a.entries mode =
      .ok ((a.created mode).entries, (mode &&& ~~~S_IRWXUGO) ||| a.createMode mode,
        a.mask.isSome) := by
  set b := (a.setOwner (limitPerm a.owner.perm mode 6)).setOther
    (limitPerm a.other.perm (a.ownerMode mode) 0) with hb
  have hindex : b.classIndex = a.classIndex := rfl
  rw [posixAclCreateMasq, masqLoop_create, Except.bind, createFinish, Masq.groupClass, maskIndex_or,
    Option.bind_some, ← hb, ← hindex, b.getElem?_classIndex]
  simp only [Option.map_some, b.set_classIndex]
  rfl

/-- The ACL that `posix_acl_chmod_masq` makes. -/
def chmodded (mode : Mode) : Acl :=
  ((a.setOwner ((mode &&& S_IRWXU) >>> 6)).setOther (mode &&& S_IRWXO)).setClass
    ((mode &&& S_IRWXG) >>> 3)

theorem masqLoop_chmod :
    masqLoop chmodStep a.entries ⟨[], mode, none, none, false⟩ =
      .ok ⟨((a.setOwner ((mode &&& S_IRWXU) >>> 6)).setOther (mode &&& S_IRWXO)).entries,
        mode, some (a.users.length + 1), a.maskIndex, false⟩ := by
  rw [entries, masqLoop, chmodStep, a.owner_tag, Except.bind, masqLoop_chmod_named a.users_named,
    masqLoop, chmodStep, a.group_tag, Except.bind, masqLoop_chmod_named a.groups_named]
  cases hm : a.mask with
  | none =>
    simp [masqLoop, chmodStep, a.owner_tag, a.other_tag, Except.bind, Masq.push, entries,
      setOwner, setOther, hm, maskIndex]
  | some m =>
    have hmtag := a.mask_tag m hm
    simp [masqLoop, chmodStep, a.owner_tag, a.other_tag, Except.bind, hmtag, Masq.push, entries,
      setOwner, setOther, hm, maskIndex]

/-- **`posix_acl_chmod_masq`** on the shape. -/
theorem chmodMasq_entries : posixAclChmodMasq a.entries mode = .ok (a.chmodded mode).entries := by
  set b := (a.setOwner ((mode &&& S_IRWXU) >>> 6)).setOther (mode &&& S_IRWXO) with hb
  have hindex : b.classIndex = a.classIndex := rfl
  rw [posixAclChmodMasq, masqLoop_chmod, Except.bind, chmodFinish, Masq.groupClass, maskIndex_or,
    Option.bind_some, ← hb, ← hindex, b.getElem?_classIndex]
  simp only [Option.map_some, b.set_classIndex]
  rfl

end Acl

end Gp2xKernel.PosixAcl
