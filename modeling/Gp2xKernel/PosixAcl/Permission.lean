import Gp2xKernel.PosixAcl.Shape

/-!
# Who may do what

`posix_acl_permission` decides in one pass over the entries.  On an array of the right shape its
answer is stated here without the order of the entries: who somebody is determines which entries
count for them, and the mask limits all but the owner and the others.  Less permissions in the
entries then grant less.

## Main definitions

* `Acl.grants`: who may do what
* `Acl.Below`: the same entries, with fewer permissions

## Main results

* `permission_entries`: `posix_acl_permission` grants what the ACL grants
* `grants_of_below`: fewer permissions grant less
* `acl_permission_exact`: the rule, for every valid ACL
-/

namespace Gp2xKernel.PosixAcl

open List

/-! ## Permissions that grant -/

variable {p : BitVec 16} {want : BitVec 32}

theorem checkPerm_ok_iff : checkPerm p want = .ok () ↔ granted p want = true := by
  rw [checkPerm]
  split_ifs with h
  · simp [h]
  · simp [h]

theorem granted_iff :
    granted p want = true ↔ ∀ i, want.getLsbD i = true → i < 32 → p.getLsbD i = true := by
  rw [granted, decide_eq_true_eq]
  constructor
  · intro h i hwant hi
    have hbit : (p.setWidth 32 &&& want).getLsbD i = true := by rw [h, hwant]
    simpa [hwant, hi] using hbit
  · intro h
    refine BitVec.eq_of_getLsbD_eq fun i hi => ?_
    cases hwant : want.getLsbD i with
    | false => simp [hwant]
    | true => simp [hwant, hi, h i hwant hi]

theorem granted_and_iff {q : BitVec 16} :
    granted (p &&& q) want = true ↔ granted p want = true ∧ granted q want = true := by
  simp only [granted_iff, BitVec.getLsbD_and, Bool.and_eq_true]
  exact ⟨fun h => ⟨fun i hw hi => (h i hw hi).1, fun i hw hi => (h i hw hi).2⟩,
    fun h i hw hi => ⟨h.1 i hw hi, h.2 i hw hi⟩⟩

/-! ## The abstract meaning -/

namespace Acl

variable (a : Acl)

/-- The mask, if there is one, grants what is wanted. -/
def maskGrants (want : BitVec 32) : Prop := ∀ m ∈ a.mask, granted m.perm want = true

/-- The entry of a named user. -/
def userEntry (who : Subject) : Option Entry := a.users.find? fun e => e.id = who.fsuid

/-- The entries of the groups that a subject is in. -/
def groupEntries (who : Subject) : List Entry :=
  (if who.inGroup who.iGid then [a.group] else []) ++ a.groups.filter fun e => who.inGroup e.id

/-- What the entries for groups, and for all others, grant. -/
def groupsGrant (entries : List Entry) (want : BitVec 32) : Prop :=
  (∃ e ∈ entries, granted e.perm want = true) ∧ a.maskGrants want ∨
    entries = [] ∧ granted a.other.perm want = true

/-- **Who may do what**: the owner by their own entry, a named user by theirs and the mask, a
member of a group by the entry of any of their groups and the mask, and anybody else by the last
entry. -/
def grants (who : Subject) (want : BitVec 32) : Prop :=
  if who.iUid = who.fsuid then granted a.owner.perm want = true
  else
    (∃ e, a.userEntry who = some e ∧ granted e.perm want = true ∧ a.maskGrants want) ∨
      a.userEntry who = none ∧ a.groupsGrant (a.groupEntries who) want

end Acl

/-! ## The loop -/

theorem checkMask_skip {l : List Entry} (h : ∀ e ∈ l, e.tag ≠ .mask) (p : BitVec 16)
    (want : BitVec 32) (rest : List Entry) :
    checkMask p want (l ++ rest) = checkMask p want rest := by
  induction l with
  | nil => rfl
  | cons e l ih =>
    rw [cons_append, checkMask, if_neg (h e mem_cons_self)]
    exact ih fun e' he' => h e' (mem_cons_of_mem _ he')

namespace Acl

variable {a : Acl} {who : Subject} {want : BitVec 32}

variable {l : List Entry} {b : Acl}

/-- From any point before the mask on, the label `mask` finds it. -/
theorem checkMask_tail (h : ∀ e ∈ l, e.tag ≠ .mask) (p : BitVec 16) :
    checkMask p want (l ++ (a.mask.toList ++ [a.other])) = .ok () ↔
      granted p want = true ∧ a.maskGrants want := by
  rw [checkMask_skip h, maskGrants]
  cases hm : a.mask with
  | none =>
    have hother : a.other.tag ≠ .mask := by simp [a.other_tag]
    simp [checkMask, hother, checkPerm_ok_iff]
  | some m => simp [checkMask, a.mask_tag m hm, checkPerm_ok_iff, granted_and_iff]

theorem groups_not_mask (h : ∀ e ∈ l, e.tag = .group) : ∀ e ∈ l, e.tag ≠ .mask := by
  intro e he
  simp [h e he]

/-- The end of the array: only the entry for all others decides. -/
theorem permissionLoop_end (found : Bool) :
    permissionLoop who want (a.mask.toList ++ [a.other]) found = .ok () ↔
      found = false ∧ granted a.other.perm want = true := by
  have hother : permissionLoop who want [a.other] found = .ok () ↔
      found = false ∧ granted a.other.perm want = true := by
    rw [permissionLoop, a.other_tag]
    cases found <;> simp [checkPerm_ok_iff]
  cases hm : a.mask with
  | none => simpa using hother
  | some m =>
    rw [Option.toList_some, singleton_append, permissionLoop, a.mask_tag m hm]
    exact hother

/-- **The named groups**, when an earlier group may have been found that does not grant. -/
theorem permissionLoop_groups {groups : List Entry} (h : ∀ e ∈ groups, e.tag = .group)
    (found : Bool) :
    permissionLoop who want (groups ++ (a.mask.toList ++ [a.other])) found = .ok () ↔
      (∃ e ∈ groups.filter fun e => who.inGroup e.id, granted e.perm want = true) ∧
          a.maskGrants want ∨
        found = false ∧ (groups.filter fun e => who.inGroup e.id) = [] ∧
          granted a.other.perm want = true := by
  induction groups generalizing found with
  | nil => simp [permissionLoop_end]
  | cons e groups ih =>
    have hrest : ∀ e' ∈ groups, e'.tag = .group := fun e' he' => h e' (mem_cons_of_mem _ he')
    rw [cons_append, permissionLoop, h e mem_cons_self]
    by_cases hin : who.inGroup e.id = true
    · by_cases hgranted : granted e.perm want = true
      · simp [hin, hgranted, checkMask_tail (groups_not_mask hrest), filter_cons_of_pos,
          exists_eq_or_imp]
      · simp [hin, hgranted, ih hrest]
    · simp [hin, ih hrest]

/-- **The owning group** and the named groups. -/
theorem permissionLoop_group :
    permissionLoop who want (a.group :: (a.groups ++ (a.mask.toList ++ [a.other]))) false
        = .ok () ↔
      a.groupsGrant (a.groupEntries who) want := by
  rw [permissionLoop, a.group_tag, groupsGrant, groupEntries]
  by_cases hin : who.inGroup who.iGid = true
  · by_cases hgranted : granted a.group.perm want = true
    · simp [hin, hgranted, checkMask_tail (groups_not_mask a.groups_tag)]
    · simp [hin, hgranted, permissionLoop_groups a.groups_tag]
  · simp [hin, permissionLoop_groups a.groups_tag]

/-- The named users: the first entry with the right id decides. -/
theorem permissionLoop_users {users : List Entry} (h : ∀ e ∈ users, e.tag = .user) :
    permissionLoop who want
        (users ++ a.group :: (a.groups ++ (a.mask.toList ++ [a.other]))) false = .ok () ↔
      (∃ e, (users.find? fun e => e.id = who.fsuid) = some e ∧ granted e.perm want = true ∧
          a.maskGrants want) ∨
        (users.find? fun e => e.id = who.fsuid) = none ∧
          a.groupsGrant (a.groupEntries who) want := by
  induction users with
  | nil => simp [permissionLoop_group]
  | cons e users ih =>
    have hrest : ∀ e' ∈ users, e'.tag = .user := fun e' he' => h e' (mem_cons_of_mem _ he')
    rw [cons_append, permissionLoop, h e mem_cons_self]
    by_cases hid : e.id = who.fsuid
    · -- The mask comes after the other users, the owning group and the named groups.
      have htags : ∀ e' ∈ users ++ a.group :: a.groups, e'.tag ≠ .mask := by
        intro e' he'
        rcases mem_append.mp he' with hu | hg
        · simp [hrest e' hu]
        · rcases mem_cons.mp hg with rfl | hg
          · simp [a.group_tag]
          · simp [a.groups_tag e' hg]
      have hmask : checkMask e.perm want ((users ++ a.group :: a.groups) ++
          (a.mask.toList ++ [a.other])) = .ok () ↔ _ := checkMask_tail htags e.perm
      simp only [append_assoc, cons_append] at hmask
      simp [hid, hmask]
    · simp [hid, ih hrest]

/-- **`posix_acl_permission`** grants what the ACL grants. -/
theorem permission_entries :
    posixAclPermission who a.entries want = .ok () ↔ a.grants who want := by
  rw [posixAclPermission, entries, permissionLoop, a.owner_tag, grants]
  by_cases howner : who.iUid = who.fsuid
  · simp only [if_pos howner, checkPerm_ok_iff]
  · simp only [if_neg howner]
    exact permissionLoop_users a.users_tag

/-! ## Fewer permissions grant less -/

/-- What `q` grants, `p` grants as well. -/
def Within (q p : BitVec 16) : Prop := ∀ want, granted q want = true → granted p want = true

theorem within_refl (p : BitVec 16) : Within p p := fun _ h => h

/-- The same entries, with fewer permissions for the owner, the group class and the others. -/
structure Below (b a : Acl) : Prop where
  users : b.users = a.users
  groups : b.groups = a.groups
  owner : Within b.owner.perm a.owner.perm
  group : Within b.group.perm a.group.perm
  mask : ∀ want, b.maskGrants want → a.maskGrants want
  other : Within b.other.perm a.other.perm

theorem Below.groupEntries_nil (h : Below b a) (hnil : b.groupEntries who = []) :
    a.groupEntries who = [] := by
  rw [groupEntries, append_eq_nil_iff, h.groups] at hnil
  rw [groupEntries, append_eq_nil_iff]
  refine ⟨?_, hnil.2⟩
  split_ifs with hin
  · simp [hin] at hnil
  · rfl

theorem Below.groupEntries_granted (h : Below b a)
    (hb : ∃ e ∈ b.groupEntries who, granted e.perm want = true) :
    ∃ e ∈ a.groupEntries who, granted e.perm want = true := by
  obtain ⟨e, he, hgranted⟩ := hb
  rw [groupEntries, mem_append] at he
  rcases he with hgroup | hnamed
  · -- The owning group of `b` has fewer permissions than that of `a`.
    split_ifs at hgroup with hin
    · rw [mem_singleton] at hgroup
      subst hgroup
      exact ⟨a.group, by simp [groupEntries, hin], h.group want hgranted⟩
    · cases hgroup
  · rw [h.groups] at hnamed
    exact ⟨e, mem_append.mpr (.inr hnamed), hgranted⟩

/-- **Fewer permissions grant less.** -/
theorem grants_of_below (h : Below b a) (hb : b.grants who want) : a.grants who want := by
  rw [grants] at hb ⊢
  split_ifs at hb ⊢ with howner
  · exact h.owner want hb
  · have hentry : b.userEntry who = a.userEntry who := by rw [userEntry, userEntry, h.users]
    rw [hentry] at hb
    rcases hb with ⟨e, he, hgranted, hmask⟩ | ⟨hnone, hgroups⟩
    · exact .inl ⟨e, he, hgranted, h.mask want hmask⟩
    · refine .inr ⟨hnone, ?_⟩
      rcases hgroups with ⟨hentries, hmask⟩ | ⟨hnil, hother⟩
      · exact .inl ⟨h.groupEntries_granted hentries, h.mask want hmask⟩
      · exact .inr ⟨h.groupEntries_nil hnil, h.other want hother⟩

end Acl

/-! ## The rule -/

/-- What is granted for a mask is granted for each of its parts. -/
theorem granted_mono {part : BitVec 32} (hpart : part &&& want = part)
    (h : granted p want = true) : granted p part = true := by
  rw [granted_iff] at h ⊢
  intro i hi hlt
  rw [← hpart, BitVec.getLsbD_and, Bool.and_eq_true] at hi
  exact h i hi.2 hlt

namespace Acl

variable {a : Acl} {who : Subject} {want : BitVec 32}

theorem grants_mono {part : BitVec 32} (hpart : part &&& want = part) (h : a.grants who want) :
    a.grants who part := by
  have hmask (hm : a.maskGrants want) : a.maskGrants part := fun m hmem =>
    granted_mono hpart (hm m hmem)
  rw [grants] at h ⊢
  split_ifs at h ⊢ with howner
  · exact granted_mono hpart h
  · rcases h with ⟨e, he, hgranted, hm⟩ | ⟨hnone, ⟨⟨e, he, hgranted⟩, hm⟩ | ⟨hnil, hother⟩⟩
    · exact .inl ⟨e, he, granted_mono hpart hgranted, hmask hm⟩
    · exact .inr ⟨hnone, .inl ⟨⟨e, he, granted_mono hpart hgranted⟩, hmask hm⟩⟩
    · exact .inr ⟨hnone, .inr ⟨hnil, granted_mono hpart hother⟩⟩

end Acl

theorem checkPerm_ne_eio (p : BitVec 16) (want : BitVec 32) : checkPerm p want ≠ .error .eio := by
  rw [checkPerm]
  split_ifs <;> simp

theorem checkMask_ne_eio (p : BitVec 16) (want : BitVec 32) (l : List Entry) :
    checkMask p want l ≠ .error .eio := by
  induction l with
  | nil => exact checkPerm_ne_eio p want
  | cons m rest ih =>
    rw [checkMask]
    split_ifs
    · exact checkPerm_ne_eio _ want
    · exact ih

/-- The entry for all others ends the loop, if no entry before it has a tag that is unknown. -/
theorem permissionLoop_ne_eio {l : List Entry} {o : Entry} (hl : ∀ e ∈ l, e.tag ≠ .unknown)
    (ho : o.tag = .other) (who : Subject) (want : BitVec 32) (found : Bool) :
    permissionLoop who want (l ++ [o]) found ≠ .error .eio := by
  induction l generalizing found with
  | nil =>
    rw [nil_append, permissionLoop, ho]
    cases found <;> simp [checkPerm_ne_eio]
  | cons e l ih =>
    obtain ⟨he, hl⟩ := forall_mem_cons.mp hl
    rw [cons_append, permissionLoop]
    cases htag : e.tag with
    | unknown => exact absurd htag he
    | other => cases found <;> simp [checkPerm_ne_eio]
    | mask => exact ih hl found
    | userObj | user | groupObj | group =>
      split_ifs <;> first | exact ih hl _ | apply checkPerm_ne_eio | apply checkMask_ne_eio

/-- **Permission checks follow the rule**: for a valid ACL the check never runs off the end of the
array, it grants what the ACL grants, and with a mask it grants each part of it. -/
theorem acl_permission_exact {acl : List Entry} (hvalid : posixAclValid acl = .ok ()) :
    ∃ a : Acl, acl = a.entries ∧ ∀ who want,
      posixAclPermission who acl want ≠ .error .eio ∧
      (posixAclPermission who acl want = .ok () ↔ a.grants who want) ∧
      ∀ part, part &&& want = part → posixAclPermission who acl want = .ok () →
        posixAclPermission who acl part = .ok () := by
  obtain ⟨a, rfl⟩ := exists_acl_of_valid hvalid
  refine ⟨a, rfl, fun who want => ⟨?_, Acl.permission_entries, fun part hpart h => ?_⟩⟩
  · have hknown : ∀ e ∈ a.owner :: (a.users ++ a.group :: (a.groups ++ a.mask.toList)),
        e.tag ≠ .unknown := by
      simp only [mem_cons, mem_append, Option.mem_toList]
      rintro e (rfl | he | rfl | he | he)
      · simp [a.owner_tag]
      · simp [a.users_tag e he]
      · simp [a.group_tag]
      · simp [a.groups_tag e he]
      · simp [a.mask_tag e he]
    simpa [Acl.entries, posixAclPermission] using
      permissionLoop_ne_eio hknown a.other_tag who want false
  · exact Acl.permission_entries.mpr (Acl.grants_mono hpart (Acl.permission_entries.mp h))

/-- An ACL that names a user and a group. -/
def sampleAcl : List Entry :=
  [⟨.userObj, 7, ACL_UNDEFINED_ID⟩, ⟨.user, 6, 100⟩, ⟨.groupObj, 5, ACL_UNDEFINED_ID⟩,
    ⟨.group, 7, 20⟩, ⟨.mask, 6, ACL_UNDEFINED_ID⟩, ⟨.other, 4, ACL_UNDEFINED_ID⟩]

theorem acl_permission_exact_sample :
    posixAclValid sampleAcl = .ok () ∧
      ∃ a : Acl, sampleAcl = a.entries ∧ ∀ who want,
        posixAclPermission who sampleAcl want = .ok () ↔ a.grants who want := by
  obtain ⟨a, ha, h⟩ := acl_permission_exact (show posixAclValid sampleAcl = .ok () from rfl)
  exact ⟨rfl, a, ha, fun who want => (h who want).2.1⟩

end Gp2xKernel.PosixAcl
