import Gp2xKernel.PosixAcl.Permission

/-!
# ACLs and modes stay consistent

Nine bits of the mode of a file repeat what its ACL says of the owner, the group class and the
others.  The functions that change an ACL keep the two in agreement, keep the ACL valid, and the
one that makes the ACL of a new file grants nobody more than the default ACL did.

## Main results

* `created_modeBits`, `chmodded_modeBits`: the nine bits after a change
* `created_below`: an ACL for a new file has fewer permissions
* `acl_mode_consistent`: all laws together
-/

namespace Gp2xKernel.PosixAcl

open BitVec

/-- `q` with the nine bits of `m`. -/
def withNineBits (q m : Mode) : Mode := (q &&& ~~~S_IRWXUGO) ||| (m &&& S_IRWXUGO)

/-! ## Permissions in range -/

variable {p : BitVec 16} (m : Mode)

theorem inRange_and_left (h : InRange p) (q : BitVec 16) : InRange (p &&& q) := by
  rw [InRange, BitVec.and_assoc, BitVec.and_comm q, ← BitVec.and_assoc, h]
  exact zero_and

theorem inRange_limitPerm (h : InRange p) (m : Mode) (shift : ℕ) : InRange (limitPerm p m shift) :=
  inRange_and_left h _

theorem inRange_and_all : InRange (m &&& aclAll) := by
  rw [BitVec.and_comm]
  exact inRange_and_left (by rw [InRange]; rfl) m

theorem inRange_bits {mask : Mode} {shift : ℕ} (h : mask >>> shift = aclAll) :
    InRange ((m &&& mask) >>> shift) := by
  rw [ushiftRight_and_distrib, h]
  exact inRange_and_all _

/-! ## The nine bits -/

/-- The bits of a mode, shifted down to permissions and up again. -/
theorem nineBits_eq :
    ((m &&& S_IRWXU) >>> 6 &&& S_IRWXO) <<< 6 ||| ((m &&& S_IRWXG) >>> 3 &&& S_IRWXO) <<< 3 |||
        (m &&& S_IRWXO &&& S_IRWXO) = m &&& S_IRWXUGO := by
  refine eq_of_getLsbD_eq fun i hi => ?_
  interval_cases i <;> simp [S_IRWXU, S_IRWXG, S_IRWXO, S_IRWXUGO]

namespace Acl

variable {a : Acl}

variable (p : BitVec 16) (m : Mode)

@[simp] theorem setClass_owner : (a.setClass p).owner = a.owner := by
  rw [setClass]
  split_ifs <;> rfl

@[simp] theorem setClass_other : (a.setClass p).other = a.other := by
  rw [setClass]
  split_ifs <;> rfl

@[simp] theorem setClass_classPerm : (a.setClass p).classPerm = p := by
  cases hm : a.mask <;> simp [setClass, setMask, setGroup, classPerm, hm]

@[simp] theorem setClass_isSome : (a.setClass p).mask.isSome = a.mask.isSome := by
  cases hm : a.mask <;> simp [setClass, setMask, setGroup, hm]

/-- **The nine bits after `posix_acl_chmod_masq`** are those of the mode. -/
theorem chmodded_modeBits : (a.chmodded m).modeBits = m &&& S_IRWXUGO := by
  rw [modeBits, chmodded, setClass_classPerm, setClass_owner, setClass_other]
  exact nineBits_eq m

/-- **The nine bits after `posix_acl_create_masq`** are those that it leaves in the mode. -/
theorem created_modeBits :
    (a.created m).modeBits = ((m &&& ~~~S_IRWXUGO) ||| a.createMode m) &&& S_IRWXUGO := by
  rw [modeBits, created]
  refine eq_of_getLsbD_eq fun i hi => ?_
  interval_cases i <;> simp [createMode, ownerMode, otherMode, setOwner, setOther, limitMode,
    limitPerm,
    S_IRWXU, S_IRWXG, S_IRWXO, S_IRWXUGO]

theorem created_isSome : (a.created m).mask.isSome = a.mask.isSome := by
  rw [created, setClass_isSome]
  rfl

/-! ## Validity -/

theorem valid_iff_ranged :
    posixAclValid a.entries = .ok () ↔
      a.Ranged ∧ posixAclValid (a.entries.map Entry.clear) = .ok () :=
  validLoop_iff_clear a.entries _

theorem chmodded_valid (h : posixAclValid a.entries = .ok ()) (m : Mode) :
    posixAclValid (a.chmodded m).entries = .ok () := by
  rw [valid_iff_ranged] at h ⊢
  obtain ⟨hranged, hclear⟩ := h
  refine ⟨?_, ?_⟩
  · exact ((hranged.setOwner (inRange_bits m rfl)).setOther (inRange_and_all m)).setClass
      (inRange_bits m rfl)
  · rw [chmodded, setClass_clear, setOther_clear]
    exact hclear

theorem created_valid (h : posixAclValid a.entries = .ok ()) (m : Mode) :
    posixAclValid (a.created m).entries = .ok () := by
  rw [valid_iff_ranged] at h ⊢
  obtain ⟨hranged, hclear⟩ := h
  obtain ⟨howner, -, -, -, -, hother⟩ := ranged_iff.mp hranged
  refine ⟨?_, ?_⟩
  · exact ((hranged.setOwner (inRange_limitPerm howner m 6)).setOther
      (inRange_limitPerm hother _ 0)).setClass (inRange_limitPerm hranged.classPerm _ 3)
  · rw [created, setClass_clear, setOther_clear]
    exact hclear

/-! ## No extra access -/

theorem within_limitPerm (m : Mode) (shift : ℕ) : Within (limitPerm p m shift) p :=
  fun _ h => (granted_and_iff.mp h).1

/-- Limiting the group class takes permissions away. -/
theorem setClass_below {p : BitVec 16} (h : Within p a.classPerm) : Below (a.setClass p) a := by
  cases hm : a.mask with
  | none =>
    have hset : a.setClass p = a.setGroup p := by simp [setClass, hm]
    have hclass : a.classPerm = a.group.perm := by simp [classPerm, hm]
    rw [hset]
    rw [hclass] at h
    exact ⟨rfl, rfl, within_refl _, h, fun _ hw => hw, within_refl _⟩
  | some m =>
    have hset : a.setClass p = a.setMask p := by simp [setClass, hm]
    have hclass : a.classPerm = m.perm := by simp [classPerm, hm]
    rw [hset]
    rw [hclass] at h
    refine ⟨rfl, rfl, within_refl _, within_refl _, ?_, within_refl _⟩
    intro want hgrants e he
    obtain rfl : m = e := Option.some.inj (hm.symm.trans he)
    refine h want (hgrants { m with perm := p } ?_)
    simp [setMask, hm]

theorem Below.trans {b c : Acl} (hcb : Below c b) (hba : Below b a) : Below c a where
  users := hcb.users.trans hba.users
  groups := hcb.groups.trans hba.groups
  owner want h := hba.owner want (hcb.owner want h)
  group want h := hba.group want (hcb.group want h)
  mask want h := hba.mask want (hcb.mask want h)
  other want h := hba.other want (hcb.other want h)

/-- **`posix_acl_create_masq`** takes permissions away. -/
theorem created_below : Below (a.created m) a := by
  have houter : Below ((a.setOwner (limitPerm a.owner.perm m 6)).setOther
      (limitPerm a.other.perm (a.ownerMode m) 0)) a :=
    ⟨rfl, rfl, within_limitPerm _ _ _, within_refl _, fun _ hw => hw, within_limitPerm _ _ _⟩
  exact (setClass_below (within_limitPerm _ _ _)).trans houter

/-! ## The ACL of a mode -/

/-- The ACL that `posix_acl_from_mode` makes. -/
def fromMode (m : Mode) : Acl where
  owner := ⟨.userObj, (m &&& S_IRWXU) >>> 6, ACL_UNDEFINED_ID⟩
  users := []
  group := ⟨.groupObj, (m &&& S_IRWXG) >>> 3, ACL_UNDEFINED_ID⟩
  groups := []
  mask := none
  other := ⟨.other, m &&& S_IRWXO, ACL_UNDEFINED_ID⟩
  owner_tag := rfl
  users_tag := by simp
  group_tag := rfl
  groups_tag := by simp
  mask_tag := by simp
  other_tag := rfl
  named := fun _ => ⟨rfl, rfl⟩

theorem fromMode_entries : (fromMode m).entries = posixAclFromMode m := rfl

theorem fromMode_modeBits : (fromMode m).modeBits = m &&& S_IRWXUGO := nineBits_eq m

end Acl

/-! ## The laws -/

/-- **Main theorem.**  ACLs and modes stay consistent: the ACL of a mode stands for its nine bits;
for a valid ACL, `posix_acl_chmod_masq` and `posix_acl_create_masq` succeed and leave a valid ACL
that stands for the nine bits of the mode, and what the ACL for a new file grants was granted by
the default ACL. -/
theorem acl_mode_consistent {acl : List Entry} (hvalid : posixAclValid acl = .ok ()) (m : Mode) :
    (∀ q, posixAclEquivMode (posixAclFromMode m) q = .ok (withNineBits q m, false)) ∧
      (∃ acl', posixAclChmodMasq acl m = .ok acl' ∧ posixAclValid acl' = .ok () ∧
        ∀ q, ∃ notEquiv, posixAclEquivMode acl' q = .ok (withNineBits q m, notEquiv)) ∧
      ∃ acl' m' notEquiv, posixAclCreateMasq acl m = .ok (acl', m', notEquiv) ∧
        posixAclValid acl' = .ok () ∧
        (∀ q, posixAclEquivMode acl' q = .ok (withNineBits q m', notEquiv)) ∧
        ∀ who want, posixAclPermission who acl' want = .ok () →
          posixAclPermission who acl want = .ok () := by
  obtain ⟨a, rfl⟩ := exists_acl_of_valid hvalid
  refine ⟨?_, ?_, ?_⟩
  · intro q
    rw [← Acl.fromMode_entries, Acl.equivMode_entries, Acl.fromMode_modeBits]
    rfl
  · refine ⟨(a.chmodded m).entries, a.chmodMasq_entries m, Acl.chmodded_valid hvalid m, ?_⟩
    intro q
    refine ⟨(a.chmodded m).mask.isSome, ?_⟩
    rw [Acl.equivMode_entries, Acl.chmodded_modeBits]
    rfl
  · refine ⟨_, _, _, a.createMasq_entries m, Acl.created_valid hvalid m, ?_, ?_⟩
    · intro q
      rw [Acl.equivMode_entries, Acl.created_modeBits, Acl.created_isSome]
      rfl
    · intro who want hnew
      exact Acl.permission_entries.mpr
        (Acl.grants_of_below (Acl.created_below m) (Acl.permission_entries.mp hnew))

theorem acl_mode_consistent_sample :
    posixAclValid sampleAcl = .ok () ∧
      ∃ acl', posixAclChmodMasq sampleAcl 0o640 = .ok acl' ∧ posixAclValid acl' = .ok () ∧
        ∀ q, ∃ notEquiv, posixAclEquivMode acl' q = .ok (withNineBits q 0o640, notEquiv) :=
  ⟨rfl, (acl_mode_consistent (show posixAclValid sampleAcl = .ok () from rfl) 0o640).2.1⟩

end Gp2xKernel.PosixAcl
