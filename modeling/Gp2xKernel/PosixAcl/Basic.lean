import Mathlib.Data.BitVec

/-!
# POSIX access control lists

An ACL is an array of entries: one for the owner, any number for named users, one for the owning
group, any number for named groups, a mask when there are named entries, and one for all others.
The functions go over the entries in order; they can meet any array, and reject what they do not
know.

## Main definitions

* `Entry`: `struct posix_acl_entry`
* `posixAclValid`, `posixAclEquivMode`, `posixAclFromMode`, `posixAclPermission`
* `posixAclCreateMasq`, `posixAclChmodMasq`: the functions that change an ACL
-/

namespace Gp2xKernel.PosixAcl

/-- The values of `e_tag`; `unknown` stands for all others. -/
inductive Tag
  | userObj
  | user
  | groupObj
  | group
  | mask
  | other
  | unknown
  deriving DecidableEq, Repr

/-- The errors that are returned: `EINVAL`, `EIO` and `EACCES`. -/
inductive Errno
  | einval
  | eio
  | eacces
  deriving DecidableEq, Repr

/-- `struct posix_acl_entry` -/
structure Entry where
  tag : Tag
  perm : BitVec 16
  id : BitVec 32
  deriving DecidableEq, Repr

/-- `mode_t` -/
abbrev Mode := BitVec 16

def S_IRWXO : BitVec 16 := 0o7

def S_IRWXG : BitVec 16 := 0o70

def S_IRWXU : BitVec 16 := 0o700

def S_IRWXUGO : BitVec 16 := 0o777

def ACL_UNDEFINED_ID : BitVec 32 := -1

/-- `ACL_READ|ACL_WRITE|ACL_EXECUTE` -/
def aclAll : BitVec 16 := 0x04 ||| 0x02 ||| 0x01

/-! ## Validity -/

/-- The values of `state` in `posix_acl_valid`: the part of the ACL that comes next. -/
inductive Stage
  | userObj
  | user
  | group
  | other
  | done
  deriving DecidableEq, Repr

/-- The locals of `posix_acl_valid`. -/
structure Check where
  state : Stage
  id : BitVec 32
  needsMask : Bool

/-- The case `ACL_USER` or `ACL_GROUP` of `posix_acl_valid`: a named entry, in the order of the
ids. -/
def namedEntry (stage : Stage) (c : Check) (pa : Entry) : Except Errno Check :=
  if c.state ≠ stage then .error .einval
  else if pa.id = ACL_UNDEFINED_ID ∨ pa.id < c.id then .error .einval
  else .ok { c with id := pa.id + 1, needsMask := true }

/-- One turn of the loop of `posix_acl_valid`, for an entry whose permissions are in range. -/
def checkTag (c : Check) (pa : Entry) : Except Errno Check :=
  match pa.tag with
  | .userObj =>
    if c.state = .userObj then .ok { c with id := 0, state := .user } else .error .einval
  | .user => namedEntry .user c pa
  | .groupObj =>
    if c.state = .user then .ok { c with id := 0, state := .group } else .error .einval
  | .group => namedEntry .group c pa
  | .mask => if c.state ≠ .group then .error .einval else .ok { c with state := .other }
  | .other =>
    if c.state = .other ∨ c.state = .group ∧ c.needsMask = false then
      .ok { c with state := .done }
    else .error .einval
  | .unknown => .error .einval

/-- The loop of `posix_acl_valid`, and its end. -/
def validLoop : List Entry → Check → Except Errno Unit
  | [], c => if c.state = .done then .ok () else .error .einval
  | pa :: rest, c =>
    if pa.perm &&& ~~~aclAll ≠ 0 then .error .einval
    else (checkTag c pa).bind (validLoop rest)

def posixAclValid (acl : List Entry) : Except Errno Unit := validLoop acl ⟨.userObj, 0, false⟩

/-! ## ACLs and modes -/

/-- The locals of `posix_acl_equiv_mode`. -/
structure Equiv where
  mode : Mode
  notEquiv : Bool

/-- One turn of the loop of `posix_acl_equiv_mode`. -/
def equivStep (s : Equiv) (pa : Entry) : Except Errno Equiv :=
  match pa.tag with
  | .userObj => .ok { s with mode := s.mode ||| (pa.perm &&& S_IRWXO) <<< 6 }
  | .groupObj => .ok { s with mode := s.mode ||| (pa.perm &&& S_IRWXO) <<< 3 }
  | .other => .ok { s with mode := s.mode ||| (pa.perm &&& S_IRWXO) }
  | .mask =>
    .ok { mode := (s.mode &&& ~~~S_IRWXG) ||| (pa.perm &&& S_IRWXO) <<< 3, notEquiv := true }
  | .user => .ok { s with notEquiv := true }
  | .group => .ok { s with notEquiv := true }
  | .unknown => .error .einval

/-- The loop of `posix_acl_equiv_mode`. -/
def equivLoop : List Entry → Equiv → Except Errno Equiv
  | [], s => .ok s
  | pa :: rest, s => (equivStep s pa).bind (equivLoop rest)

/-- `posix_acl_equiv_mode`: the new value of `*mode_p`, and whether the return value is 1. -/
def posixAclEquivMode (acl : List Entry) (modeP : Mode) : Except Errno (Mode × Bool) :=
  (equivLoop acl ⟨0, false⟩).map fun s => ((modeP &&& ~~~S_IRWXUGO) ||| s.mode, s.notEquiv)

/-- `posix_acl_from_mode`, when its allocation succeeds -/
def posixAclFromMode (mode : Mode) : List Entry :=
  [⟨.userObj, (mode &&& S_IRWXU) >>> 6, ACL_UNDEFINED_ID⟩,
    ⟨.groupObj, (mode &&& S_IRWXG) >>> 3, ACL_UNDEFINED_ID⟩,
    ⟨.other, mode &&& S_IRWXO, ACL_UNDEFINED_ID⟩]

/-! ## Permission -/

/-- Who asks, and for which inode: `current->fsuid`, `in_group_p`, `i_uid` and `i_gid`. -/
structure Subject where
  fsuid : BitVec 32
  inGroup : BitVec 32 → Bool
  iUid : BitVec 32
  iGid : BitVec 32

/-- `(perm & want) == want` -/
def granted (perm : BitVec 16) (want : BitVec 32) : Bool := perm.setWidth 32 &&& want = want

/-- The label `check_perm`. -/
def checkPerm (perm : BitVec 16) (want : BitVec 32) : Except Errno Unit :=
  if granted perm want then .ok () else .error .eacces

/-- The label `mask`: the permissions are limited by the next mask, if there is one. -/
def checkMask (perm : BitVec 16) (want : BitVec 32) : List Entry → Except Errno Unit
  | [] => checkPerm perm want
  | m :: rest =>
    if m.tag = .mask then checkPerm (perm &&& m.perm) want else checkMask perm want rest

/-- The loop of `posix_acl_permission`. -/
def permissionLoop (who : Subject) (want : BitVec 32) : List Entry → (found : Bool) →
    Except Errno Unit
  | [], _ => .error .eio
  | pa :: rest, found =>
    match pa.tag with
    | .userObj =>
      if who.iUid = who.fsuid then checkPerm pa.perm want else permissionLoop who want rest found
    | .user =>
      if pa.id = who.fsuid then checkMask pa.perm want rest else permissionLoop who want rest found
    | .groupObj =>
      if who.inGroup who.iGid then
        if granted pa.perm want then checkMask pa.perm want rest
        else permissionLoop who want rest true
      else permissionLoop who want rest found
    | .group =>
      if who.inGroup pa.id then
        if granted pa.perm want then checkMask pa.perm want rest
        else permissionLoop who want rest true
      else permissionLoop who want rest found
    | .mask => permissionLoop who want rest found
    | .other => if found then .error .eacces else checkPerm pa.perm want
    | .unknown => .error .eio

def posixAclPermission (who : Subject) (acl : List Entry) (want : BitVec 32) : Except Errno Unit :=
  permissionLoop who want acl false

/-! ## Changing an ACL -/

/-- The locals of the two functions that change an ACL; `entries` are the entries the loop has
passed, and `groupObj` and `maskObj` are the numbers of entries. -/
structure Masq where
  entries : List Entry
  mode : Mode
  groupObj : Option ℕ
  maskObj : Option ℕ
  notEquiv : Bool

/-- Go on to the next entry, and leave `pa` behind. -/
def Masq.push (s : Masq) (pa : Entry) : Masq := { s with entries := s.entries ++ [pa] }

/-- `perm &= (mode >> shift) | ~S_IRWXO` -/
def limitPerm (perm : BitVec 16) (mode : Mode) (shift : ℕ) : BitVec 16 :=
  perm &&& (mode >>> shift ||| ~~~S_IRWXO)

/-- `mode &= (perm << shift) | ~class` -/
def limitMode (mode : Mode) (perm : BitVec 16) (shift : ℕ) (cls : BitVec 16) : Mode :=
  mode &&& (perm <<< shift ||| ~~~cls)

/-- Limit an entry and the mode by each other. -/
def Masq.limit (s : Masq) (pa : Entry) (shift : ℕ) (cls : BitVec 16) : Masq :=
  { s with mode := limitMode s.mode (limitPerm pa.perm s.mode shift) shift cls }.push
    { pa with perm := limitPerm pa.perm s.mode shift }

/-- One turn of the loop of `posix_acl_create_masq`. -/
def createStep (s : Masq) (pa : Entry) : Except Errno Masq :=
  match pa.tag with
  | .userObj => .ok (s.limit pa 6 S_IRWXU)
  | .user => .ok { s.push pa with notEquiv := true }
  | .group => .ok { s.push pa with notEquiv := true }
  | .groupObj => .ok { s.push pa with groupObj := some s.entries.length }
  | .other => .ok (s.limit pa 0 S_IRWXO)
  | .mask => .ok { s.push pa with maskObj := some s.entries.length, notEquiv := true }
  | .unknown => .error .eio

/-- The loop over the entries. -/
def masqLoop (step : Masq → Entry → Except Errno Masq) : List Entry → Masq → Except Errno Masq
  | [], s => .ok s
  | pa :: rest, s => (step s pa).bind (masqLoop step rest)

/-- The entry that holds the permissions of the group class: the mask, or the owning group. -/
def Masq.groupClass (s : Masq) : Option ℕ := s.maskObj.or s.groupObj

/-- The end of `posix_acl_create_masq`: limit the entry of the group class. -/
def createFinish (s : Masq) : Except Errno Masq :=
  match s.groupClass.bind fun i => (s.entries[i]?).map fun pa => (i, pa) with
  | none => .error .eio
  | some (i, pa) =>
    .ok { s with
      entries := s.entries.set i { pa with perm := limitPerm pa.perm s.mode 3 }
      mode := limitMode s.mode (limitPerm pa.perm s.mode 3) 3 S_IRWXG }

/-- `posix_acl_create_masq`: the new ACL, the new value of `*mode_p`, and whether the return value
is 1. -/
def posixAclCreateMasq (acl : List Entry) (modeP : Mode) :
    Except Errno (List Entry × Mode × Bool) :=
  ((masqLoop createStep acl ⟨[], modeP, none, none, false⟩).bind createFinish).map fun s =>
    (s.entries, (modeP &&& ~~~S_IRWXUGO) ||| s.mode, s.notEquiv)

/-- One turn of the loop of `posix_acl_chmod_masq`. -/
def chmodStep (s : Masq) (pa : Entry) : Except Errno Masq :=
  match pa.tag with
  | .userObj => .ok (s.push { pa with perm := (s.mode &&& S_IRWXU) >>> 6 })
  | .user => .ok (s.push pa)
  | .group => .ok (s.push pa)
  | .groupObj => .ok { s.push pa with groupObj := some s.entries.length }
  | .mask => .ok { s.push pa with maskObj := some s.entries.length }
  | .other => .ok (s.push { pa with perm := s.mode &&& S_IRWXO })
  | .unknown => .error .eio

/-- The end of `posix_acl_chmod_masq`: set the entry of the group class. -/
def chmodFinish (s : Masq) : Except Errno (List Entry) :=
  match s.groupClass.bind fun i => (s.entries[i]?).map fun pa => (i, pa) with
  | none => .error .eio
  | some (i, pa) => .ok (s.entries.set i { pa with perm := (s.mode &&& S_IRWXG) >>> 3 })

def posixAclChmodMasq (acl : List Entry) (mode : Mode) : Except Errno (List Entry) :=
  (masqLoop chmodStep acl ⟨[], mode, none, none, false⟩).bind chmodFinish

end Gp2xKernel.PosixAcl
