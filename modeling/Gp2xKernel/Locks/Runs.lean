import Mathlib.Data.List.TakeWhile
import Gp2xKernel.Library.Run
import Gp2xKernel.Locks.Finish

/-!
# Sequences of lock requests

In every list that a sequence of calls leads to, the locks of each owner are contiguous and in
normal form, and no two owners hold conflicting locks.  A call that succeeds sets the type of the
offsets that were asked for and nothing else.

## Main definitions

* `typeAt`: the type of lock that an owner holds on an offset
* `Normal`: the invariant of the lists
* `system`: the lists that sequences of calls lead to

## Main results

* `posixLockFile_spec`: what one call does
* `posix_lock_sets`: the set semantics of byte-range locks
-/

namespace Gp2xKernel.Locks

open Library List Or

variable {Owner : Type}

/-! ## The type of an offset -/

section TypeAt

variable [DecidableEq Owner]

/-- The type of lock that the owner holds on the offset, `F_UNLCK` if there is none. -/
def typeAt (ls : List (FileLock Owner)) (o : Owner) (x : ℤ) : LockType :=
  match ls.find? fun l => l.flOwner = o ∧ Covers l x with
  | some l => l.flType
  | none => .unlck

/-- Two types are equal if they are the same lock or both are none. -/
theorem lockType_ext {a b : LockType} (h : ∀ τ, τ ≠ .unlck → (a = τ ↔ b = τ)) : a = b := by
  by_cases ha : a = .unlck
  · by_cases hb : b = .unlck
    · rw [ha, hb]
    · exact (h b hb).mpr rfl
  · exact ((h a ha).mp rfl).symm

theorem IsRun.typeAt_iff {o : Owner} {ls : List (FileLock Owner)} (h : IsRun o ls) {x : ℤ}
    {τ : LockType} (hτ : τ ≠ .unlck) : typeAt ls o x = τ ↔ Has ls x τ := by
  rw [typeAt]
  cases hfind : ls.find? fun l => decide (l.flOwner = o ∧ Covers l x) with
  | none =>
    rw [List.find?_eq_none] at hfind
    refine iff_of_false (Ne.symm hτ) ?_
    rintro ⟨l, hl, hcov, -⟩
    exact hfind l hl (decide_eq_true ⟨h.owner l hl, hcov⟩)
  | some l =>
    have hl := mem_of_find?_eq_some hfind
    have hcov : Covers l x := by
      have hp := List.find?_some hfind
      rw [decide_eq_true_iff] at hp
      exact hp.2
    constructor
    · rintro rfl
      exact ⟨l, hl, hcov, rfl⟩
    · exact fun hhas => h.has_unique ⟨l, hl, hcov, rfl⟩ hhas

end TypeAt

/-! ## Lists in normal form -/

/-- A list in normal form: locks are valid; a lock between two locks of one owner is also of that
owner, so that the locks of an owner are contiguous; those of one owner are sorted, do not overlap
and do not touch if they have the same type; and two owners share an offset only for reading. -/
structure Normal (ls : List (FileLock Owner)) : Prop where
  valid : ∀ l ∈ ls, Valid l
  contiguous : ∀ a b c, [a, b, c].Sublist ls → a.flOwner = c.flOwner → b.flOwner = a.flOwner
  sorted : ls.Pairwise fun a b => a.flOwner = b.flOwner → Before a b
  compatible : ∀ a ∈ ls, ∀ b ∈ ls, a.flOwner ≠ b.flOwner → ∀ x, Covers a x → Covers b x →
    a.flType = .rdlck ∧ b.flType = .rdlck

/-- The locks of an owner, with the other locks before and behind them. -/
structure Splits (o : Owner) (ls X R Y : List (FileLock Owner)) : Prop where
  eq : ls = X ++ R ++ Y
  before : ∀ l ∈ X, l.flOwner ≠ o
  run : IsRun o R
  behind : ∀ l ∈ Y, l.flOwner ≠ o

/-- The locks of a run do not conflict with those of other owners. -/
def Compatible (o : Owner) (S ls : List (FileLock Owner)) : Prop :=
  ∀ a ∈ S, ∀ b ∈ ls, b.flOwner ≠ o → ∀ x, Covers a x → Covers b x →
    a.flType = .rdlck ∧ b.flType = .rdlck

variable {a c : FileLock Owner} {ls X Y S : List (FileLock Owner)} {o : Owner} {R : List ℕ}
  {mem : Mem Owner} {fresh : ℕ}

/-- The locks of an owner do not conflict with those of others. -/
theorem Splits.compatible {R : List (FileLock Owner)} (hsplit : Splits o ls X R Y)
    (h : Normal ls) : Compatible o R ls := by
  intro a ha b hb hne
  refine h.compatible a ?_ b hb fun heq => hne ?_
  · rw [hsplit.eq]
    exact mem_append_left _ (mem_append_right _ ha)
  · rw [← heq, hsplit.run.owner a ha]

/-- A lock that is not in the first part of the list, and those behind it, are in the second. -/
theorem sublist_right (h : (a :: ls).Sublist (X ++ Y)) (ha : a ∉ X) : (a :: ls).Sublist Y := by
  obtain ⟨l1, l2, heq, h1, h2⟩ := sublist_append_iff.mp h
  cases l1 with
  | nil =>
    rw [heq]
    exact h2
  | cons b l1 =>
    obtain ⟨rfl, -⟩ := List.cons.inj heq
    exact absurd (h1.subset mem_cons_self) ha

/-- A lock that is not in the second part of the list, and those before it, are in the first. -/
theorem sublist_left (ls : List (FileLock Owner)) (h : (ls ++ [c]).Sublist (X ++ Y)) (hc : c ∉ Y) :
    (ls ++ [c]).Sublist X := by
  rw [← reverse_sublist, reverse_append, reverse_append] at h
  rw [← reverse_sublist, reverse_append]
  exact sublist_right h (by rwa [mem_reverse])

/-- New locks for one owner do not come between the locks of another. -/
theorem contiguous_replace {R : List (FileLock Owner)}
    (h : ∀ a b c, [a, b, c].Sublist (X ++ R ++ Y) → a.flOwner = c.flOwner → b.flOwner = a.flOwner)
    (hX : ∀ l ∈ X, l.flOwner ≠ o) (hR : ∀ l ∈ R, l.flOwner = o) (hS : ∀ l ∈ S, l.flOwner = o)
    (hY : ∀ l ∈ Y, l.flOwner ≠ o) (hplace : R = [] → Y = []) {b : FileLock Owner}
    (hsub : [a, b, c].Sublist (X ++ S ++ Y)) (hac : a.flOwner = c.flOwner) :
    b.flOwner = a.flOwner := by
  classical
  by_cases hao : a.flOwner = o
  · -- the first and the last are new ones, and so is the one between them
    have haX : a ∉ X := fun ha => hX a ha hao
    have hcY : c ∉ Y := fun hc => hY c hc (hac ▸ hao)
    have hS' := sublist_left [a, b] (sublist_right (by rwa [append_assoc] at hsub) haX) hcY
    rw [hao]
    exact hS b (hS'.subset (by simp))
  by_cases hbo : b.flOwner = o
  · -- a new one would stand between the locks of another owner, as an old one did
    have haS : a ∉ S := fun ha => hao (hS a ha)
    have hcS : c ∉ S := fun hc => hao (hac.trans (hS c hc))
    have haX : a ∈ X := by
      by_contra haX
      have := sublist_right (sublist_right (by rwa [append_assoc] at hsub) haX) haS
      exact hY b (this.subset (by simp)) hbo
    have hcY : c ∈ Y := by
      by_contra hcY
      have := sublist_left [a, b] (sublist_left [a, b] hsub hcY) hcS
      exact hX b (this.subset (by simp)) hbo
    cases R with
    | nil =>
      rw [hplace rfl] at hcY
      exact absurd hcY not_mem_nil
    | cons r R =>
      have hro := hR r mem_cons_self
      refine absurd ((h a r c ?_ hac).symm.trans hro) hao
      exact ((singleton_sublist.mpr haX).append
        (singleton_sublist.mpr mem_cons_self)).append (singleton_sublist.mpr hcY)
  · -- none of them is a lock of this owner
    refine h a b c ?_ hac
    have hfilter := hsub.filter fun l => decide (l.flOwner ≠ o)
    have hkeep : ∀ ls : List (FileLock Owner), (∀ l ∈ ls, l.flOwner ≠ o) →
        ls.filter (fun l => decide (l.flOwner ≠ o)) = ls := fun ls hls =>
      filter_eq_self.mpr fun l hl => decide_eq_true (hls l hl)
    have hdrop : S.filter (fun l => decide (l.flOwner ≠ o)) = [] :=
      filter_eq_nil_iff.mpr fun l hl hdec => of_decide_eq_true hdec (hS l hl)
    rw [filter_append, filter_append, hkeep X hX, hkeep Y hY, hdrop, append_nil,
      hkeep [a, b, c] (by simp [hao, hbo, ← hac])] at hfilter
    exact hfilter.trans ((sublist_append_left X R).append (List.Sublist.refl Y))

/-- **New locks for one owner** keep the normal form, if they are in normal form themselves, do not
conflict with the locks of others, and stand where the old ones stood, or at the end of the list
if there were none. -/
theorem Normal.replace {R : List (FileLock Owner)} (h : Normal ls) (hsplit : Splits o ls X R Y)
    (hS : IsRun o S) (hplace : R = [] → Y = []) (hcompat : Compatible o S ls) :
    Normal (X ++ S ++ Y) := by
  obtain ⟨rfl, hX, hR, hY⟩ := hsplit
  -- a lock of the new list is one of the owner, or was there before
  have hcases : ∀ l ∈ X ++ S ++ Y, (l ∈ S ∧ l.flOwner = o) ∨ (l ∈ X ++ R ++ Y ∧ l.flOwner ≠ o) := by
    intro l hl
    simp only [mem_append] at hl ⊢
    rcases hl with (hl | hl) | hl
    · exact inr ⟨inl (inl hl), hX l hl⟩
    · exact inl ⟨hl, hS.owner l hl⟩
    · exact inr ⟨inr hl, hY l hl⟩
  refine ⟨fun l hl => ?_, fun a b c hsub hac => ?_, ?_, fun a ha b hb hne x hax hbx => ?_⟩
  · rcases hcases l hl with ⟨hl, -⟩ | ⟨hl, -⟩
    · exact hS.valid l hl
    · exact h.valid l hl
  · exact contiguous_replace h.contiguous hX hR.owner hS.owner hY hplace hsub hac
  · rw [append_assoc] at *
    obtain ⟨hpX, hpRY, hcross⟩ := pairwise_append.mp h.sorted
    obtain ⟨-, hpY, -⟩ := pairwise_append.mp hpRY
    have hpS : S.Pairwise fun a b => a.flOwner = b.flOwner → Before a b :=
      hS.sorted.imp fun {a b} (hab : Before a b) (_ : a.flOwner = b.flOwner) => hab
    refine pairwise_append.mpr ⟨hpX, pairwise_append.mpr
      ⟨hpS, hpY, fun a ha b hb heq => ?_⟩, fun a ha b hb heq => ?_⟩
    · exact absurd (heq.symm.trans (hS.owner a ha)) (hY b hb)
    · rcases mem_append.mp hb with hb | hb
      · exact absurd (heq.trans (hS.owner b hb)) (hX a ha)
      · exact hcross a ha b (mem_append_right _ hb) heq
  · rcases hcases a ha with ⟨ha, hao⟩ | ⟨ha, hao⟩
    · rcases hcases b hb with ⟨-, hbo⟩ | ⟨hb, hbo⟩
      · exact absurd (hao.trans hbo.symm) hne
      · exact hcompat a ha b hb hbo x hax hbx
    · rcases hcases b hb with ⟨hb, -⟩ | ⟨hb, -⟩
      · exact (hcompat b hb a ha hao x hbx hax).symm
      · exact h.compatible a ha b hb hne x hax hbx

section Types

variable [DecidableEq Owner]

variable {ls : List (FileLock Owner)} {o : Owner}

theorem Normal.isRun_filter (h : Normal ls) (o : Owner) :
    IsRun o (ls.filter fun l => l.flOwner = o) := by
  have howner : ∀ l ∈ ls.filter fun l => decide (l.flOwner = o), l ∈ ls ∧ l.flOwner = o := by
    intro l hl
    obtain ⟨hl, hdec⟩ := mem_filter.mp hl
    exact ⟨hl, of_decide_eq_true hdec⟩
  refine ⟨fun l hl => (howner l hl).2, fun l hl => h.valid l (howner l hl).1, ?_⟩
  refine (h.sorted.filter _).imp_of_mem fun {a b} ha hb hab => hab ?_
  rw [(howner a ha).2, (howner b hb).2]

/-- Only the locks of the owner count. -/
theorem typeAt_filter (ls : List (FileLock Owner)) (o : Owner) (x : ℤ) :
    typeAt ls o x = typeAt (ls.filter fun l => l.flOwner = o) o x := by
  rw [typeAt, typeAt, List.find?_filter]
  congr 2
  funext l
  by_cases ho : l.flOwner = o <;> simp [ho]

/-- **The type of an offset**: in a list in normal form, the one of any lock of the owner that
covers the offset. -/
theorem Normal.typeAt_iff (h : Normal ls) {x : ℤ} {τ : LockType} (hτ : τ ≠ .unlck) :
    typeAt ls o x = τ ↔ ∃ l ∈ ls, l.flOwner = o ∧ Covers l x ∧ l.flType = τ := by
  rw [typeAt_filter, (h.isRun_filter o).typeAt_iff hτ]
  constructor
  · rintro ⟨l, hl, hrest⟩
    obtain ⟨hl, hdec⟩ := mem_filter.mp hl
    exact ⟨l, hl, of_decide_eq_true hdec, hrest⟩
  · rintro ⟨l, hl, ho, hrest⟩
    exact ⟨l, mem_filter.mpr ⟨hl, decide_eq_true ho⟩, hrest⟩

/-- **New locks for one owner** give its offsets their types, and leave those of others alone. -/
theorem Splits.typeAt {X R Y S : List (FileLock Owner)} (h : Splits o ls X R Y) (hS : IsRun o S)
    {first last : ℤ} {type : LockType} (hsets : Sets ⟨o, type, first, last, R⟩ S) (o' : Owner)
    (x : ℤ) : typeAt (X ++ S ++ Y) o' x =
      if o' = o ∧ first ≤ x ∧ x ≤ last then type else Locks.typeAt ls o' x := by
  obtain ⟨rfl, hX, hR, hY⟩ := h
  have hnone : ∀ {M : List (FileLock Owner)}, (∀ l ∈ M, l.flOwner ≠ o') →
      M.filter (fun l => l.flOwner = o') = [] := fun hM =>
    filter_eq_nil_iff.mpr fun l hl hdec => hM l hl (of_decide_eq_true hdec)
  by_cases ho : o' = o
  · -- the locks of this owner are in the middle part
    subst ho
    have hmid : ∀ M, Locks.typeAt (X ++ M ++ Y) o' x = Locks.typeAt M o' x := fun M => by
      rw [typeAt_filter, filter_append, filter_append, hnone hX, hnone hY, nil_append, append_nil,
        ← typeAt_filter]
    rw [hmid, hmid]
    refine lockType_ext fun τ hτ => ?_
    rw [hS.typeAt_iff hτ, hsets x τ hτ]
    by_cases hx : first ≤ x ∧ x ≤ last
    · rw [if_pos hx, if_pos ⟨rfl, hx⟩, eq_comm]
    · rw [if_neg hx, if_neg fun h => hx h.2, hR.typeAt_iff hτ]
  · -- and those of another owner are not
    have hsides : ∀ {M : List (FileLock Owner)}, IsRun o M →
        (X ++ M ++ Y).filter (fun l => l.flOwner = o') = (X ++ Y).filter fun l => l.flOwner = o' :=
      fun hM => by
        rw [filter_append, filter_append, hnone fun l hl => hM.owner l hl ▸ Ne.symm ho, append_nil,
          filter_append]
    rw [if_neg fun h => ho h.1, typeAt_filter, typeAt_filter (X ++ R ++ Y), hsides hS, hsides hR]

end Types

/-! ## One call -/

/-- The inodes that calls lead to: the list is in normal form, and its records are at different
addresses that are in use. -/
structure WellFormed (inode : Inode Owner) : Prop where
  normal : Normal inode.locks
  nodup : inode.flock.Nodup
  bound : ∀ p ∈ inode.flock, p < inode.fresh

/-- The calls that the callers of the routine make. -/
structure Call.Ranged (call : Call Owner) : Prop where
  nonneg : 0 ≤ call.lock.flStart
  le : call.lock.flStart ≤ call.lock.flEnd
  le_max : call.lock.flEnd ≤ offsetMax

/-- The first element that is left does not have the property. -/
theorem of_dropWhile_eq_cons {α : Type} {p : α → Bool} {l t : List α} {a : α}
    (h : l.dropWhile p = a :: t) : p a = false := by
  have := List.head?_dropWhile_not p l
  rw [h] at this
  exact this

theorem rdlck_of_not_conflict {lock l : FileLock Owner} (h : ¬locksConflict lock l)
    (htype : lock.flType ≠ .unlck) (hl : l.flType ≠ .unlck) :
    lock.flType = .rdlck ∧ l.flType = .rdlck := by
  have hread : ∀ {τ : LockType}, τ ≠ .wrlck → τ ≠ .unlck → τ = .rdlck := by
    intro τ
    cases τ <;> simp
  rw [locksConflict, not_or] at h
  exact ⟨hread h.2 htype, hread h.1 hl⟩

theorem inv_start {call : Call Owner} {request : ℕ} (hcall : call.Ranged)
    (hrequest : mem request = call.lock) (hrun : IsRun call.lock.flOwner (R.map mem))
    (hnodup : (request :: R).Nodup) :
    Inv ⟨call.lock.flOwner, call.lock.flType, call.lock.flStart, call.lock.flEnd, R.map mem⟩ mem []
      R request call.lock false false none where
  mem_request := hrequest
  owner := rfl
  type := rfl
  nonneg := hcall.nonneg
  start_le := le_rfl
  first_le := hcall.le
  le_end := le_rfl
  le_max := hcall.le_max
  extended := fun _ hx hnot => absurd hx hnot
  outside := fun _ _ _ => Iff.rfl
  run := hrun
  nodup := hnodup
  passed := fun _ hp => absurd hp not_mem_nil
  left_mem := fun _ hl => by cases hl
  ahead := fun ha => by cases ha
  kept := inl rfl
  not_added := fun _ => ⟨rfl, rfl, fun _ => rfl⟩
  added_iff := fun _ => rfl
  unlck := fun _ => rfl

/-- The request and the locks of other owners are not among those of the owner. -/
theorem parts_apart {X Y : List ℕ} (hnodup : (X ++ R ++ Y).Nodup)
    (hbound : ∀ q ∈ X ++ R ++ Y, q < fresh) :
    (fresh :: R).Nodup ∧ (∀ q ∈ X, q ≠ fresh ∧ q ∉ R) ∧ ∀ q ∈ Y, q ≠ fresh ∧ q ∉ R := by
  obtain ⟨hXR, -, hY⟩ := nodup_append.mp hnodup
  obtain ⟨-, hR, hX⟩ := nodup_append.mp hXR
  simp only [mem_append] at hbound hY
  refine ⟨nodup_cons.mpr ⟨fun hmem => ?_, hR⟩, fun q hq => ⟨?_, fun hmem => ?_⟩,
    fun q hq => ⟨?_, fun hmem => ?_⟩⟩
  · exact lt_irrefl _ (hbound _ (inl (inr hmem)))
  · exact Nat.ne_of_lt (hbound q (inl (inl hq)))
  · exact hX q hq q hmem rfl
  · exact Nat.ne_of_lt (hbound q (inr hq))
  · exact hY q (inr hmem) q hq rfl

variable {result : List ℕ × List ℕ × Loop Owner}

/-- The addresses behind the loop: what is left of the list is part of what was there, and the
request may have taken one of its places. -/
theorem LoopResult.apart {job : Job Owner} {X Y : List ℕ}
    {P' B' : List ℕ} {r' : FileLock Owner} {aliased' : Bool} {left' : Option ℕ}
    (h : LoopResult job mem fresh [] R X Y result P' B' r' aliased' left')
    (hnodup : (X ++ R ++ Y).Nodup) (hbound : ∀ q ∈ X ++ R ++ Y, q < fresh) :
    Apart (fresh + 1) (fresh + 2) result.2.2.request X P' B' Y ∧ result.2.2.request ≤ fresh ∧
      ∀ q ∈ X ++ P' ++ B' ++ Y, q < fresh := by
  have hids : ∀ q ∈ P' ++ B', q ∈ R := fun q hq =>
    (h.ids q hq).resolve_left not_mem_nil
  obtain ⟨hrequest, hPB⟩ := nodup_cons.mp h.inv.nodup
  have hsub : ∀ q ∈ X ++ P' ++ B' ++ Y, q ∈ X ++ R ++ Y := by
    intro q hq
    simp only [mem_append] at hids hq ⊢
    rcases hq with ((hq | hq) | hq) | hq
    · exact inl (inl hq)
    · exact inl (inr (hids q (inl hq)))
    · exact inl (inr (hids q (inr hq)))
    · exact inr hq
  have hlt : ∀ q ∈ X ++ P' ++ B' ++ Y, q < fresh := fun q hq => hbound q (hsub q hq)
  have hle : result.2.2.request ≤ fresh := by
    rcases h.request_mem with heq | hR
    · exact le_of_eq heq
    · exact le_of_lt (hbound _ (by simp only [mem_append]; exact inl (inr hR)))
  obtain ⟨hXR, hY, hcross⟩ := nodup_append.mp hnodup
  obtain ⟨hX, -, hcross'⟩ := nodup_append.mp hXR
  refine ⟨⟨?_, fun hmem => ?_, fun hmem => ?_, fun hmem => ?_, ?_, ?_, ?_⟩, hle, hlt⟩
  · rw [append_assoc X, nodup_append, nodup_append]
    refine ⟨⟨hX, hPB, fun a ha b hb => hcross' a ha b (hids b hb)⟩, hY, fun a ha b hb => ?_⟩
    refine hcross a ?_ b hb
    rcases mem_append.mp ha with ha | ha
    · exact mem_append_left _ ha
    · exact mem_append_right _ (hids a ha)
  · -- the request is where it was, or has the place of a lock that is not left
    rcases h.request_mem with heq | hR
    · exact absurd (hlt _ hmem) (by omega)
    · simp only [mem_append] at hmem hrequest
      rcases hmem with ((hm | hm) | hm) | hm
      · exact hcross' _ hm _ hR rfl
      · exact hrequest (inl hm)
      · exact hrequest (inr hm)
      · exact hcross _ (mem_append_right _ hR) _ hm rfl
  · exact absurd (hlt _ hmem) (by omega)
  · exact absurd (hlt _ hmem) (by omega)
  · omega
  · omega
  · omega

section Calls

variable [DecidableEq Owner] {call : Call Owner} {inode : Inode Owner}

variable {mem : Mem Owner} {lock : FileLock Owner}

/-- The locks of the owner are where the first loop stops. -/
theorem Normal.splits {flock : List ℕ} (h : Normal (flock.map mem)) (o : Owner) :
    let other := fun fl => decide (o ≠ (mem fl).flOwner)
    ∃ R Y, flock.dropWhile other = R ++ Y ∧ (R = [] → Y = []) ∧
      Splits o (flock.map mem) ((flock.takeWhile other).map mem) (R.map mem) (Y.map mem) := by
  intro other
  have hother : ∀ {q}, other q = true ↔ (mem q).flOwner ≠ o := fun {q} => by
    rw [decide_eq_true_iff, ne_comm]
  generalize hD : flock.dropWhile other = D
  let own := fun fl => decide ((mem fl).flOwner = o)
  generalize hR : D.takeWhile own = R
  generalize hY : D.dropWhile own = Y
  have hRY : D = R ++ Y := by rw [← hR, ← hY, takeWhile_append_dropWhile]
  have hflock : flock = flock.takeWhile other ++ R ++ Y := by
    rw [append_assoc, ← hRY, ← hD, takeWhile_append_dropWhile]
  have hmap : flock.map mem = (flock.takeWhile other).map mem ++ R.map mem ++ Y.map mem := by
    rw [← map_append, ← map_append, ← hflock]
  have hRowner : ∀ l ∈ R.map mem, l.flOwner = o := by
    intro l hl
    obtain ⟨q, hq, rfl⟩ := mem_map.mp hl
    rw [← hR] at hq
    have hown : own q = true := mem_takeWhile_imp hq
    exact of_decide_eq_true hown
  have hplace : R = [] → Y = [] := by
    intro hnil
    cases D with
    | nil => rw [← hY, dropWhile_nil]
    | cons d D =>
      have hd : own d = true := by
        have := of_dropWhile_eq_cons hD
        rw [← Bool.not_eq_true, hother, not_not] at this
        exact decide_eq_true this
      rw [takeWhile_cons_of_pos hd] at hR
      rw [← hR] at hnil
      cases hnil
  rw [hmap] at h ⊢
  refine ⟨R, Y, hRY, hplace, rfl, fun l hl => ?_, ⟨hRowner, fun l hl => ?_, ?_⟩, fun l hl ho => ?_⟩
  · obtain ⟨q, hq, rfl⟩ := mem_map.mp hl
    exact hother.mp (mem_takeWhile_imp hq)
  · exact h.valid l (mem_append_left _ (mem_append_right _ hl))
  · have hsorted := (pairwise_append.mp (pairwise_append.mp h.sorted).1).2.1
    refine hsorted.imp_of_mem fun {a b} ha hb hab => hab ?_
    rw [hRowner a ha, hRowner b hb]
  · -- behind the run stands a lock of another owner, which no other lock of this one follows
    cases Y with
    | nil => exact absurd hl not_mem_nil
    | cons y Y =>
      have hown : own y = false := of_dropWhile_eq_cons hY
      have hy : (mem y).flOwner ≠ o := of_decide_eq_false hown
      rcases mem_cons.mp hl with rfl | hl
      · exact hy ho
      cases R with
      | nil => exact absurd (hplace rfl) (cons_ne_nil _ _)
      | cons r R =>
        have hr := hRowner (mem r) mem_cons_self
        have hsub : [mem r, mem y, l].Sublist
            ((flock.takeWhile other).map mem ++ (r :: R).map mem ++ (y :: Y).map mem) := by
          have hleft : [mem r].Sublist ((flock.takeWhile other).map mem ++ (r :: R).map mem) :=
            singleton_sublist.mpr (mem_append_right _ mem_cons_self)
          exact hleft.append ((singleton_sublist.mpr hl).cons_cons (mem y))
        exact hy ((h.contiguous _ _ _ hsub (hr.trans ho.symm)).trans hr)

/-- **Conflicts**: some offset of the request has a lock of another owner that does not go with
it. -/
theorem firstConflict_isSome_iff (h : Normal inode.locks) (htype : lock.flType ≠ .unlck)
    (hle : lock.flStart ≤ lock.flEnd) :
    (firstConflict inode lock).isSome ↔ ∃ l ∈ inode.locks, l.flOwner ≠ lock.flOwner ∧
      locksConflict lock l ∧ ∃ x, Covers lock x ∧ Covers l x := by
  rw [firstConflict, if_pos htype, List.find?_isSome]
  constructor
  · rintro ⟨l, hl, hdec⟩
    obtain ⟨howner, ⟨h1, h2⟩, hconf⟩ := of_decide_eq_true hdec
    have hlle := (h.valid l hl).le
    refine ⟨l, hl, howner.symm, hconf, max lock.flStart l.flStart, ⟨?_, ?_⟩, ?_, ?_⟩ <;> omega
  · rintro ⟨l, hl, howner, hconf, x, hx, hlx⟩
    refine ⟨l, hl, decide_eq_true ⟨howner.symm, ⟨?_, ?_⟩, hconf⟩⟩
    · exact le_trans hlx.1 hx.2
    · exact le_trans hx.1 hlx.2

/-- The new locks of the owner do not conflict with those of others. -/
theorem compatible_of_sets {X R Y S : List (FileLock Owner)}
    (hnormal : Normal inode.locks) (hsplit : Splits call.lock.flOwner inode.locks X R Y)
    (hle : call.lock.flStart ≤ call.lock.flEnd)
    (hnone : firstConflict inode call.lock = none) (hS : IsRun call.lock.flOwner S)
    (hsets : Sets ⟨call.lock.flOwner, call.lock.flType, call.lock.flStart, call.lock.flEnd, R⟩ S) :
    Compatible call.lock.flOwner S inode.locks := by
  intro a ha b hb hne x hax hbx
  have htype := (hS.valid a ha).type_ne
  have hhas := (hsets x a.flType htype).mp ⟨a, ha, hax, rfl⟩
  by_cases hx : call.lock.flStart ≤ x ∧ x ≤ call.lock.flEnd
  · -- an offset of the request
    rw [if_pos hx] at hhas
    have hlock : call.lock.flType ≠ .unlck := fun heq => htype (hhas.trans heq)
    rw [hhas]
    refine rdlck_of_not_conflict (fun hconf => ?_) hlock (hnormal.valid b hb).type_ne
    have hsome := (firstConflict_isSome_iff hnormal hlock hle).mpr ⟨b, hb, hne, hconf, x, hx, hbx⟩
    rw [hnone] at hsome
    cases hsome
  · -- an offset that had this type before
    rw [if_neg hx] at hhas
    obtain ⟨a', ha', hax', htype'⟩ := hhas
    rw [← htype']
    exact hsplit.compatible hnormal a' ha' b hb hne x hax' hbx

/-- What a call does: the list stays well formed, a call that succeeds sets the types of the offsets
that were asked for, and a request is refused for a conflict if there is one. -/
structure Spec (call : Call Owner) (inode : Inode Owner)
    (result : Errno × Option (FileLock Owner) × Inode Owner) : Prop where
  wellFormed : WellFormed result.2.2
  sets : result.1 = .ok → call.flags.access = false → ∀ o x, typeAt result.2.2.locks o x =
    if o = call.lock.flOwner ∧ call.lock.flStart ≤ x ∧ x ≤ call.lock.flEnd then call.lock.flType
    else typeAt inode.locks o x
  refused : result.1 = .eagain ∨ result.1 = .edeadlk ↔ (firstConflict inode call.lock).isSome

/-- The part of the routine from the first loop on.  If it fails, the list is as it was: no lock
has been changed when a new one turns out to be needed. -/
theorem ownerLoop_afterLoop_spec (h : WellFormed inode) (hcall : call.Ranged)
    (hnone : firstConflict inode call.lock = none) {newFl newFl2 : Option ℕ}
    (hnew : newFl = none ∨ newFl = some (inode.fresh + 1))
    (hnew2 : newFl2 = none ∨ newFl2 = some (inode.fresh + 2))
    (hmem : mem = Function.update inode.mem inode.fresh call.lock)
    (hresult : result =
      ownerLoop (inode.flock.dropWhile fun fl => decide (call.lock.flOwner ≠ (mem fl).flOwner))
        (inode.flock.takeWhile fun fl => decide (call.lock.flOwner ≠ (mem fl).flOwner))
        ⟨mem, inode.fresh, false, none, none⟩) {after : Errno × List ℕ × Mem Owner}
    (hafter : after =
      afterLoop newFl newFl2 call.flags.mustExist result.1 result.2.1 result.2.2) :
    Spec call inode (after.1, none, ⟨after.2.1, after.2.2, inode.fresh + 3⟩) ∧
      (after.1 ≠ .ok → after.2.1.map after.2.2 = inode.locks) := by
  have hflock : ∀ q ∈ inode.flock, mem q = inode.mem q := fun q hq => by
    rw [hmem, Function.update_of_ne (Nat.ne_of_lt (h.bound q hq))]
  have hrequest : mem inode.fresh = call.lock := by rw [hmem, Function.update_self]
  have hlocks : inode.flock.map mem = inode.locks := map_congr_left hflock
  have hnormal : Normal (inode.flock.map mem) := hlocks ▸ h.normal
  obtain ⟨R, Y, hdrop, hplace, hsplit⟩ := hnormal.splits call.lock.flOwner
  have hparts := takeWhile_append_dropWhile
    (p := fun fl => decide (call.lock.flOwner ≠ (mem fl).flOwner)) (l := inode.flock)
  rw [hdrop] at hresult hparts
  rw [hlocks] at hsplit
  generalize inode.flock.takeWhile (fun fl => decide (call.lock.flOwner ≠ (mem fl).flOwner)) = X
    at hresult hsplit hparts
  rw [← append_assoc] at hparts
  have hnodup : (X ++ R ++ Y).Nodup := hparts ▸ h.nodup
  have hbound : ∀ q ∈ X ++ R ++ Y, q < inode.fresh := hparts ▸ h.bound
  obtain ⟨hfresh, hXapart, hYapart⟩ := parts_apart hnodup hbound
  -- the loop
  obtain ⟨P', B', r', aliased', left', hloop⟩ := ownerLoop_spec R
    (inv_start hcall hrequest hsplit.run hfresh)
    (fun y hy => hsplit.behind _ (mem_map_of_mem hy)) hYapart
  have hstart : X ++ [] ++ aliasPart false inode.fresh = X := by simp [aliasPart]
  rw [hstart, ← hresult] at hloop
  obtain ⟨hapart, hle, hlt⟩ := hloop.apart hnodup hbound
  -- behind the loop
  obtain ⟨S, hout⟩ := afterLoop_spec hloop.inv hapart hsplit.run hloop.stop hnew hnew2
    call.flags.mustExist
  rw [← hloop.pre, ← hloop.post, ← hafter] at hout
  -- the records of other owners have not changed
  have hlist : after.2.1.map after.2.2 = X.map mem ++ S ++ Y.map mem := by
    rw [hout.locks, map_congr_left fun x hx => hloop.frame x (hXapart x hx).1 (hXapart x hx).2,
      map_congr_left fun y hy => hloop.frame y (hYapart y hy).1 (hYapart y hy).2]
  have hcompat : Compatible call.lock.flOwner S inode.locks := by
    by_cases hok : after.1 = .ok
    · exact compatible_of_sets h.normal hsplit hcall.le hnone hout.run (hout.sets hok)
    · rw [hout.failed hok]
      exact hsplit.compatible h.normal
  have hnew : Normal (X.map mem ++ S ++ Y.map mem) :=
    h.normal.replace hsplit hout.run (fun hR => by rw [hplace (map_eq_nil_iff.mp hR)]; rfl) hcompat
  refine ⟨⟨⟨?_, hout.nodup, fun q hq => ?_⟩, fun hok _ o x => ?_, ?_⟩, fun hfail => ?_⟩
  · show Normal (after.2.1.map after.2.2)
    rw [hlist]
    exact hnew
  · show q < inode.fresh + 3
    have hmem := hout.ids q hq
    simp only [mem_cons] at hmem
    rcases hmem with rfl | rfl | rfl | hmem
    case inr.inr.inr => exact lt_trans (hlt q hmem) (by omega)
    all_goals omega
  · show typeAt (after.2.1.map after.2.2) o x = _
    rw [hlist]
    exact hsplit.typeAt hout.run (hout.sets hok) o x
  · rw [hnone]
    rw [hafter, afterLoop]
    split
    · simp
    split
    · cases call.flags.mustExist <;> simp
    split <;> simp
  · rw [hlist, hout.failed hfail, hsplit.eq]

/-- **What one call does.** -/
theorem posixLockFile_spec (h : WellFormed inode) (hcall : call.Ranged) :
    Spec call inode (posixLockFile call inode) ∧ ((posixLockFile call inode).1 ≠ .ok →
      (posixLockFile call inode).2.2.locks = inode.locks) := by
  rw [posixLockFile]
  cases hconf : firstConflict inode call.lock with
  | some fl =>
    refine ⟨⟨h, fun hok => ?_, iff_of_true ?_ (by rw [hconf]; rfl)⟩, fun _ => rfl⟩
    · dsimp only at hok
      split at hok <;> cases hok
    · dsimp only
      split
      · exact inr rfl
      · exact inl rfl
  | none =>
    dsimp only
    split
    · next haccess =>
      refine ⟨⟨h, fun _ hfalse => absurd haccess (by rw [hfalse]; decide), ?_⟩, fun _ => rfl⟩
      rw [hconf]
      exact iff_of_false (by simp) (by simp)
    · refine ownerLoop_afterLoop_spec h hcall hconf ?_ ?_ rfl rfl rfl
      · split
        · exact inr rfl
        · exact inl rfl
      · split
        · exact inr rfl
        · exact inl rfl

/-! ## Sequences of calls -/

/-- An inode without locks, and any calls for ranges of offsets. -/
def system : System (Inode Owner) (Call Owner) where
  init inode := inode.flock = []
  step _ inode call inode' := call.Ranged ∧ inode' = (posixLockFile call inode).2.2

variable {calls : List (Call Owner)}

theorem wellFormed_of_reach (h : system.Reach calls inode) : WellFormed inode := by
  refine System.Reach.invariant (P := fun _ inode => WellFormed inode) ?_ ?_ h
  · intro inode hinit
    refine ⟨?_, ?_, ?_⟩
    · rw [Inode.locks, hinit]
      exact ⟨by simp, by simp, .nil, by simp⟩
    · rw [hinit]
      exact nodup_nil
    · rw [hinit]
      exact fun p hp => absurd hp not_mem_nil
  · rintro _ inode call _ hwell ⟨hcall, rfl⟩
    exact (posixLockFile_spec hwell hcall).1.wellFormed

theorem Normal.conflict_iff (h : Normal inode.locks) (htype : lock.flType ≠ .unlck)
    (hle : lock.flStart ≤ lock.flEnd) :
    (firstConflict inode lock).isSome ↔ ∃ o, o ≠ lock.flOwner ∧ ∃ x, lock.flStart ≤ x ∧
      x ≤ lock.flEnd ∧ (typeAt inode.locks o x = .wrlck ∨
        typeAt inode.locks o x = .rdlck ∧ lock.flType = .wrlck) := by
  rw [firstConflict_isSome_iff h htype hle]
  constructor
  · rintro ⟨l, hl, hne, hconf, x, hx, hlx⟩
    have hat := (h.typeAt_iff (h.valid l hl).type_ne).mpr ⟨l, hl, rfl, hlx, rfl⟩
    refine ⟨l.flOwner, hne, x, hx.1, hx.2, ?_⟩
    rw [hat]
    cases hty : l.flType with
    | rdlck => exact inr ⟨rfl, hconf.resolve_left (by rw [hty]; decide)⟩
    | wrlck => exact inl rfl
    | unlck => exact absurd hty (h.valid l hl).type_ne
  · rintro ⟨o, hne, x, h1, h2, hat | ⟨hat, hty⟩⟩
    · obtain ⟨l, hl, rfl, hlx, hlty⟩ := (h.typeAt_iff (by decide)).mp hat
      exact ⟨l, hl, hne, inl hlty, x, ⟨h1, h2⟩, hlx⟩
    · obtain ⟨l, hl, rfl, hlx, -⟩ := (h.typeAt_iff (by decide)).mp hat
      exact ⟨l, hl, hne, inr hty, x, ⟨h1, h2⟩, hlx⟩

/-- **Main theorem.** Byte-range locks have set semantics.  Every list that a sequence of calls
leads to is in normal form; a call that succeeds gives exactly the offsets that were asked for the
type of the request, for its owner; and a request for a lock is refused for a conflict or a deadlock
if and only if another owner has a lock on one of the offsets that conflicts with it. -/
theorem posix_lock_sets (h : system.Reach calls inode) :
    Normal inode.locks ∧ ∀ call : Call Owner, call.Ranged →
      ((posixLockFile call inode).1 = .ok → call.flags.access = false → ∀ o x,
        typeAt (posixLockFile call inode).2.2.locks o x =
          if o = call.lock.flOwner ∧ call.lock.flStart ≤ x ∧ x ≤ call.lock.flEnd
          then call.lock.flType else typeAt inode.locks o x) ∧
      (call.lock.flType ≠ .unlck →
        ((posixLockFile call inode).1 = .eagain ∨ (posixLockFile call inode).1 = .edeadlk ↔
          ∃ o, o ≠ call.lock.flOwner ∧ ∃ x, call.lock.flStart ≤ x ∧ x ≤ call.lock.flEnd ∧
            (typeAt inode.locks o x = .wrlck ∨
              typeAt inode.locks o x = .rdlck ∧ call.lock.flType = .wrlck))) := by
  have hwell := wellFormed_of_reach h
  refine ⟨hwell.normal, fun call hcall => ⟨(posixLockFile_spec hwell hcall).1.sets,
    fun htype => ?_⟩⟩
  rw [(posixLockFile_spec hwell hcall).1.refused]
  exact hwell.normal.conflict_iff htype hcall.le

/-- **A call that fails changes no lock**, whichever of the new locks could be allocated. -/
theorem posix_lock_failed (h : system.Reach calls inode)
    (hcall : call.Ranged) (hfail : (posixLockFile call inode).1 ≠ .ok) (o : Owner) (x : ℤ) :
    typeAt (posixLockFile call inode).2.2.locks o x = typeAt inode.locks o x := by
  rw [(posixLockFile_spec (wellFormed_of_reach h) hcall).2 hfail]

end Calls

/-- One owner locks the first ten bytes for reading, and then the two in the middle for writing. -/
def exampleCalls : List (Call ℕ) :=
  [⟨⟨1, .wrlck, 4, 5⟩, ⟨false, false, false⟩, true, true, []⟩,
    ⟨⟨1, .rdlck, 0, 9⟩, ⟨false, false, false⟩, true, true, []⟩]

/-- The inode after a list of calls, the last one first. -/
def afterCalls : List (Call ℕ) → Inode ℕ
  | [] => ⟨[], fun _ => ⟨0, .unlck, 0, 0⟩, 0⟩
  | call :: calls => (posixLockFile call (afterCalls calls)).2.2

theorem reach_exampleCalls : system.Reach exampleCalls (afterCalls exampleCalls) := by
  refine System.Reach.step (System.Reach.step (System.Reach.init ?_) ⟨⟨?_, ?_, ?_⟩, rfl⟩)
    ⟨⟨?_, ?_, ?_⟩, rfl⟩
  · rfl
  all_goals decide

/-- The lock is split, and a second owner that wants to read the middle is refused. -/
theorem posix_lock_sets_split :
    (afterCalls exampleCalls).locks =
        [⟨1, .rdlck, 0, 3⟩, ⟨1, .wrlck, 4, 5⟩, ⟨1, .rdlck, 6, 9⟩] ∧
      Normal (afterCalls exampleCalls).locks ∧
      ((posixLockFile ⟨⟨2, .rdlck, 5, 7⟩, ⟨false, false, false⟩, true, true, []⟩
          (afterCalls exampleCalls)).1 = .eagain ∨
        (posixLockFile ⟨⟨2, .rdlck, 5, 7⟩, ⟨false, false, false⟩, true, true, []⟩
          (afterCalls exampleCalls)).1 = .edeadlk) := by
  obtain ⟨hnormal, hcalls⟩ := posix_lock_sets reach_exampleCalls
  refine ⟨by decide, hnormal, ((hcalls _ ⟨?_, ?_, ?_⟩).2 ?_).mpr ⟨1, ?_, 5, ?_, ?_, inl ?_⟩⟩ <;>
    decide

/-- The last lock cannot be split without a second new lock. -/
theorem posix_lock_failed_split :
    (posixLockFile ⟨⟨1, .unlck, 7, 8⟩, ⟨false, false, false⟩, true, false, []⟩
        (afterCalls exampleCalls)).1 = .enolck ∧
      ∀ o x, typeAt (posixLockFile ⟨⟨1, .unlck, 7, 8⟩, ⟨false, false, false⟩, true, false, []⟩
          (afterCalls exampleCalls)).2.2.locks o x =
        typeAt (afterCalls exampleCalls).locks o x := by
  refine ⟨by decide, posix_lock_failed reach_exampleCalls ⟨?_, ?_, ?_⟩ ?_⟩ <;> decide

end Gp2xKernel.Locks
