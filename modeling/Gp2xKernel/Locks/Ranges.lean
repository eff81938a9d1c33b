import Mathlib.Data.List.Pairwise
import Gp2xKernel.Locks.Basic

/-!
# Runs of locks

The locks of one owner as a set of offsets with types.  A run is in normal form if it is sorted,
its locks do not overlap, and locks that touch have different types.

## Main definitions

* `Covers`, `Has`: the offsets of a lock, and the type that a run gives to an offset
* `Valid`, `Before`: a lock of the list, and the order of the locks of one owner
* `IsRun`: the locks of one owner in normal form
* `cutEnd`, `cutStart`: a lock cut before a range, and behind it

## Main results

* `IsRun.cut`: a run that is cut around a range is in normal form again
* `has_cut_iff`: which type it gives to an offset
-/

namespace Gp2xKernel.Locks

open List

variable {Owner : Type}

/-- The lock covers the offset. -/
def Covers (l : FileLock Owner) (x : ℤ) : Prop := l.flStart ≤ x ∧ x ≤ l.flEnd

instance (l : FileLock Owner) (x : ℤ) : Decidable (Covers l x) :=
  inferInstanceAs (Decidable (_ ∧ _))

/-- Some lock of the list covers the offset and has the type. -/
def Has (ls : List (FileLock Owner)) (x : ℤ) (τ : LockType) : Prop :=
  ∃ l ∈ ls, Covers l x ∧ l.flType = τ

variable {ls ms : List (FileLock Owner)} {x s e : ℤ} {o : Owner} {l : FileLock Owner}

theorem has_append_iff {τ : LockType} : Has (ls ++ ms) x τ ↔ Has ls x τ ∨ Has ms x τ := by
  simp [Has, or_and_right, exists_or]

/-- A lock that may be in a list. -/
structure Valid (l : FileLock Owner) : Prop where
  nonneg : 0 ≤ l.flStart
  le : l.flStart ≤ l.flEnd
  le_max : l.flEnd ≤ offsetMax
  type_ne : l.flType ≠ .unlck

/-- One lock ends before another one starts, and leaves a gap if they have the same type. -/
def Before (a b : FileLock Owner) : Prop :=
  a.flEnd < b.flStart ∧ (a.flType = b.flType → a.flEnd + 1 < b.flStart)

/-- The locks of an owner in normal form. -/
structure IsRun (o : Owner) (ls : List (FileLock Owner)) : Prop where
  owner : ∀ l ∈ ls, l.flOwner = o
  valid : ∀ l ∈ ls, Valid l
  sorted : ls.Pairwise Before

theorem isRun_nil (o : Owner) : IsRun o [] :=
  ⟨fun _ h => absurd h not_mem_nil, fun _ h => absurd h not_mem_nil, List.Pairwise.nil⟩

theorem isRun_append_iff :
    IsRun o (ls ++ ms) ↔ IsRun o ls ∧ IsRun o ms ∧ ∀ a ∈ ls, ∀ b ∈ ms, Before a b := by
  constructor
  · rintro ⟨howner, hvalid, hsorted⟩
    obtain ⟨howner, howner'⟩ := forall_mem_append.mp howner
    obtain ⟨hvalid, hvalid'⟩ := forall_mem_append.mp hvalid
    obtain ⟨hls, hms, hcross⟩ := pairwise_append.mp hsorted
    exact ⟨⟨howner, hvalid, hls⟩, ⟨howner', hvalid', hms⟩, hcross⟩
  · rintro ⟨hls, hms, hcross⟩
    exact ⟨forall_mem_append.mpr ⟨hls.owner, hms.owner⟩,
      forall_mem_append.mpr ⟨hls.valid, hms.valid⟩,
      pairwise_append.mpr ⟨hls.sorted, hms.sorted, hcross⟩⟩

theorem isRun_singleton_iff : IsRun o [l] ↔ l.flOwner = o ∧ Valid l := by
  constructor
  · intro h
    exact ⟨h.owner l (mem_singleton_self l), h.valid l (mem_singleton_self l)⟩
  · rintro ⟨howner, hvalid⟩
    exact ⟨forall_mem_singleton.mpr howner, forall_mem_singleton.mpr hvalid, pairwise_singleton _ _⟩

theorem IsRun.has_unique (h : IsRun o ls) {τ τ' : LockType} (hτ : Has ls x τ)
    (hτ' : Has ls x τ') : τ = τ' := by
  obtain ⟨a, ha, hax, rfl⟩ := hτ
  obtain ⟨b, hb, hbx, rfl⟩ := hτ'
  by_contra hne
  have hab : a ≠ b := fun heq => hne (heq ▸ rfl)
  -- two different locks of a run do not overlap, in whichever order they come
  have hdisjoint : ls.Pairwise fun a b => ¬(Covers a x ∧ Covers b x) :=
    h.sorted.imp fun {a b} hlt hcov => by
      have := hlt.1
      have := hcov.1.2
      have := hcov.2.1
      omega
  have hsymm : Std.Symm fun a b : FileLock Owner => ¬(Covers a x ∧ Covers b x) :=
    ⟨fun _ _ hab hcov => hab ⟨hcov.2, hcov.1⟩⟩
  exact hdisjoint.forall ha hb hab ⟨hax, hbx⟩

/-! ## Cutting -/

/-- The part of a lock before offset `s`. -/
def cutEnd (s : ℤ) (l : FileLock Owner) : FileLock Owner :=
  if l.flEnd < s then l else { l with flEnd := s - 1 }

/-- The part of a lock behind offset `e`. -/
def cutStart (e : ℤ) (l : FileLock Owner) : FileLock Owner :=
  if e < l.flStart then l else { l with flStart := e + 1 }

theorem cutEnd_eq (s : ℤ) (l : FileLock Owner) :
    cutEnd s l = { l with flEnd := min l.flEnd (s - 1) } := by
  rw [cutEnd]
  split
  · rw [min_eq_left (by omega)]
  · rw [min_eq_right (by omega)]

theorem cutStart_eq (e : ℤ) (l : FileLock Owner) :
    cutStart e l = { l with flStart := max l.flStart (e + 1) } := by
  rw [cutStart]
  split
  · rw [max_eq_left (by omega)]
  · rw [max_eq_right (by omega)]

theorem covers_cutEnd_iff : Covers (cutEnd s l) x ↔ Covers l x ∧ x < s := by
  simp only [cutEnd_eq, Covers]
  omega

theorem covers_cutStart_iff : Covers (cutStart e l) x ↔ Covers l x ∧ e < x := by
  simp only [cutStart_eq, Covers]
  omega

variable {f : FileLock Owner → FileLock Owner}

/-- Cutting each lock of a list leaves the types of the offsets that are not cut off. -/
theorem has_map_iff {kept : Prop}
    (hcovers : ∀ l, Covers (f l) x ↔ Covers l x ∧ kept) (htype : ∀ l, (f l).flType = l.flType)
    {τ : LockType} : Has (ls.map f) x τ ↔ Has ls x τ ∧ kept := by
  constructor
  · rintro ⟨l, hl, hcov, rfl⟩
    obtain ⟨a, ha, rfl⟩ := mem_map.mp hl
    obtain ⟨hcov, hx⟩ := (hcovers a).mp hcov
    exact ⟨⟨a, ha, hcov, (htype a).symm⟩, hx⟩
  · rintro ⟨⟨a, ha, hcov, rfl⟩, hx⟩
    exact ⟨f a, mem_map_of_mem ha, (hcovers a).mpr ⟨hcov, hx⟩, htype a⟩

/-- Cutting each lock of a run keeps the normal form, if something is left of each lock. -/
theorem IsRun.map (h : IsRun o ls)
    (howner : ∀ l, (f l).flOwner = l.flOwner) (hvalid : ∀ l ∈ ls, Valid (f l))
    (hbefore : ∀ a b, Before a b → Before (f a) (f b)) : IsRun o (ls.map f) := by
  refine ⟨fun l hl => ?_, fun l hl => ?_,
    pairwise_map.mpr (h.sorted.imp fun hab => hbefore _ _ hab)⟩
  · obtain ⟨a, ha, rfl⟩ := mem_map.mp hl
    rw [howner, h.owner a ha]
  · obtain ⟨a, ha, rfl⟩ := mem_map.mp hl
    exact hvalid a ha

/-- The locks before a range and behind it, when the range of type `t` is to be put between
them. -/
structure Around (t : LockType) (s e : ℤ) (P B : List (FileLock Owner)) : Prop where
  before : ∀ p ∈ P, p.flStart < s ∧ (p.flType = t → p.flEnd + 1 < s)
  behind : ∀ b ∈ B, e < b.flEnd ∧ (b.flType = t → e + 1 < b.flStart)

theorem mem_range_iff {a r : FileLock Owner} :
    a ∈ (if r.flType = .unlck then [] else [r]) ↔ a = r ∧ r.flType ≠ .unlck := by
  by_cases hty : r.flType = .unlck
  · simp [hty]
  · simp [hty]

/-- **Cutting keeps the normal form**, with the range itself between the two parts unless its type
is `F_UNLCK`. -/
theorem IsRun.cut {o : Owner} {P B : List (FileLock Owner)} (hP : IsRun o P) (hB : IsRun o B)
    {r : FileLock Owner} (hr : r.flOwner = o) (h0 : 0 ≤ r.flStart) (hle : r.flStart ≤ r.flEnd)
    (hmax : r.flEnd ≤ offsetMax) (hcut : Around r.flType r.flStart r.flEnd P B) :
    IsRun o (P.map (cutEnd r.flStart) ++ (if r.flType = .unlck then [] else [r]) ++
      B.map (cutStart r.flEnd)) := by
  have hP' : IsRun o (P.map (cutEnd r.flStart)) := by
    refine hP.map (fun l => by rw [cutEnd_eq]) (fun p hp => ?_) fun a b hab => ?_
    · obtain ⟨hnonneg, hle', hmax', hty⟩ := hP.valid p hp
      have hlt := (hcut.before p hp).1
      rw [cutEnd_eq]
      exact ⟨hnonneg, le_min hle' (Int.le_sub_one_of_lt hlt), min_le_of_left_le hmax', hty⟩
    · rw [cutEnd_eq, cutEnd_eq]
      exact ⟨min_lt_of_left_lt hab.1, fun hty => lt_of_le_of_lt (by simp) (hab.2 hty)⟩
  have hB' : IsRun o (B.map (cutStart r.flEnd)) := by
    refine hB.map (fun l => by rw [cutStart_eq]) (fun b hb => ?_) fun a b hab => ?_
    · obtain ⟨hnonneg, hle', hmax', hty⟩ := hB.valid b hb
      have hlt := (hcut.behind b hb).1
      rw [cutStart_eq]
      exact ⟨le_max_of_le_left hnonneg, max_le hle' hlt, hmax', hty⟩
    · rw [cutStart_eq, cutStart_eq]
      exact ⟨lt_max_of_lt_left hab.1, fun hty => lt_max_of_lt_left (hab.2 hty)⟩
  have hmid : IsRun o (if r.flType = .unlck then [] else [r]) := by
    split
    · exact isRun_nil o
    · next hty => exact isRun_singleton_iff.mpr ⟨hr, h0, hle, hmax, hty⟩
  refine isRun_append_iff.mpr ⟨isRun_append_iff.mpr ⟨hP', hmid, fun a ha b hb => ?_⟩, hB',
    fun a ha b hb => ?_⟩
  · obtain ⟨p, hp, rfl⟩ := mem_map.mp ha
    obtain ⟨hstart, htouch⟩ := hcut.before p hp
    obtain ⟨rfl, -⟩ := mem_range_iff.mp hb
    rw [cutEnd_eq]
    refine ⟨min_lt_of_right_lt (by omega), fun hty => ?_⟩
    exact lt_of_le_of_lt (by simp) (htouch hty)
  · obtain ⟨c, hc, rfl⟩ := mem_map.mp hb
    obtain ⟨hend, htouch⟩ := hcut.behind c hc
    rw [cutStart_eq]
    rcases mem_append.mp ha with ha | ha
    · -- a lock before the range and one behind it leave at least the range between them
      obtain ⟨p, -, rfl⟩ := mem_map.mp ha
      rw [cutEnd_eq]
      refine ⟨min_lt_of_right_lt (lt_max_of_lt_right (by omega)), fun _ => ?_⟩
      exact lt_max_of_lt_right (by dsimp only; omega)
    · obtain ⟨rfl, -⟩ := mem_range_iff.mp ha
      refine ⟨lt_max_of_lt_right (by omega), fun hty => ?_⟩
      exact lt_max_of_lt_left (htouch hty.symm)

/-- **Which type an offset has after cutting**: within the range that of the range, and elsewhere
the one it had.  A lock that goes beyond the range on both sides belongs to both parts. -/
theorem has_cut_iff {P B : List (FileLock Owner)} {r : FileLock Owner} {τ : LockType}
    (hP : ∀ p ∈ P, p.flEnd ≤ r.flEnd ∨ p ∈ B) (hB : ∀ b ∈ B, r.flStart ≤ b.flStart ∨ b ∈ P)
    (hτ : τ ≠ .unlck) :
    Has (P.map (cutEnd r.flStart) ++ (if r.flType = .unlck then [] else [r]) ++
        B.map (cutStart r.flEnd)) x τ ↔
      if Covers r x then τ = r.flType else Has (P ++ B) x τ := by
  rw [has_append_iff, has_append_iff, has_append_iff,
    has_map_iff (fun _ => covers_cutEnd_iff) (fun l => by rw [cutEnd_eq]),
    has_map_iff (fun _ => covers_cutStart_iff) fun l => by rw [cutStart_eq]]
  have hmid : Has (if r.flType = .unlck then [] else [r]) x τ ↔ Covers r x ∧ τ = r.flType := by
    constructor
    · rintro ⟨l, hl, hcov, rfl⟩
      obtain ⟨rfl, -⟩ := mem_range_iff.mp hl
      exact ⟨hcov, rfl⟩
    · rintro ⟨hcov, rfl⟩
      exact ⟨r, mem_range_iff.mpr ⟨rfl, hτ⟩, hcov, rfl⟩
  rw [hmid]
  by_cases hx : Covers r x
  · have h1 := hx.1
    have h2 := hx.2
    rw [if_pos hx]
    constructor
    · rintro ((⟨-, hlt⟩ | ⟨-, heq⟩) | ⟨-, hlt⟩)
      · omega
      · exact heq
      · omega
    · exact fun heq => Or.inl (Or.inr ⟨hx, heq⟩)
  · -- outside of the range, the part on the side of the offset keeps the lock
    rw [if_neg hx]
    constructor
    · rintro ((⟨h, -⟩ | ⟨hcov, -⟩) | ⟨h, -⟩)
      · exact Or.inl h
      · exact absurd hcov hx
      · exact Or.inr h
    · rintro (⟨p, hp, hcov, rfl⟩ | ⟨b, hb, hcov, rfl⟩)
      · by_cases hlt : x < r.flStart
        · exact Or.inl (Or.inl ⟨⟨p, hp, hcov, rfl⟩, hlt⟩)
        · have hgt : r.flEnd < x := not_le.mp fun h => hx ⟨not_lt.mp hlt, h⟩
          have hpB := (hP p hp).resolve_left (by have := hcov.2; omega)
          exact Or.inr ⟨⟨p, hpB, hcov, rfl⟩, hgt⟩
      · by_cases hgt : r.flEnd < x
        · exact Or.inr ⟨⟨b, hb, hcov, rfl⟩, hgt⟩
        · have hlt : x < r.flStart := not_le.mp fun h => hx ⟨h, not_lt.mp hgt⟩
          have hbP := (hB b hb).resolve_left (by have := hcov.1; omega)
          exact Or.inl (Or.inl ⟨⟨b, hbP, hcov, rfl⟩, hlt⟩)

end Gp2xKernel.Locks
