import Gp2xKernel.Locks.Loop

/-!
# Behind the loop

When the loop has stopped, a new lock is inserted for the request if it has no place in the list
yet, and the locks that go beyond the request are cut; one that goes beyond it on both sides is
split in two.

## Main definitions

* `Sets`: the locks of the owner after a request, as a set of offsets with types

## Main results

* `Inv.cut_spec`: the locks around the request give each offset the type it is to have
* `afterLoop_spec`: the routine either fails and leaves the locks alone, or does what was asked
-/

namespace Gp2xKernel.Locks

open List Function Or

variable {Owner : Type}

/-- The run gives the type of the request to the offsets that were asked for, and leaves the others
as they were. -/
def Sets (job : Job Owner) (S : List (FileLock Owner)) : Prop :=
  ∀ x τ, τ ≠ .unlck → (Has S x τ ↔
    if job.first ≤ x ∧ x ≤ job.last then τ = job.type else Has job.before x τ)

/-- A run in normal form that does what the request asks for. -/
def Done (job : Job Owner) (S : List (FileLock Owner)) : Prop := IsRun job.owner S ∧ Sets job S

section Cut

variable {job : Job Owner} {mem : Mem Owner} {P B : List ℕ} {request : ℕ}
  {r : FileLock Owner} {added aliased : Bool} {left : Option ℕ}

/-- The locks of the owner after the request has been put between those before it and those behind
it. -/
def around (r : FileLock Owner) (P B : List (FileLock Owner)) : List (FileLock Owner) :=
  P.map (cutEnd r.flStart) ++ (if r.flType = .unlck then [] else [r]) ++ B.map (cutStart r.flEnd)

/-- **The locks around the request** are in normal form and give each offset the type it is to
have. -/
theorem Inv.cut_spec (h : Inv job mem P B request r added aliased left)
    (hbefore : IsRun job.owner job.before) {P' B' : List (FileLock Owner)}
    (hP : IsRun job.owner P') (hB : IsRun job.owner B')
    (haround : Around job.type r.flStart r.flEnd P' B')
    (hPend : ∀ p ∈ P', p.flEnd ≤ r.flEnd ∨ p ∈ B') (hBstart : ∀ b ∈ B', r.flStart ≤ b.flStart ∨
      b ∈ P')
    (hids : ∀ l, l ∈ P' ++ B' ↔ l ∈ (P ++ B).map mem) :
    Done job (around r P' B') := by
  have h1 := h.start_le
  have h2 := h.first_le
  have h3 := h.le_end
  constructor
  · exact hP.cut hB h.owner h.nonneg (by omega) h.le_max (h.type ▸ haround)
  · intro x τ hτ
    rw [around, has_cut_iff hPend hBstart hτ, h.type]
    by_cases hx : job.first ≤ x ∧ x ≤ job.last
    · rw [if_pos hx, if_pos ⟨by omega, by omega⟩]
    · rw [if_neg hx]
      by_cases hcov : Covers r x
      · -- the request has grown over offsets that had its type
        have hhas := h.extended x hcov hx
        rw [if_pos hcov]
        constructor
        · rintro rfl
          exact hhas
        · exact fun hτ' => hbefore.has_unique hτ' hhas
      · rw [if_neg hcov, h.outside x τ hcov]
        exact exists_congr fun l => and_congr_left fun _ => hids l

variable {p b : ℕ}

section

variable (h : Inv job mem P B request r added aliased left)
include h

/-- Cutting the lock `left` cuts all locks that were passed. -/
theorem Inv.cutEnd_eq (hp : p ∈ P) :
    cutEnd r.flStart (mem p) =
      if left = some p then { mem p with flEnd := r.flStart - 1 } else mem p := by
  by_cases hl : left = some p
  · rw [if_pos hl, cutEnd, if_neg (not_lt.mpr (h.left_mem p hl).2)]
  · rw [if_neg hl, cutEnd, if_pos]
    rcases h.passed p hp with ⟨hlt, -⟩ | ⟨heq, -⟩
    · exact hlt
    · exact absurd heq hl

/-- The locks that were passed are around the request. -/
theorem Inv.before_request (hp : p ∈ P) : (mem p).flStart < r.flStart ∧
      ((mem p).flType = job.type → (mem p).flEnd + 1 < r.flStart) ∧ (mem p).flEnd ≤ r.flEnd := by
  have hvalid := h.run.valid (mem p) (mem_map_of_mem (mem_append_left _ hp))
  have h1 := hvalid.le
  have h2 := h.start_le_end
  rcases h.passed p hp with ⟨hlt, htype⟩ | ⟨-, htype, hlt, -, hle⟩
  · exact ⟨by omega, htype, by omega⟩
  · exact ⟨hlt, fun ht => absurd ht htype, hle⟩

theorem Inv.run_left : IsRun job.owner (P.map mem) ∧ IsRun job.owner (B.map mem) := by
  have hrun := h.run
  rw [map_append] at hrun
  obtain ⟨hP, hB, -⟩ := isRun_append_iff.mp hrun
  exact ⟨hP, hB⟩

/-- The locks around the request when `P'` are those that begin before it, and all others end
behind it. -/
theorem Inv.cut_around (hbefore : IsRun job.owner job.before) {P' : List ℕ} (hsub : P ⊆ P')
    (hrun : IsRun job.owner (P'.map mem))
    (hP : ∀ p ∈ P', p ∈ P ∨ p ∈ B ∧ (mem p).flStart < r.flStart ∧ (mem p).flType ≠ job.type)
    (hB : ∀ b ∈ B, r.flEnd < (mem b).flEnd ∧
      ((mem b).flType = job.type → r.flEnd + 1 < (mem b).flStart) ∧
      (r.flStart ≤ (mem b).flStart ∨ b ∈ P')) :
    Done job (around r (P'.map mem) (B.map mem)) := by
  refine h.cut_spec hbefore hrun h.run_left.2 ⟨fun l hl => ?_, fun l hl => ?_⟩ (fun l hl => ?_)
    (fun l hl => ?_) fun l => ?_
  · obtain ⟨p, hp, rfl⟩ := mem_map.mp hl
    rcases hP p hp with hp | ⟨-, hstart, htype⟩
    · exact ⟨(h.before_request hp).1, (h.before_request hp).2.1⟩
    · exact ⟨hstart, fun ht => absurd ht htype⟩
  · obtain ⟨b, hb, rfl⟩ := mem_map.mp hl
    exact ⟨(hB b hb).1, (hB b hb).2.1⟩
  · obtain ⟨p, hp, rfl⟩ := mem_map.mp hl
    rcases hP p hp with hp | ⟨hp, -⟩
    · exact inl (h.before_request hp).2.2
    · exact inr (mem_map_of_mem hp)
  · obtain ⟨b, hb, rfl⟩ := mem_map.mp hl
    exact (hB b hb).2.2.imp_right mem_map_of_mem
  · -- a lock that goes beyond the request on both sides is in both parts
    rw [← map_append, mem_map, mem_map]
    refine exists_congr fun a => and_congr_left fun _ => ?_
    rw [mem_append, mem_append]
    constructor
    · rintro (ha | ha)
      · exact (hP a ha).imp_right And.left
      · exact inr ha
    · exact fun ha => ha.imp_left fun hp => hsub hp

/-- The loop has stopped behind the locks that it has to do with. -/
theorem Inv.cut_past (hbefore : IsRun job.owner job.before)
    (hpast : ∀ b ∈ B, r.flEnd < (mem b).flStart ∧
      ((mem b).flType = job.type → r.flEnd + 1 < (mem b).flStart)) :
    Done job (around r (P.map mem) (B.map mem)) := by
  obtain ⟨hP, hB⟩ := h.run_left
  refine h.cut_around hbefore (Subset.refl P) hP (fun _ => inl) fun b hb => ?_
  have hle := (hB.valid _ (mem_map_of_mem hb)).le
  have h1 := h.start_le_end
  have h2 := (hpast b hb).1
  exact ⟨by omega, (hpast b hb).2, inl (by omega)⟩

end

section Right

variable (h : Inv job mem P (b :: B) request r added aliased left)
  (hbefore : IsRun job.owner job.before) (htype : (mem b).flType ≠ job.type)
  (hend : r.flEnd < (mem b).flEnd)
include h htype hend

/-- The locks from the one on where the loop has stopped, if that goes on behind the request. -/
theorem Inv.behind_request : ∀ a ∈ b :: B, r.flEnd < (mem a).flEnd ∧
    ((mem a).flType = job.type → r.flEnd + 1 < (mem a).flStart) ∧
    (a = b ∨ r.flStart ≤ (mem a).flStart) := by
  intro a ha
  have hle := (h.run_left.2.valid _ (mem_map_of_mem ha)).le
  obtain ⟨-, -, -, hbehind⟩ := h.next
  rcases mem_cons.mp ha with rfl | ha
  · exact ⟨hend, fun ht => absurd ht htype, inl rfl⟩
  · have h1 := h.start_le_end
    have h2 := (hbehind a ha).1
    exact ⟨by omega, fun _ => by omega, inr (by omega)⟩

include hbefore

/-- That lock begins within the request. -/
theorem Inv.cut_right (hstart : r.flStart ≤ (mem b).flStart) :
    Done job (around r (P.map mem) ((b :: B).map mem)) := by
  refine h.cut_around hbefore (Subset.refl P) h.run_left.1 (fun _ => inl) fun a ha => ?_
  obtain ⟨h1, h2, h3⟩ := h.behind_request htype hend a ha
  refine ⟨h1, h2, inl ?_⟩
  rcases h3 with rfl | h3
  · exact hstart
  · exact h3

/-- That lock goes beyond the request on both sides. -/
theorem Inv.cut_split (hstart : (mem b).flStart < r.flStart) :
    Done job (around r ((P ++ [b]).map mem) ((b :: B).map mem)) := by
  have hrun := h.run
  rw [append_cons, map_append] at hrun
  refine h.cut_around hbefore (subset_append_left P [b]) (isRun_append_iff.mp hrun).1
    (fun p hp => ?_) fun a ha => ?_
  · refine (mem_append.mp hp).imp_right fun hp => ?_
    rw [mem_singleton.mp hp]
    exact ⟨mem_cons_self, hstart, htype⟩
  · obtain ⟨h1, h2, h3⟩ := h.behind_request htype hend a ha
    refine ⟨h1, h2, h3.symm.imp_right ?_⟩
    rintro rfl
    exact mem_append_right _ (mem_singleton_self _)

end Right

end Cut

/-! ## The list -/

section List

variable {job : Job Owner} {mem : Mem Owner} {X P B Y : List ℕ} {request n₁ n₂ : ℕ}
  {r : FileLock Owner} {added aliased : Bool} {left : Option ℕ}

/-- The addresses in use: the two new locks, the request, and the locks of the list. -/
structure Apart (n₁ n₂ request : ℕ) (X P B Y : List ℕ) : Prop where
  nodup : (X ++ P ++ B ++ Y).Nodup
  request_notMem : request ∉ X ++ P ++ B ++ Y
  new_notMem : n₁ ∉ X ++ P ++ B ++ Y
  new2_notMem : n₂ ∉ X ++ P ++ B ++ Y
  new_ne : n₁ ≠ request
  new2_ne : n₂ ≠ request
  new_ne_new2 : n₁ ≠ n₂

/-- What the routine does to the list: the locks of other owners stay, and those of this one are
`S`. -/
structure Outcome (job : Job Owner) (mem : Mem Owner) (X Y ids : List ℕ)
    (result : Errno × List ℕ × Mem Owner) (S : List (FileLock Owner)) : Prop where
  locks : result.2.1.map result.2.2 = X.map mem ++ S ++ Y.map mem
  run : IsRun job.owner S
  sets : result.1 = .ok → Sets job S
  failed : result.1 ≠ .ok → S = job.before
  nodup : result.2.1.Nodup
  ids : ∀ q ∈ result.2.1, q ∈ ids

/-- The routine ends without having changed anything. -/
theorem outcome_kept (hapart : Apart n₁ n₂ request X P B Y) (hkept : (P ++ B).map mem = job.before)
    (haliased : aliased = false) (hbefore : IsRun job.owner job.before) {error : Errno}
    (hsets : error = .ok → Sets job job.before) :
    Outcome job mem X Y (n₁ :: n₂ :: request :: (X ++ P ++ B ++ Y))
      (error, X ++ P ++ aliasPart aliased request ++ (B ++ Y), mem) job.before := by
  have hlist : X ++ P ++ aliasPart aliased request ++ (B ++ Y) = X ++ P ++ B ++ Y := by
    rw [haliased, aliasPart, if_neg (by decide), append_nil, ← append_assoc]
  rw [hlist]
  refine ⟨?_, hbefore, hsets, fun _ => rfl, hapart.nodup, fun q hq => ?_⟩
  · show (X ++ P ++ B ++ Y).map mem = _
    rw [← hkept]
    simp
  · exact mem_cons_of_mem _ (mem_cons_of_mem _ (mem_cons_of_mem _ hq))

variable {m : Mem Owner} {M : List ℕ} {Pv : List (FileLock Owner)} {q b : ℕ} {newFl : Option ℕ}

/-- The new list, when each part of it has the records that it is to have. -/
theorem map_around {P' : List ℕ} (hX : ∀ q ∈ X, m q = mem q) (hY : ∀ q ∈ Y, m q = mem q)
    (hP : P'.map m = Pv.map (cutEnd r.flStart))
    (hM : M.map m = if r.flType = .unlck then [] else [r])
    (hB : ∀ q ∈ B, m q = cutStart r.flEnd (mem q)) :
    (X ++ P' ++ M ++ (B ++ Y)).map m = X.map mem ++ around r Pv (B.map mem) ++ Y.map mem := by
  have hB' : B.map m = (B.map mem).map (cutStart r.flEnd) := by
    rw [map_map]
    exact map_congr_left hB
  simp [map_congr_left hX, map_congr_left hY, hP, hM, hB', around]

/-- The part of the new list that the request makes up. -/
def newPart (added : Bool) (n₁ : ℕ) : List ℕ := if added then [] else [n₁]

/-- The memory after the new lock for the request was filled in. -/
def newMem (added : Bool) (mem : Mem Owner) (n₁ request : ℕ) : Mem Owner :=
  if added then mem else Function.update mem n₁ (mem request)

theorem insertRequest_eq (loop : Loop Owner) (post : List ℕ) :
    insertRequest n₁ loop post = ({ loop with mem := newMem loop.added loop.mem n₁ loop.request },
      newPart loop.added n₁ ++ post) := by
  rw [insertRequest, newMem, newPart]
  split <;> rfl

theorem newMem_of_ne (hq : q ≠ n₁) : newMem added mem n₁ request q = mem q := by
  rw [newMem]
  split
  · rfl
  · exact update_of_ne hq ..

/-- The request has one place in the list, unless it is to remove locks. -/
theorem Inv.map_newPart (h : Inv job mem P B request r added aliased left)
    (hadded : job.type = .unlck → added = true) :
    (aliasPart aliased request ++ newPart added n₁).map (newMem added mem n₁ request) =
      if r.flType = .unlck then [] else [r] := by
  rw [h.type]
  by_cases ht : job.type = .unlck
  · rw [if_pos ht, h.unlck ht, hadded ht]
    rfl
  · rw [if_neg ht, h.added_iff ht]
    cases aliased with
    | true =>
      show [mem request] = [r]
      rw [h.mem_request]
    | false =>
      show [update mem n₁ (mem request) n₁] = [r]
      rw [update_self, h.mem_request]

/-- Cutting the lock `left`, if there is one. -/
theorem cutLeft_apply (loop : Loop Owner) (hr : loop.mem loop.request = r) (h0 : 0 ≤ r.flStart)
    (hmax : r.flStart ≤ offsetMax) (q : ℕ) :
    cutLeft loop q =
      if loop.left = some q then { loop.mem q with flEnd := r.flStart - 1 } else loop.mem q := by
  rw [cutLeft]
  cases hleft : loop.left with
  | none => rfl
  | some l =>
    dsimp only
    rw [hr, loff_eq (by omega) (by omega)]
    by_cases hq : q = l
    · subst hq
      rw [if_pos rfl, setEnd_self]
    · rw [if_neg fun heq => hq (Option.some.inj heq).symm, setEnd_of_ne _ hq]

/-- The new list consists of addresses that are in use, without repetition. -/
theorem Apart.nodup_new (hapart : Apart n₁ n₂ request X P B Y)
    (hM : M.Sublist [n₂, request, n₁]) :
    (X ++ P ++ M ++ (B ++ Y)).Nodup ∧
      ∀ q ∈ X ++ P ++ M ++ (B ++ Y), q ∈ n₁ :: n₂ :: request :: (X ++ P ++ B ++ Y) := by
  obtain ⟨h1, h2, h3, h4, h5, h6, h7⟩ := hapart
  have hMmem : ∀ q ∈ M, q = n₂ ∨ q = request ∨ q = n₁ := fun q hq => by
    simpa using hM.subset hq
  have hMnodup : M.Nodup := List.Nodup.sublist hM (by simp [h5.symm, h6, h7.symm])
  have hMout : ∀ q ∈ M, q ∉ X ++ P ++ B ++ Y := by
    intro q hq
    rcases hMmem q hq with rfl | rfl | rfl <;> assumption
  have hperm : (X ++ P ++ M ++ (B ++ Y)).Perm (M ++ (X ++ P ++ B ++ Y)) := by
    rw [append_assoc (X ++ P) M, append_assoc (X ++ P) B Y]
    exact perm_append_comm_assoc _ _ _
  constructor
  · rw [hperm.nodup_iff, nodup_append]
    exact ⟨hMnodup, h1, fun a ha b hb heq => hMout a ha (heq ▸ hb)⟩
  · intro q hq
    rcases mem_append.mp (hperm.subset hq) with hq | hq
    · rcases hMmem q hq with rfl | rfl | rfl <;> simp
    · exact mem_cons_of_mem _ (mem_cons_of_mem _ (mem_cons_of_mem _ hq))

theorem newPart_sublist :
    (aliasPart aliased request ++ newPart added n₁).Sublist [request, n₁] := by
  have halias : (aliasPart aliased request).Sublist [request] := by
    cases aliased <;> simp [aliasPart]
  have hnew : (newPart added n₁).Sublist [n₁] := by cases added <;> simp [newPart]
  exact halias.append hnew

section

variable (hapart : Apart n₁ n₂ request X P B Y)
include hapart

/-- The routine succeeds, when the memory holds what it is to hold at each address. -/
theorem outcome_new {E : List ℕ} (hids : (E ++ M).Sublist [n₂, request, n₁])
    (hspec : Done job (around r Pv (B.map mem))) (hXY : ∀ q, q ∈ X ∨ q ∈ Y → m q = mem q)
    (hP : (P ++ E).map m = Pv.map (cutEnd r.flStart))
    (hM : M.map m = if r.flType = .unlck then [] else [r])
    (hB : ∀ q ∈ B, m q = cutStart r.flEnd (mem q)) :
    Outcome job mem X Y (n₁ :: n₂ :: request :: (X ++ P ++ B ++ Y))
      (.ok, X ++ P ++ (E ++ M) ++ (B ++ Y), m) (around r Pv (B.map mem)) := by
  obtain ⟨hnodup, hmem⟩ := hapart.nodup_new hids
  refine ⟨?_, hspec.1, fun _ => hspec.2, fun hne => absurd rfl hne, hnodup, hmem⟩
  have hlist : X ++ P ++ (E ++ M) ++ (B ++ Y) = X ++ (P ++ E) ++ M ++ (B ++ Y) := by
    simp
  rw [hlist]
  exact map_around (fun q hq => hXY q (inl hq)) (fun q hq => hXY q (inr hq)) hP hM hB

/-- Addresses of the list are neither new nor that of the request. -/
theorem Apart.ne_of_mem (hq : q ∈ X ++ P ++ B ++ Y) : q ≠ n₁ ∧ q ≠ n₂ ∧ q ≠ request := by
  refine ⟨?_, ?_, ?_⟩
  · rintro rfl
    exact hapart.new_notMem hq
  · rintro rfl
    exact hapart.new2_notMem hq
  · rintro rfl
    exact hapart.request_notMem hq

/-- The four parts of the list have no address in common. -/
theorem Apart.disjoint : (∀ q, q ∈ X ∨ q ∈ Y → q ∉ P ∧ q ∉ B) ∧ ∀ q ∈ P, q ∉ B := by
  have h := hapart.nodup
  simp only [nodup_append, mem_append] at h
  obtain ⟨⟨⟨-, -, hXP⟩, -, hXPB⟩, -, hY⟩ := h
  refine ⟨fun q hq => ?_, fun q hq hqB => hXPB q (inr hq) q hqB rfl⟩
  rcases hq with hq | hq
  · exact ⟨fun hp => hXP q hq q hp rfl, fun hb => hXPB q (inl hq) q hb rfl⟩
  · exact ⟨fun hp => hY q (inl (inr hp)) q hq rfl, fun hb => hY q (inr hb) q hq rfl⟩

theorem Apart.newPart_notMem (hq : q ∈ aliasPart aliased request ++ newPart added n₁) :
    q ∉ X ++ P ++ B ++ Y ∧ q ≠ n₂ := by
  have hmem := newPart_sublist.subset hq
  simp only [mem_cons, not_mem_nil, or_false] at hmem
  rcases hmem with rfl | rfl
  · exact ⟨hapart.request_notMem, hapart.new2_ne.symm⟩
  · exact ⟨hapart.new_notMem, hapart.new_ne_new2⟩

/-- The memory with the new lock for the request still holds the locks of the list. -/
theorem Apart.newMem_eq (hq : q ∈ X ++ P ++ B ++ Y) : newMem added mem n₁ request q = mem q :=
  newMem_of_ne (hapart.ne_of_mem hq).1

theorem Apart.newMem_request (h : Inv job mem P B request r added aliased left) :
    newMem added mem n₁ request request = r := by
  rw [newMem_of_ne hapart.new_ne.symm, h.mem_request]

end

section

variable (h : Inv job mem P B request r added aliased left)
include h

/-- The lock `left` is cut last, when the memory `m` holds what it is to hold everywhere else. -/
theorem Inv.outcome_cutLeft (hapart : Apart n₁ n₂ request X P B Y)
    (hspec : Done job (around r (P.map mem) (B.map mem))) (hr : m request = r)
    (hkeep : ∀ q ∈ X ++ P ++ B ++ Y, q ∉ B → m q = mem q)
    (hM : (aliasPart aliased request ++ newPart added n₁).map m =
      if r.flType = .unlck then [] else [r]) (hB : ∀ q ∈ B, m q = cutStart r.flEnd (mem q))
    (right : Option ℕ) :
    Outcome job mem X Y (n₁ :: n₂ :: request :: (X ++ P ++ B ++ Y))
      (.ok, X ++ P ++ aliasPart aliased request ++ (newPart added n₁ ++ (B ++ Y)),
        cutLeft ⟨m, request, added, left, right⟩) (around r (P.map mem) (B.map mem)) := by
  obtain ⟨hout, hPB⟩ := hapart.disjoint
  have hcut := cutLeft_apply ⟨m, request, added, left, right⟩ hr h.nonneg
    (h.start_le_end.trans h.le_max)
  dsimp only at hcut
  -- only a lock that was passed is cut
  have hother : ∀ q, q ∉ P → cutLeft ⟨m, request, added, left, right⟩ q = m q := by
    intro q hq
    rw [hcut, if_neg fun heq => hq (h.left_mem q heq).1]
  have hlist : X ++ P ++ aliasPart aliased request ++ (newPart added n₁ ++ (B ++ Y)) =
      X ++ P ++ ([] ++ (aliasPart aliased request ++ newPart added n₁)) ++ (B ++ Y) := by
    simp
  rw [hlist]
  refine outcome_new hapart ?_ hspec (fun q hq => ?_) ?_ ?_ fun q hq => ?_
  · exact newPart_sublist.cons n₂
  · rw [hother q (hout q hq).1]
    exact hkeep q (by simp only [mem_append]; tauto) (hout q hq).2
  · rw [append_nil, map_map]
    refine map_congr_left fun p hp => ?_
    rw [hcut, hkeep p (by simp only [mem_append]; tauto) (hPB p hp)]
    exact (h.cutEnd_eq hp).symm
  · rw [← hM]
    refine map_congr_left fun q hq => hother q fun hqP => ?_
    exact (hapart.newPart_notMem hq).1 (by simp only [mem_append]; tauto)
  · rw [hother q fun hqP => hPB q hqP hq, hB q hq]

/-- **No lock behind the request is to be cut.** -/
theorem Inv.outcome_past (hapart : Apart n₁ n₂ request X P B Y)
    (hbefore : IsRun job.owner job.before)
    (hadded : job.type = .unlck → added = true)
    (hpast : ∀ b ∈ B, r.flEnd < (mem b).flStart ∧
      ((mem b).flType = job.type → r.flEnd + 1 < (mem b).flStart)) :
    Outcome job mem X Y (n₁ :: n₂ :: request :: (X ++ P ++ B ++ Y))
      (.ok, X ++ P ++ aliasPart aliased request ++ (newPart added n₁ ++ (B ++ Y)),
        cutLeft ⟨newMem added mem n₁ request, request, added, left, none⟩)
      (around r (P.map mem) (B.map mem)) := by
  refine h.outcome_cutLeft hapart (h.cut_past hbefore hpast) (hapart.newMem_request h)
    (fun q hq _ => hapart.newMem_eq hq) (h.map_newPart hadded) (fun q hq => ?_) none
  rw [hapart.newMem_eq (by simp only [mem_append]; tauto), cutStart, if_pos (hpast q hq).1]

end

section Right

variable {b : ℕ}

section

variable (h : Inv job mem P (b :: B) request r added aliased left)
include h

/-- The locks behind the request, when the first of them is cut. -/
theorem Inv.cutStart_eq
    (hstart : (mem b).flStart ≤ r.flEnd) (hend : r.flEnd < (mem b).flEnd) {m : Mem Owner}
    (hmem : ∀ q ∈ b :: B, m q = mem q) {q : ℕ} (hq : q ∈ b :: B) :
    setStart m b (loff (r.flEnd + 1)) q = cutStart r.flEnd (mem q) := by
  obtain ⟨-, hvalid, -, hbehind⟩ := h.next
  have h2 := hvalid.nonneg
  have h3 := hvalid.le_max
  by_cases hqb : q = b
  · subst hqb
    rw [setStart_self, hmem q hq, loff_eq (by omega) (by omega), cutStart,
      if_neg (not_lt.mpr hstart)]
  · have hqB : q ∈ B := (mem_cons.mp hq).resolve_left hqb
    have := (hbehind q hqB).1
    rw [setStart_of_ne _ hqb, hmem q hq, cutStart, if_pos (by omega)]

variable (hapart : Apart n₁ n₂ request X P (b :: B) Y) (hbefore : IsRun job.owner job.before)
  (hadded : job.type = .unlck → added = true) (htype : (mem b).flType ≠ job.type)
  (hstart : (mem b).flStart ≤ r.flEnd) (hend : r.flEnd < (mem b).flEnd)
include hapart hbefore hadded htype hstart hend

/-- **A lock behind the request is cut.** -/
theorem Inv.outcome_right (hge : r.flStart ≤ (mem b).flStart) :
    Outcome job mem X Y (n₁ :: n₂ :: request :: (X ++ P ++ (b :: B) ++ Y))
      (.ok, X ++ P ++ aliasPart aliased request ++ (newPart added n₁ ++ (b :: B ++ Y)),
        cutLeft ⟨setStart (newMem added mem n₁ request) b (loff (r.flEnd + 1)), request, added,
          left, some b⟩) (around r (P.map mem) ((b :: B).map mem)) := by
  have hb : b ∈ X ++ P ++ (b :: B) ++ Y := by simp
  refine h.outcome_cutLeft hapart (h.cut_right hbefore htype hend hge) ?_
    (fun q hq hqB => ?_) ?_ (fun q hq => ?_) _
  · rw [setStart_of_ne _ (hapart.ne_of_mem hb).2.2.symm, hapart.newMem_request h]
  · have hqb : q ≠ b := fun heq => hqB (heq ▸ mem_cons_self)
    rw [setStart_of_ne _ hqb, hapart.newMem_eq hq]
  · rw [← h.map_newPart hadded]
    refine map_congr_left fun q hq => setStart_of_ne _ (fun heq => ?_) _
    exact (hapart.newPart_notMem hq).1 (heq ▸ hb)
  · exact h.cutStart_eq hstart hend
      (fun a ha => hapart.newMem_eq (by simp only [mem_append]; tauto)) hq

/-- **A lock that goes beyond the request on both sides is split.** -/
theorem Inv.outcome_split (hlt : (mem b).flStart < r.flStart) :
    Outcome job mem X Y (n₁ :: n₂ :: request :: (X ++ P ++ (b :: B) ++ Y))
      (.ok, X ++ P ++ aliasPart aliased request ++ (n₂ :: (newPart added n₁ ++ (b :: B ++ Y))),
        cutLeft ⟨setStart (update (newMem added mem n₁ request) n₂
            (newMem added mem n₁ request b)) b (loff (r.flEnd + 1)), request, added,
          some n₂, some b⟩) (around r ((P ++ [b]).map mem) ((b :: B).map mem)) := by
  obtain ⟨-, -, hbef, -⟩ := h.next
  obtain ⟨hout, hPB⟩ := hapart.disjoint
  have hb : b ∈ X ++ P ++ (b :: B) ++ Y := by simp
  obtain ⟨-, hbn2, hbreq⟩ := hapart.ne_of_mem hb
  have haliased : aliased = false := h.aliased_eq_false hlt
  generalize hm' : update (newMem added mem n₁ request) n₂ (newMem added mem n₁ request b) = m'
  have hm'_ne : ∀ q, q ≠ n₂ → m' q = newMem added mem n₁ request q := fun q hq => by
    rw [← hm', update_of_ne hq]
  have hm'_new : m' n₂ = mem b := by
    rw [← hm', update_self, hapart.newMem_eq hb]
  have hm'_mem : ∀ q ∈ X ++ P ++ (b :: B) ++ Y, m' q = mem q := fun q hq => by
    rw [hm'_ne q (hapart.ne_of_mem hq).2.1, hapart.newMem_eq hq]
  have hrequest : setStart m' b (loff (r.flEnd + 1)) request = r := by
    rw [setStart_of_ne _ hbreq.symm, hm'_ne _ hapart.new2_ne.symm, hapart.newMem_request h]
  have hcut := cutLeft_apply
    ⟨setStart m' b (loff (r.flEnd + 1)), request, added, some n₂, some b⟩ hrequest h.nonneg
    (h.start_le_end.trans h.le_max)
  dsimp only at hcut
  -- only the new part of the lock is cut at its end
  have hother : ∀ q, q ≠ n₂ → cutLeft
      ⟨setStart m' b (loff (r.flEnd + 1)), request, added, some n₂, some b⟩ q =
        setStart m' b (loff (r.flEnd + 1)) q := by
    intro q hq
    rw [hcut, if_neg fun heq => hq (Option.some.inj heq).symm]
  have hlist : X ++ P ++ aliasPart aliased request ++ (n₂ :: (newPart added n₁ ++ (b :: B ++ Y))) =
      X ++ P ++ ([n₂] ++ (aliasPart aliased request ++ newPart added n₁)) ++ (b :: B ++ Y) := by
    rw [haliased]
    simp [aliasPart]
  rw [hlist]
  refine outcome_new hapart (newPart_sublist.cons_cons n₂)
    (h.cut_split hbefore htype hend hlt) (fun q hq => ?_) ?_ ?_ fun q hq => ?_
  · have hqmem : q ∈ X ++ P ++ (b :: B) ++ Y := by simp only [mem_append]; tauto
    have hqb : q ≠ b := fun heq => (hout q hq).2 (heq ▸ mem_cons_self)
    rw [hother q (hapart.ne_of_mem hqmem).2.1, setStart_of_ne _ hqb, hm'_mem q hqmem]
  · rw [map_append, map_append, map_append, map_map]
    congr 1
    · refine map_congr_left fun p hp => ?_
      have hpmem : p ∈ X ++ P ++ (b :: B) ++ Y := by simp only [mem_append]; tauto
      have hpb : p ≠ b := fun heq => hPB p hp (heq ▸ mem_cons_self)
      have := (hbef p hp).1
      rw [hother p (hapart.ne_of_mem hpmem).2.1, setStart_of_ne _ hpb, hm'_mem p hpmem,
        comp_apply, cutEnd, if_pos (by omega)]
    · show [cutLeft _ n₂] = [cutEnd r.flStart (mem b)]
      have h1 := h.start_le_end
      rw [hcut, if_pos rfl, setStart_of_ne _ hbn2.symm, hm'_new, cutEnd, if_neg (by omega)]
  · rw [← h.map_newPart hadded]
    refine map_congr_left fun q hq => ?_
    obtain ⟨hnot, hqn⟩ := hapart.newPart_notMem hq
    have hqb : q ≠ b := fun heq => hnot (heq ▸ hb)
    rw [hother q hqn, setStart_of_ne _ hqb, hm'_ne q hqn]
  · have hqmem : q ∈ X ++ P ++ (b :: B) ++ Y := by simp only [mem_append]; tauto
    rw [hother q (hapart.ne_of_mem hqmem).2.1]
    exact h.cutStart_eq hstart hend (fun a ha => hm'_mem a (by simp only [mem_append]; tauto)) hq

end

end Right

/-- A request to remove locks that has met none leaves the list as it is. -/
theorem Inv.around_eq (h : Inv job mem P B request r added aliased none)
    (hunlck : job.type = .unlck) (hpast : ∀ b ∈ B, r.flEnd < (mem b).flStart) :
    around r (P.map mem) (B.map mem) = (P ++ B).map mem := by
  have hP : (P.map mem).map (cutEnd r.flStart) = P.map mem := by
    rw [map_map]
    refine map_congr_left fun p hp => ?_
    rw [comp_apply, h.cutEnd_eq hp, if_neg (by simp)]
  have hB : (B.map mem).map (cutStart r.flEnd) = B.map mem := by
    rw [map_map]
    refine map_congr_left fun b hb => ?_
    rw [comp_apply, cutStart, if_pos (hpast b hb)]
  rw [around, hP, hB, if_pos (h.type.trans hunlck), append_nil, map_append]

/-- The new lock for the request, when it could be allocated or is not needed. -/
theorem insertRequest_getD (n₁ : ℕ) {loop : Loop Owner} (hnew : loop.added = true ∨ newFl = some n₁)
    (post : List ℕ) :
    insertRequest (newFl.getD 0) loop post =
      ({ loop with mem := newMem loop.added loop.mem n₁ loop.request },
        newPart loop.added n₁ ++ post) := by
  rcases hnew with hadded | rfl
  · rw [insertRequest_eq, newMem, newMem, newPart, newPart, if_pos hadded, if_pos hadded,
      if_pos hadded, if_pos hadded]
  · exact insertRequest_eq loop post

/-- **Behind the loop**: the routine fails and leaves the locks alone, or gives the offsets that
were asked for the type of the request. -/
theorem afterLoop_spec (h : Inv job mem P B request r added aliased left)
    (hapart : Apart n₁ n₂ request X P B Y) (hbefore : IsRun job.owner job.before)
    {left' right : Option ℕ} (hstop : Stop job mem B r added left left' right) {newFl2 : Option ℕ}
    (hnew : newFl = none ∨ newFl = some n₁) (hnew2 : newFl2 = none ∨ newFl2 = some n₂)
    (mustExist : Bool) :
    ∃ S, Outcome job mem X Y (n₁ :: n₂ :: request :: (X ++ P ++ B ++ Y))
      (afterLoop newFl newFl2 mustExist (X ++ P ++ aliasPart aliased request) (B ++ Y)
        ⟨mem, request, added, left', right⟩) S := by
  have htype : (mem request).flType = job.type := by rw [h.mem_request, h.type]
  -- a new lock is missing and the list is as it was
  have hnolck : ¬added = true → ∃ S, Outcome job mem X Y (n₁ :: n₂ :: request :: (X ++ P ++ B ++ Y))
      (.enolck, X ++ P ++ aliasPart aliased request ++ (B ++ Y), mem) S := fun hadded => by
    obtain ⟨hkept, haliased, -⟩ := h.not_added (by simpa using hadded)
    exact ⟨_, outcome_kept hapart hkept haliased hbefore fun heq => by cases heq⟩
  rw [afterLoop]
  dsimp only
  rw [htype]
  cases hstop with
  | past hpast =>
    by_cases hnone : ¬added = true ∧ job.type = .unlck
    · rw [if_pos hnone]
      obtain ⟨hkept, haliased, hleft⟩ := h.not_added (by simpa using hnone.1)
      refine ⟨_, outcome_kept hapart hkept haliased hbefore fun _ => ?_⟩
      obtain rfl := hleft hnone.2
      rw [← hkept, ← h.around_eq hnone.2 fun b hb => (hpast b hb).1]
      exact (h.cut_past hbefore hpast).2
    rw [if_neg hnone]
    by_cases hfail : ¬added = true ∧ newFl = none
    · rw [if_pos hfail]
      exact hnolck hfail.1
    rw [if_neg hfail, insertRequest_getD n₁ (by tauto)]
    exact ⟨_, h.outcome_past hapart hbefore (by tauto) hpast⟩
  | @cut b B' hB htypeb hstart hend hadded =>
    subst hB
    have hbP : b ∉ P := fun hb => hapart.disjoint.2 b hb mem_cons_self
    have hrequest := hapart.newMem_request h
    rw [if_neg fun hnone : ¬added = true ∧ job.type = .unlck => hnone.1 (hadded hnone.2)]
    by_cases hlt : (mem b).flStart < r.flStart
    · rw [if_pos hlt]
      by_cases hfail2 : newFl2 = none
      · rw [if_pos ⟨rfl, rfl, hfail2⟩]
        have hkept := h.kept.resolve_right fun hall => by
          have := hall b mem_cons_self
          omega
        exact ⟨_, outcome_kept hapart hkept (h.aliased_eq_false hlt) hbefore
          fun heq => by cases heq⟩
      rw [if_neg fun hall => hfail2 hall.2.2]
      obtain rfl := hnew2.resolve_left hfail2
      by_cases hfail : ¬added = true ∧ newFl = none
      · rw [if_pos hfail]
        exact hnolck hfail.1
      have hrequest' : update (newMem added mem n₁ request) n₂
          (newMem added mem n₁ request b) request = r := by
        rw [update_of_ne hapart.new2_ne.symm, hrequest]
      rw [if_neg hfail, insertRequest_getD n₁ (by tauto), Option.getD_some, cutRight]
      dsimp only
      rw [if_pos rfl]
      dsimp only
      rw [hrequest']
      exact ⟨_, h.outcome_split hapart hbefore hadded htypeb hstart hend hlt⟩
    · have hne : left ≠ some b := fun heq => hbP (h.left_mem b heq).1
      rw [if_neg hlt, if_neg fun hall => hne hall.2.1]
      by_cases hfail : ¬added = true ∧ newFl = none
      · rw [if_pos hfail]
        exact hnolck hfail.1
      rw [if_neg hfail, insertRequest_getD n₁ (by tauto), cutRight]
      dsimp only
      rw [if_neg hne]
      dsimp only
      rw [hrequest]
      exact ⟨_, h.outcome_right hapart hbefore hadded htypeb hstart hend (not_lt.mp hlt)⟩

end List

end Gp2xKernel.Locks
