import Gp2xKernel.Bootmem.Search
import Gp2xKernel.Library.Turns

/-!
# Allocation of pids

`kernel/pid.c`: a pid is a bit of one of the pages of the pid map.  `alloc_pidmap` looks for a clear
bit from the one behind the last pid on, page by page, goes on at `RESERVED_PIDS` behind the last
page, and ends with the first bits of the page where it began.

Which pids are tried does not depend on the bits (`Covers`), so that the search is right if it tries
every pid.  The one pid it can leave out is the last one itself.

## Main definitions

* `PidNamespace`, `Config.allocPidmap`: the pid maps and the routine
* `Allocates`: a free pid is marked, or every pid is in use
* `Missed`: the last pid is the only free one, and not at the edge of a page

## Main results

* `coversAll`, `not_coversAll_last`: the pids that are tried
* `allocates_iff`: the routine does what it is to do unless it misses the last pid
-/

namespace Gp2xKernel.Pid

open Library Bootmem List Nat

/-- `RESERVED_PIDS` -/
def reservedPids : ℕ := 300

/-- `struct pidmap`: a page of bits, once it is there, and the number of clear ones. -/
structure Pidmap where
  nrFree : ℕ
  page : Option (ℕ → Bool)

/-- What `alloc_pidmap` uses of `struct pid_namespace`. -/
structure PidNamespace where
  pidmap : ℕ → Pidmap
  lastPid : ℕ

/-- The bits of a page; those of a page that is not there are clear. -/
def PidNamespace.bits (ns : PidNamespace) (map : ℕ) : ℕ → Bool :=
  (ns.pidmap map).page.getD fun _ => false

/-- A page of zeros is installed where there is none. -/
def PidNamespace.install (ns : PidNamespace) (map : ℕ) : PidNamespace :=
  { ns with pidmap := Function.update ns.pidmap map ⟨(ns.pidmap map).nrFree, some (ns.bits map)⟩ }

/-- The bit is set and counted, and the pid is the last one. -/
def PidNamespace.take (ns : PidNamespace) (map offset pid : ℕ) : PidNamespace where
  pidmap := Function.update ns.pidmap map
    ⟨(ns.pidmap map).nrFree - 1, some (Function.update (ns.bits map) offset true)⟩
  lastPid := pid

/-- How a turn of the loop over the pages ends. -/
inductive Turn
  | done (ns : PidNamespace) (result : ℤ)
  | next (ns : PidNamespace) (map offset pid : ℕ)

/-- `BITS_PER_PAGE` and `pid_max`.  The reserved pids are in the first page, and not all pids are
reserved. -/
structure Config where
  bpp : ℕ
  pidMax : ℕ
  reserved_lt_bpp : reservedPids + 1 < bpp
  reserved_lt_max : reservedPids < pidMax

namespace Config

variable (c : Config)

/-- The last map that is used. -/
def lastMap : ℕ := (c.pidMax - 1) / c.bpp

def mkPid (map off : ℕ) : ℕ := map * c.bpp + off

/-- The loop over the bits of a page.  It ends with the offset of a clear bit and its pid, or
without one. -/
def pageLoop (bits : ℕ → Bool) (last map : ℕ) (final : Bool) :
    ℕ → ℕ → ℕ → Option (Option (ℕ × ℕ))
  | 0, _, _ => none
  | turns + 1, offset, pid =>
    if bits offset = false then some (some (offset, pid))
    else
      let offset := findNextZeroBit bits c.bpp offset
      let pid := c.mkPid map offset
      if offset < c.bpp ∧ pid < c.pidMax ∧
        (final = false ∨ pid < last ∨ (last + 1) % c.bpp = 0) then
        pageLoop bits last map final turns offset pid
      else some none

/-- Behind the loop over the bits: the bit is taken, or the search goes on with the next page. -/
def afterPage (last : ℕ) (ns : PidNamespace) (map : ℕ) : Option (ℕ × ℕ) → Turn
  | some (offset, pid) => .done (ns.take map offset pid) pid
  | none =>
    if map < c.lastMap then .next ns (map + 1) 0 (c.mkPid (map + 1) 0)
    else if last = reservedPids then .done ns (-1)
    else .next ns 0 reservedPids (c.mkPid 0 reservedPids)

/-- A turn of the loop over the pages; `kzalloc` says whether the page of a map can be allocated. -/
def allocTurn (kzalloc : ℕ → Bool) (turns last : ℕ) (final : Bool) (ns : PidNamespace)
    (map offset pid : ℕ) : Option Turn :=
  if (ns.pidmap map).page.isNone ∧ kzalloc map = false then some (.done ns (-1))
  else
    let ns := ns.install map
    let found := if (ns.pidmap map).nrFree ≠ 0 then
      c.pageLoop (ns.bits map) last map final turns offset pid else some none
    found.map (c.afterPage last ns map)

/-- The loop over the pages, with a number of turns to go: in the last one `i` is `max_scan`. -/
def allocLoop (kzalloc : ℕ → Bool) (turns last : ℕ) :
    ℕ → PidNamespace → ℕ → ℕ → ℕ → Option (PidNamespace × ℤ)
  | 0, ns, _, _, _ => some (ns, -1)
  | togo + 1, ns, map, offset, pid => do
    match ← c.allocTurn kzalloc turns last (togo = 0) ns map offset pid with
    | .done ns result => some (ns, result)
    | .next ns map offset pid => allocLoop kzalloc turns last togo ns map offset pid

/-- The pid to begin with. -/
def firstPid (last : ℕ) : ℕ := if last + 1 ≥ c.pidMax then reservedPids else last + 1

/-- The number of turns of the loop, one more than `max_scan`. -/
def scans (last : ℕ) : ℕ :=
  (c.pidMax + c.bpp - 1) / c.bpp - (if c.firstPid last % c.bpp = 0 then 1 else 0) + 1

def allocPidmap (kzalloc : ℕ → Bool) (turns : ℕ) (ns : PidNamespace) :
    Option (PidNamespace × ℤ) :=
  let pid := c.firstPid ns.lastPid
  c.allocLoop kzalloc turns ns.lastPid (c.scans ns.lastPid) ns (pid / c.bpp) (pid % c.bpp) pid

/-- The pid is in use. -/
def used (ns : PidNamespace) (p : ℕ) : Bool := ns.bits (p / c.bpp) (p % c.bpp)

/-- The counters are exact. -/
def Exact (ns : PidNamespace) : Prop :=
  ∀ map, (ns.pidmap map).nrFree = (List.range c.bpp).countP fun off => !ns.bits map off

/-- Exactly the pid is marked, and counted. -/
structure Marks (ns ns' : PidNamespace) (p : ℕ) : Prop where
  used : ∀ q, c.used ns' q = (c.used ns q || decide (q = p))
  nrFree : ∀ map, (ns'.pidmap map).nrFree =
    if map = p / c.bpp then (ns.pidmap map).nrFree - 1 else (ns.pidmap map).nrFree
  lastPid : ns'.lastPid = p

/-- The routine returns, with all pages allocated: a free pid that it marks, or -1 when all pids
that are not reserved are in use. -/
def Allocates (ns : PidNamespace) : Prop :=
  ∃ ns' result, Returns (fun turns => c.allocPidmap (fun _ => true) turns ns) (ns', result) ∧
    ((∃ p : ℕ, result = p ∧ 0 < p ∧ p < c.pidMax ∧ c.used ns p = false ∧ c.Marks ns ns' p) ∨
      result = -1 ∧ ∀ p, reservedPids ≤ p → p < c.pidMax → c.used ns p = true)

/-- The last pid is the only free one, and neither the first nor the last of its page. -/
structure Missed (ns : PidNamespace) : Prop where
  reserved_le : reservedPids ≤ ns.lastPid
  lt_max : ns.lastPid + 1 < c.pidMax
  not_first : ns.lastPid % c.bpp ≠ 0
  not_last : (ns.lastPid + 1) % c.bpp ≠ 0
  free : c.used ns ns.lastPid = false
  others : ∀ p, reservedPids ≤ p → p < c.pidMax → p ≠ ns.lastPid → c.used ns p = true

/-! ## The pids that are tried -/

/-- The pids of a page that are tried. -/
def Tries (last : ℕ) (final : Bool) (map offset p : ℕ) : Prop :=
  c.mkPid map offset ≤ p ∧ p < c.mkPid (map + 1) 0 ∧ p < c.pidMax ∧
    (p = c.mkPid map offset ∨ final = false ∨ p < last ∨ (last + 1) % c.bpp = 0)

/-- The pids that are tried in the turns to go. -/
def Covers (last : ℕ) : ℕ → ℕ → ℕ → ℕ → Prop
  | 0, _, _, _ => False
  | togo + 1, map, offset, p => c.Tries last (togo = 0) map offset p ∨
    if map < c.lastMap then Covers last togo (map + 1) 0 p
    else last ≠ reservedPids ∧ Covers last togo 0 reservedPids p

/-- The pids that a whole search tries. -/
def CoversAll (last p : ℕ) : Prop :=
  c.Covers last (c.scans last) (c.firstPid last / c.bpp) (c.firstPid last % c.bpp) p

variable {c} {last togo map offset p : ℕ}

theorem covers_bounds (h : c.Covers last togo map offset p) {a : ℕ} (ha : a ≤ reservedPids)
    (hentry : a ≤ c.mkPid map offset) : a ≤ p ∧ p < c.pidMax := by
  have hbpp := c.reserved_lt_bpp
  induction togo generalizing map offset with
  | zero => exact h.elim
  | succ togo ih =>
    rcases h with h | h
    · exact ⟨hentry.trans h.1, h.2.2.1⟩
    split_ifs at h with hmap
    · refine ih h ?_
      have hle : 1 * c.bpp ≤ (map + 1) * c.bpp := mul_le_mul_right _ (by omega)
      rw [mkPid]
      omega
    · refine ih h.2 ?_
      rw [mkPid]
      omega

theorem bpp_pos (c : Config) : 0 < c.bpp := Nat.zero_lt_of_lt c.reserved_lt_bpp

theorem div_le_lastMap (hp : p < c.pidMax) : p / c.bpp ≤ c.lastMap :=
  Nat.div_le_div_right (Nat.le_sub_one_of_lt hp)

/-- The pids from the entry on are tried, up to the page of the last turn and in a part of it. -/
theorem covers_up (hentry : c.mkPid map offset ≤ p) (hmax : p < c.pidMax)
    (hpage : p / c.bpp < map + togo)
    (hpart : p / c.bpp + 1 < map + togo ∨ p < last ∨ (last + 1) % c.bpp = 0 ∨ p % c.bpp = 0) :
    c.Covers last togo map offset p := by
  have hdiv := div_add_mod p c.bpp
  have hmod := mod_lt p c.bpp_pos
  rw [mkPid] at hentry
  have hle : map ≤ p / c.bpp := (le_div_iff_mul_le c.bpp_pos).mpr (by omega)
  induction togo generalizing map offset with
  | zero => omega
  | succ togo ih =>
    rcases eq_or_lt_of_le hle with heq | hlt
    · left
      rw [← heq, mul_comm] at hdiv
      refine ⟨hentry, ?_, hmax, ?_⟩
      · rw [mkPid, add_mul]
        omega
      · rcases hpart with hpart | hpart | hpart | hpart
        · exact .inr (.inl (decide_eq_false (by omega)))
        · exact .inr (.inr (.inl hpart))
        · exact .inr (.inr (.inr hpart))
        · left
          rw [mkPid]
          omega
    · right
      rw [if_pos (hlt.trans_le (div_le_lastMap hmax))]
      refine ih ?_ (by omega) (by omega) hlt
      have hmul : (map + 1) * c.bpp ≤ p / c.bpp * c.bpp := mul_le_mul_right _ hlt
      rw [mul_comm (p / c.bpp)] at hmul
      omega

/-- The pids that are tried after the search has gone on at `RESERVED_PIDS`. -/
theorem covers_wrap {turns : ℕ} (hne : last ≠ reservedPids) (hmap : map ≤ c.lastMap)
    (hturns : turns + map = togo + 1 + c.lastMap)
    (h : c.Covers last togo 0 reservedPids p) :
    c.Covers last turns map offset p := by
  induction turns generalizing map offset with
  | zero => omega
  | succ turns ih =>
    rw [Covers]
    split_ifs with hlt
    · exact .inr (ih hlt (by omega))
    · rw [show turns = togo by omega]
      exact .inr ⟨hne, h⟩

theorem scans_eq (last : ℕ) :
    c.scans last = c.lastMap + if c.firstPid last % c.bpp = 0 then 1 else 2 := by
  have hpages : (c.pidMax + c.bpp - 1) / c.bpp = c.lastMap + 1 := by
    have hmax := c.reserved_lt_max
    rw [lastMap, ← add_div_right _ c.bpp_pos]
    congr 1
    omega
  rw [scans, hpages]
  split_ifs <;> rfl

/-- **Every pid that is not reserved is tried**, but for the last one within its page. -/
theorem coversAll (hp : reservedPids ≤ p) (hlt : p < c.pidMax)
    (hlast : p ≠ last ∨ c.pidMax ≤ last + 1 ∨ last % c.bpp = 0 ∨ (last + 1) % c.bpp = 0) :
    c.CoversAll last p := by
  have hbpp := c.reserved_lt_bpp
  have hpage := div_le_lastMap hlt
  have hnonneg := zero_le (c.firstPid last / c.bpp)
  -- a search that begins at the first bit of a page does not begin with the first page
  have hfirst : c.firstPid last % c.bpp = 0 → 0 < c.firstPid last / c.bpp := by
    intro hfull
    refine div_pos (le_of_dvd ?_ (dvd_of_mod_eq_zero hfull)) c.bpp_pos
    rw [firstPid, reservedPids]
    split_ifs <;> omega
  rw [CoversAll, scans_eq]
  rcases lt_or_ge p (c.firstPid last) with hbelow | habove
  · -- the pid is tried after the search has gone on at `RESERVED_PIDS`
    have hwrap : last + 1 < c.pidMax := by
      by_contra hge
      rw [firstPid, if_pos (by omega)] at hbelow
      omega
    have hpid : c.firstPid last = last + 1 := if_neg (by omega)
    rw [hpid] at hbelow hfirst hnonneg ⊢
    have hne : last ≠ reservedPids := by
      rintro rfl
      rw [mod_eq_of_lt (show reservedPids < c.bpp by omega), mod_eq_of_lt hbpp] at hlast
      rw [reservedPids] at *
      omega
    have hentry : c.mkPid 0 reservedPids ≤ p := by
      rw [mkPid]
      omega
    split_ifs with hfull
    · refine @covers_wrap _ _ ((last + 1) / c.bpp) _ _ _ _ hne (div_le_lastMap hwrap) (by omega) ?_
      refine covers_up hentry hlt ?_ (.inr (.inr (.inl hfull)))
      rw [zero_add]
      refine Nat.div_lt_of_lt_mul ?_
      rw [Nat.mul_div_cancel' (Nat.dvd_of_mod_eq_zero hfull)]
      exact hbelow
    · refine @covers_wrap _ _ ((last + 1) / c.bpp + 1) _ _ _ _ hne (div_le_lastMap hwrap)
        (by omega) ?_
      have hle : p / c.bpp ≤ (last + 1) / c.bpp := Nat.div_le_div_right (by omega)
      refine covers_up hentry hlt (by omega) (.inr ?_)
      rcases lt_or_ge p last with hlt' | hge
      · exact .inl hlt'
      · obtain rfl : p = last := by omega
        rcases hlast with hlast | hlast | hlast | hlast
        · exact absurd rfl hlast
        · omega
        · exact .inr (.inr hlast)
        · exact .inr (.inl hlast)
  · refine covers_up ?_ hlt ?_ (.inl ?_)
    · rw [mkPid, mul_comm, div_add_mod]
      exact habove
    · split_ifs <;> omega
    · split_ifs <;> omega

/-- The last pid is not tried once the search has gone on at `RESERVED_PIDS`. -/
theorem not_covers_up (hfirst : last % c.bpp ≠ 0) (hlast : (last + 1) % c.bpp ≠ 0)
    (hmax : last < c.pidMax) (hpage : map + togo = last / c.bpp + 1)
    (hentry : c.mkPid map offset ≠ last) :
    ¬ c.Covers last togo map offset last := by
  induction togo generalizing map offset with
  | zero => exact id
  | succ togo ih =>
    have htop := div_le_lastMap hmax
    rintro (⟨-, hend, -, hpart⟩ | hnext)
    · have hle : last / c.bpp < map + 1 := Nat.div_lt_of_lt_mul (by rwa [Nat.mul_comm])
      rcases hpart with hpart | hpart | hpart | hpart
      · exact hentry hpart.symm
      · have := of_decide_eq_false hpart
        omega
      · omega
      · exact hlast hpart
    · split_ifs at hnext with hmap
      · refine ih (by omega) ?_ hnext
        intro heq
        rw [← heq, mkPid, add_zero, mul_mod_left] at hfirst
        exact hfirst rfl
      · rw [show togo = 0 by omega] at hnext
        exact hnext.2

/-- **The last pid is not tried**, unless it is the first or the last of its page. -/
theorem not_coversAll_last (hfirst : last % c.bpp ≠ 0) (hlast : (last + 1) % c.bpp ≠ 0)
    (hmax : last + 1 < c.pidMax) : ¬ c.CoversAll last last := by
  -- before the search goes on at `RESERVED_PIDS`, it is behind the last pid
  have hahead : ∀ turns map offset, map ≤ c.lastMap → offset < c.bpp →
      turns + map = last / c.bpp + 2 + c.lastMap → last < c.mkPid map offset →
      ¬ c.Covers last turns map offset last := by
    intro turns
    induction turns with
    | zero => exact fun _ _ _ _ _ _ => id
    | succ turns ih =>
      intro map offset hmap hoffset hturns hbehind
      rintro (⟨hle, -⟩ | hnext)
      · omega
      · split_ifs at hnext with hlt
        · refine ih (map + 1) 0 hlt c.bpp_pos (by omega) ?_ hnext
          rw [mkPid] at hbehind ⊢
          rw [add_mul]
          omega
        · refine not_covers_up hfirst hlast (by omega) (by omega) ?_ hnext.2
          rw [mkPid, zero_mul]
          exact hnext.1.symm
  have hpid : c.firstPid last = last + 1 := if_neg (by omega)
  have hpage : (last + 1) / c.bpp = last / c.bpp := by
    rw [Nat.succ_div, if_neg fun hdvd => hlast (Nat.mod_eq_zero_of_dvd hdvd), Nat.add_zero]
  rw [CoversAll, scans_eq, hpid, if_neg hlast]
  refine hahead _ _ _ (div_le_lastMap hmax) (mod_lt _ c.bpp_pos) ?_ ?_
  · omega
  · rw [mkPid, mul_comm, div_add_mod]
    omega

/-! ## The search -/

theorem nextZeroBit_spec (bits : ℕ → Bool) (n i : ℕ) :
    (∀ k, i ≤ k → k < nextZeroBit bits n i → bits k = true) ∧
      (nextZeroBit bits n i < i + n → bits (nextZeroBit bits n i) = false) := by
  induction n generalizing i with
  | zero => exact ⟨fun k hle hlt => absurd hle (not_le.mpr hlt), fun h => absurd h (lt_irrefl _)⟩
  | succ n ih =>
    obtain ⟨hset, hclear⟩ := ih (i + 1)
    rw [nextZeroBit]
    split_ifs with hi
    · refine ⟨fun k hle hlt => ?_, fun h => hclear (by omega)⟩
      rcases eq_or_lt_of_le hle with rfl | hlt'
      · exact hi
      · exact hset k hlt' hlt
    · exact ⟨fun k hle hlt => absurd hle (not_le.mpr hlt), fun _ => Bool.eq_false_iff.mpr hi⟩

/-- The loop over the bits of a page ends with a clear bit that it tries, or there is none. -/
theorem pageLoop_spec (bits : ℕ → Bool) (last : ℕ) (final : Bool) (hoffset : offset < c.bpp)
    (hmax : c.mkPid map offset < c.pidMax) :
    ∃ found, (∀ turns, c.pageLoop bits last map final (turns + 2) offset
        (c.mkPid map offset) = some found) ∧
      ((∃ off < c.bpp, found = some (off, c.mkPid map off) ∧ bits off = false ∧
          c.Tries last final map offset (c.mkPid map off)) ∨
        found = none ∧ ∀ off < c.bpp, c.Tries last final map offset (c.mkPid map off) →
          bits off = true) := by
  have hend : c.mkPid (map + 1) 0 = c.mkPid map c.bpp := by
    rw [mkPid, mkPid, add_mul, one_mul, add_zero]
  have hmono : ∀ a b, c.mkPid map a < c.mkPid map b ↔ a < b := fun a b => Nat.add_lt_add_iff_left
  by_cases hclear : bits offset = false
  · refine ⟨some (offset, c.mkPid map offset), fun turns => ?_, .inl ⟨offset, hoffset, rfl, hclear,
      le_refl _, ?_, hmax, .inl rfl⟩⟩
    · rw [pageLoop, if_pos hclear]
    · rw [hend, hmono]
      exact hoffset
  obtain ⟨hle, hge⟩ := findNextZeroBit_bounds bits hoffset
  obtain ⟨hset, hfree⟩ := nextZeroBit_spec bits (c.bpp - offset) offset
  have hnext : findNextZeroBit bits c.bpp offset = nextZeroBit bits (c.bpp - offset) offset :=
    if_neg (by omega)
  rw [← hnext] at hset hfree
  by_cases hok : findNextZeroBit bits c.bpp offset < c.bpp ∧
      c.mkPid map (findNextZeroBit bits c.bpp offset) < c.pidMax ∧ (final = false ∨
        c.mkPid map (findNextZeroBit bits c.bpp offset) < last ∨ (last + 1) % c.bpp = 0)
  · -- the second turn takes the bit that was found
    have hbit := hfree (by omega)
    refine ⟨_, fun turns => ?_, .inl ⟨_, hok.1, rfl, hbit, ?_, ?_, hok.2.1, .inr hok.2.2⟩⟩
    · rw [pageLoop, if_neg hclear, if_pos hok, pageLoop, if_pos hbit]
    · exact Nat.add_le_add_left hle _
    · rw [hend, hmono]
      exact hok.1
  · refine ⟨none, fun turns => ?_, .inr ⟨rfl, fun off hoff htries => ?_⟩⟩
    · rw [pageLoop, if_neg hclear, if_neg hok]
    · obtain ⟨hentry, -, hlt, hpart⟩ := htries
      by_contra hbit
      have hbefore : offset ≤ off := Nat.le_of_add_le_add_left hentry
      -- the clear bit is not in front of the one that was found
      have hbehind : findNextZeroBit bits c.bpp offset ≤ off := by
        by_contra hlt'
        exact hbit (hset off hbefore (by omega))
      have hpid : c.mkPid map (findNextZeroBit bits c.bpp offset) ≤ c.mkPid map off :=
        Nat.add_le_add_left hbehind _
      refine hok ⟨by omega, by omega, ?_⟩
      rcases hpart with hpart | hpart | hpart | hpart
      · rw [add_left_cancel hpart] at hbit
        exact absurd (Bool.eq_false_iff.mpr hbit) hclear
      · exact .inl hpart
      · exact .inr (.inl (by omega))
      · exact .inr (.inr hpart)

/-- The bits and the counters are the same. -/
structure Same (ns ns' : PidNamespace) : Prop where
  bits : ∀ map, ns'.bits map = ns.bits map
  nrFree : ∀ map, (ns'.pidmap map).nrFree = (ns.pidmap map).nrFree

theorem same_install (ns : PidNamespace) (map : ℕ) : Same ns (ns.install map) := by
  have hmap : ∀ k, (ns.install map).pidmap k = if k = map then
      ⟨(ns.pidmap map).nrFree, some (ns.bits map)⟩ else ns.pidmap k := Function.update_apply _ _ _
  refine ⟨fun k => ?_, fun k => ?_⟩
  · rw [PidNamespace.bits, hmap]
    split_ifs with hk
    · rw [hk]
      rfl
    · rfl
  · rw [hmap]
    split_ifs with hk
    · rw [hk]
    · rfl

variable {ns ns1 : PidNamespace}

theorem mkPid_div (hoffset : offset < c.bpp) : c.mkPid map offset / c.bpp = map := by
  rw [mkPid, mul_comm, mul_add_div (by omega), div_eq_of_lt hoffset, add_zero]

theorem mkPid_mod (hoffset : offset < c.bpp) : c.mkPid map offset % c.bpp = offset := by
  rw [mkPid, mul_comm, mul_add_mod, mod_eq_of_lt hoffset]

theorem used_mkPid (ns : PidNamespace) (hoffset : offset < c.bpp) :
    c.used ns (c.mkPid map offset) = ns.bits map offset := by
  rw [used, mkPid_div hoffset, mkPid_mod hoffset]

theorem Tries.exists_offset {final : Bool} (h : c.Tries last final map offset p) :
    ∃ off < c.bpp, p = c.mkPid map off := by
  obtain ⟨hle, hlt, -⟩ := h
  rw [mkPid] at hle hlt
  rw [add_mul] at hlt
  refine ⟨p - map * c.bpp, by omega, ?_⟩
  rw [mkPid]
  omega

theorem Same.marks (h : Same ns ns1) (hoffset : offset < c.bpp) :
    c.Marks ns (ns1.take map offset (c.mkPid map offset)) (c.mkPid map offset) := by
  have htake : ∀ k, (ns1.take map offset (c.mkPid map offset)).pidmap k = if k = map then
      ⟨(ns1.pidmap map).nrFree - 1, some (Function.update (ns1.bits map) offset true)⟩
      else ns1.pidmap k := Function.update_apply _ _ _
  refine ⟨fun q => ?_, fun k => ?_, rfl⟩
  · have hq : q = c.mkPid map offset ↔ q / c.bpp = map ∧ q % c.bpp = offset := by
      constructor
      · rintro rfl
        exact ⟨mkPid_div hoffset, mkPid_mod hoffset⟩
      · rintro ⟨hqdiv, hqmod⟩
        rw [← div_add_mod q c.bpp, hqdiv, hqmod, mkPid, mul_comm]
    rw [used, used, ← h.bits, PidNamespace.bits, htake]
    by_cases hmap : q / c.bpp = map
    · rw [if_pos hmap, hmap, Option.getD_some, Function.update_apply]
      by_cases hoff : q % c.bpp = offset
      · rw [if_pos hoff, decide_eq_true (hq.mpr ⟨hmap, hoff⟩), Bool.or_true]
      · rw [if_neg hoff, decide_eq_false fun heq => hoff (hq.mp heq).2, Bool.or_false]
    · rw [if_neg hmap, decide_eq_false fun heq => hmap (hq.mp heq).1, Bool.or_false]
      rfl
  · rw [htake, mkPid_div hoffset, ← h.nrFree]
    split_ifs with hk
    · rw [hk]
    · rfl

theorem Same.used (h : Same ns ns1) (p : ℕ) : c.used ns1 p = c.used ns p :=
  congrFun (h.bits _) _

theorem Same.exact (h : Same ns ns1) (hexact : c.Exact ns) : c.Exact ns1 := by
  intro map
  rw [h.nrFree, h.bits]
  exact hexact map

theorem Same.lift {ns' : PidNamespace} (h : Same ns ns1) (hmarks : c.Marks ns1 ns' p) :
    c.Marks ns ns' p := by
  refine ⟨fun q => ?_, fun map => ?_, hmarks.lastPid⟩
  · rw [hmarks.used, h.used]
  · rw [hmarks.nrFree, h.nrFree]

/-- **A turn** takes a free pid that it tries, or all pids that it tries are in use. -/
theorem allocTurn_spec (hexact : c.Exact ns) (final : Bool) (hoffset : offset < c.bpp)
    (hmax : c.mkPid map offset < c.pidMax) :
    ∃ turn, (∀ turns, c.allocTurn (fun _ => true) (turns + 2) last final ns map offset
        (c.mkPid map offset) = some turn) ∧
      ((∃ (p : ℕ) (ns' : _), turn = .done ns' p ∧ c.Tries last final map offset p ∧
          c.used ns p = false ∧ c.Marks ns ns' p) ∨
        (∀ p, c.Tries last final map offset p → c.used ns p = true) ∧
          ∃ ns1, Same ns ns1 ∧ turn = c.afterPage last ns1 map none) := by
  have hsame := same_install ns map
  simp only [allocTurn, Bool.true_eq_false, and_false, hsame.bits, hsame.nrFree]
  by_cases hfree : (ns.pidmap map).nrFree ≠ 0
  · obtain ⟨found, hrun, hfound⟩ := pageLoop_spec (ns.bits map) last final hoffset hmax
    refine ⟨c.afterPage last (ns.install map) map found, fun turns => ?_, ?_⟩
    · rw [if_pos hfree, hrun]
      rfl
    rcases hfound with ⟨off, hoff, rfl, hbit, htries⟩ | ⟨rfl, hall⟩
    · refine .inl ⟨_, _, rfl, htries, ?_, hsame.marks hoff⟩
      rw [used_mkPid ns hoff, hbit]
    · refine .inr ⟨fun p hp => ?_, _, hsame, rfl⟩
      obtain ⟨off, hoff, rfl⟩ := hp.exists_offset
      rw [used_mkPid ns hoff]
      exact hall off hoff hp
  · -- a page without a clear bit is passed over
    refine ⟨c.afterPage last (ns.install map) map none, fun turns => ?_,
      .inr ⟨fun p hp => ?_, _, hsame, rfl⟩⟩
    · rw [if_neg hfree]
      rfl
    · obtain ⟨off, hoff, rfl⟩ := hp.exists_offset
      rw [not_not, hexact, countP_eq_zero] at hfree
      rw [used_mkPid ns hoff]
      simpa using hfree off (mem_range.mpr hoff)

/-- The loop takes a free pid among those that it covers, or all of them are in use. -/
def Finds (c : Config) (last togo : ℕ) (ns : PidNamespace) (map offset : ℕ) : Prop :=
  ∃ ns' result, (∀ turns, c.allocLoop (fun _ => true) (turns + 2) last togo ns map offset
      (c.mkPid map offset) = some (ns', result)) ∧
    ((∃ p : ℕ, result = p ∧ c.Covers last togo map offset p ∧ c.used ns p = false ∧
        c.Marks ns ns' p) ∨
      result = -1 ∧ ∀ p, c.Covers last togo map offset p → c.used ns p = true)

theorem finds (hexact : c.Exact ns) (hoffset : offset < c.bpp)
    (hmax : c.mkPid map offset < c.pidMax) :
    c.Finds last togo ns map offset := by
  induction togo generalizing ns map offset with
  | zero => exact ⟨ns, -1, fun turns => rfl, .inr ⟨rfl, fun p hp => hp.elim⟩⟩
  | succ togo ih =>
    obtain ⟨turn, hrun, hturn⟩ := @allocTurn_spec c last map offset ns hexact (togo = 0)
      hoffset hmax
    rcases hturn with ⟨p, ns', rfl, htries, hp, hmarks⟩ | ⟨hall, ns1, hsame, rfl⟩
    · refine ⟨ns', p, fun turns => ?_, .inl ⟨p, rfl, .inl htries, hp, hmarks⟩⟩
      rw [allocLoop, hrun]
      rfl
    · -- the search goes on at another page
      have hnext : ∀ map' offset', offset' < c.bpp → c.mkPid map' offset' < c.pidMax →
          c.afterPage last ns1 map none = .next ns1 map' offset' (c.mkPid map' offset') →
          (∀ p, c.Covers last (togo + 1) map offset p ↔ c.Tries last (togo = 0) map offset p ∨
              c.Covers last togo map' offset' p) →
          c.Finds last (togo + 1) ns map offset := by
        intro map' offset' hoffset' hmax' hafter hcovers
        obtain ⟨ns', result, hloop, hresult⟩ := ih (hsame.exact hexact) hoffset' hmax'
        refine ⟨ns', result, fun turns => ?_, ?_⟩
        · rw [allocLoop, hrun, hafter]
          exact hloop turns
        rcases hresult with ⟨p, hp, hcover, hused, hmarks⟩ | ⟨hminus, hall'⟩
        · refine .inl ⟨p, hp, (hcovers p).mpr (.inr hcover), ?_, hsame.lift hmarks⟩
          rw [← hsame.used, hused]
        · refine .inr ⟨hminus, fun p hp => ?_⟩
          rcases (hcovers p).mp hp with htries | hcover
          · exact hall p htries
          · rw [← hsame.used]
            exact hall' p hcover
      by_cases hmap : map < c.lastMap
      · refine hnext (map + 1) 0 (by omega) ?_ (if_pos hmap) fun p => ?_
        · have hle : (map + 1) * c.bpp ≤ c.lastMap * c.bpp := mul_le_mul_right _ hmap
          have hdiv : c.lastMap * c.bpp ≤ c.pidMax - 1 := div_mul_le_self _ _
          rw [mkPid]
          omega
        · rw [Covers, if_pos hmap]
      by_cases hlast : last = reservedPids
      · refine ⟨ns1, -1, fun turns => ?_, .inr ⟨rfl, fun p hp => ?_⟩⟩
        · rw [allocLoop, hrun, afterPage, if_neg hmap, if_pos hlast]
          rfl
        · rw [Covers, if_neg hmap] at hp
          exact hall p (hp.resolve_right fun hp => hp.1 hlast)
      · refine hnext 0 reservedPids (lt_of_succ_lt c.reserved_lt_bpp) ?_ ?_ fun p => ?_
        · rw [mkPid, zero_mul]
          exact c.reserved_lt_max
        · rw [afterPage, if_neg hmap, if_neg hlast]
        · rw [Covers, if_neg hmap, and_iff_right hlast]

/-- **Allocation of pids is unique and complete unless the last pid is missed.** -/
theorem allocates_iff (hexact : c.Exact ns) :
    c.Allocates ns ↔ ¬ c.Missed ns := by
  have hmax := c.reserved_lt_max
  have hfirst : 0 < c.firstPid ns.lastPid ∧ c.firstPid ns.lastPid < c.pidMax ∧
      (reservedPids ≤ ns.lastPid → reservedPids ≤ c.firstPid ns.lastPid) := by
    rw [firstPid]
    split_ifs with hwrap
    · exact ⟨by decide, hmax, fun _ => le_refl _⟩
    · exact ⟨by omega, by omega, by omega⟩
  have hentry : c.mkPid (c.firstPid ns.lastPid / c.bpp) (c.firstPid ns.lastPid % c.bpp) =
      c.firstPid ns.lastPid := by
    rw [mkPid, mul_comm, div_add_mod]
  obtain ⟨ns', result, hloop, hresult⟩ := @finds c ns.lastPid (c.scans ns.lastPid) _ _ ns hexact
    (mod_lt _ c.bpp_pos) (hentry.trans_lt hfirst.2.1)
  rw [hentry] at hloop
  have hreturns : Returns (fun turns => c.allocPidmap (fun _ => true) turns ns) (ns', result) := by
    refine ⟨2, fun turns hturns => ?_⟩
    obtain ⟨turns, rfl⟩ := Nat.exists_eq_add_of_le' hturns
    exact hloop turns
  constructor
  · rintro ⟨ns1, result1, hreturns1, hout⟩ hmissed
    obtain ⟨rfl, rfl⟩ := Prod.mk.inj (hreturns1.unique hreturns)
    have hlt := hmissed.lt_max
    rcases hresult with ⟨p, -, hcover, hused, -⟩ | ⟨rfl, -⟩
    · -- the only free pid is not covered
      obtain ⟨hle, hlt⟩ := covers_bounds hcover (le_refl _)
        (hentry.symm ▸ hfirst.2.2 hmissed.reserved_le)
      have heq : p = ns.lastPid := by
        by_contra hne
        rw [hmissed.others p hle hlt hne] at hused
        exact Bool.noConfusion hused
      rw [heq] at hcover
      exact not_coversAll_last hmissed.not_first hmissed.not_last hmissed.lt_max hcover
    · rcases hout with ⟨p, hp, -⟩ | ⟨-, hall⟩
      · omega
      · have hused := hall _ hmissed.reserved_le (by omega)
        rw [hmissed.free] at hused
        exact Bool.noConfusion hused
  · intro hmissed
    refine ⟨ns', result, hreturns, ?_⟩
    rcases hresult with ⟨p, hp, hcover, hused, hmarks⟩ | ⟨hminus, hall⟩
    · obtain ⟨hle, hlt⟩ := covers_bounds hcover (by decide) (hentry.symm ▸ hfirst.1)
      exact .inl ⟨p, hp, hle, hlt, hused, hmarks⟩
    · refine .inr ⟨hminus, fun p hle hlt => ?_⟩
      by_contra hfree
      -- a free pid is not covered, so it is the last one
      have hnot : ¬ (p ≠ ns.lastPid ∨ _) := fun hlast => hfree (hall p (coversAll hle hlt hlast))
      simp only [not_or, not_not, not_le] at hnot
      obtain ⟨rfl, hmax', hfirst', hlast'⟩ := hnot
      refine hmissed ⟨hle, hmax', hfirst', hlast', Bool.eq_false_iff.mpr hfree, ?_⟩
      exact fun q hq hq' hne => hall q (coversAll hq hq' (.inl hne))

/-- `BITS_PER_PAGE` and a `pid_max` of the machine. -/
def pages32768 (pidMax : ℕ) (h : reservedPids < pidMax) : Config := ⟨32768, pidMax, by decide, h⟩

/-- The pids below 302 are in use, but for the last one, 300. -/
def onlyLast : PidNamespace where
  pidmap _ := ⟨32467, some fun offset => decide (offset < 302 ∧ offset ≠ 300)⟩
  lastPid := 300

theorem exact_onlyLast (pidMax : ℕ) (h : reservedPids < pidMax) :
    (pages32768 pidMax h).Exact onlyLast := by
  intro map
  have hrange : range 32768 = range 302 ++ (range 32466).map (302 + ·) :=
    @List.range_add 302 32466
  have hbelow : (range 302).countP (fun off => !decide (off < 302 ∧ off ≠ 300)) = 1 := by
    decide +kernel
  have habove : ((range 32466).map (302 + ·)).countP
      (fun off => !decide (off < 302 ∧ off ≠ 300)) = 32466 := by
    rw [countP_eq_length.mpr, length_map, length_range]
    intro off hoff
    obtain ⟨k, -, rfl⟩ := mem_map.mp hoff
    simp
  show 32467 = (range 32768).countP fun off => !decide (off < 302 ∧ off ≠ 300)
  rw [hrange, countP_append, hbelow, habove]

/-- With `pid_max` 32768, a free pid is found. -/
theorem allocates_onlyLast : (pages32768 32768 (by decide)).Allocates onlyLast := by
  refine (allocates_iff (exact_onlyLast _ _)).mpr fun hmissed => ?_
  exact absurd (hmissed.others 302 (by decide) (by decide) (by decide)) (by decide)

/-- With `pid_max` 302, the free pid 300 is not found. -/
theorem not_allocates_onlyLast : (pages32768 302 (by decide)).Exact onlyLast ∧
    ¬ (pages32768 302 (by decide)).Allocates onlyLast := by
  refine ⟨exact_onlyLast _ _, ?_⟩
  rintro ⟨ns', result, ⟨enough, hreturns⟩, hout⟩
  have hresult : ((pages32768 302 (by decide)).allocPidmap (fun _ => true) (enough + 2)
      onlyLast).map Prod.snd = some (-1) := rfl
  have hrun : (pages32768 302 (by decide)).allocPidmap (fun _ => true) (enough + 2) onlyLast =
    some (ns', result) := hreturns (enough + 2) (by omega)
  rw [hrun] at hresult
  obtain rfl : result = -1 := Option.some.inj hresult
  rcases hout with ⟨p, hp, -⟩ | ⟨-, hall⟩
  · omega
  · exact absurd (hall 300 (by decide) (by decide)) (by decide)

end Config

end Gp2xKernel.Pid
