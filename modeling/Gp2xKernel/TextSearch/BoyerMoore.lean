import Mathlib.Tactic.Ring
import Gp2xKernel.TextSearch.Kmp

/-!
# The Boyer-Moore search

The search compares the pattern with the text from the end of the pattern, and jumps by the larger
of two distances when they differ.  Neither jumps over an occurrence.  The first end of the
pattern that is tried is `patlen`, though, which belongs to position `1`: an occurrence at the
very beginning of the text is not found.

## Main definitions

* `Compatible`: a distance by which the pattern may move after a number of bytes were compared
* `BmFindsFirst`: the search returns the first occurrence, as `kmp_find` does

## Main results

* `bmInit_badShift`, `bmInit_goodShift`: the tables
* `jump_spec`: a jump passes over no occurrence
* `bmFind_returns`: a call finds the first occurrence from position `1` on
* `bm_find_first_iff`: the search is right exactly if the text does not begin with the pattern
-/

namespace Gp2xKernel.TextSearch

open Library List BitVec Option Nat
open BitVec (ofNat)

/-! ## Occurrences, from their ends -/

variable {pattern : List (BitVec 8)} {e k g : ℕ}

/-- The pattern occurs with its last byte at index `e` if the bytes agree from there down. -/
theorem occurs_iff_getElem? {text : List (BitVec 8)} {p : ℕ} (hp : p + pattern.length = e + 1) :
    Occurs pattern text p ↔
      ∀ u < pattern.length, text[e - u]? = pattern[pattern.length - 1 - u]? := by
  rw [Occurs, prefix_iff_getElem?]
  constructor
  · intro h u hu
    have hk := h (pattern.length - 1 - u) (by omega)
    rw [getElem?_drop, show p + (pattern.length - 1 - u) = e - u by omega] at hk
    rw [hk, List.getElem?_eq_getElem]
  · intro h k hk
    have hu := h (pattern.length - 1 - k) (by omega)
    rw [List.getElem?_drop, ← List.getElem?_eq_getElem hk]
    rw [show e - (pattern.length - 1 - k) = p + k by omega,
      show pattern.length - 1 - (pattern.length - 1 - k) = k by omega] at hu
    exact hu

/-! ## The table of the bytes -/

/-- The loop over the pattern: an entry is at most the distance of each index of the byte that has
been passed. -/
theorem badLoop_spec (pattern : List (BitVec 8)) (c : BitVec 8) (n i : ℕ) (badShift : List ℕ)
    (hlen : badShift.length = 256) (hle : badShift.getD c.toNat 0 ≤ pattern.length)
    (hpast : ∀ k < i, pattern[k]? = some c →
      badShift.getD c.toNat 0 ≤ pattern.length - 1 - k) :
    (badLoop pattern n i badShift).getD c.toNat 0 ≤ pattern.length ∧
      ∀ k < i + n, pattern[k]? = some c →
        (badLoop pattern n i badShift).getD c.toNat 0 ≤ pattern.length - 1 - k := by
  induction n generalizing i badShift with
  | zero => exact ⟨hle, hpast⟩
  | succ n ih =>
    have hidx : c.toNat < badShift.length := by
      rw [hlen]
      exact c.isLt
    -- either the entry of `c` is the one that is written, or it stays
    rw [show i + (n + 1) = i + 1 + n by omega]
    refine ih (i + 1) _ (by rw [length_set, hlen]) ?_ fun k hk hc => ?_
    · rw [getD_set _ hidx]
      split
      · omega
      · exact hle
    · rw [getD_set _ hidx]
      rcases Nat.lt_succ_iff_lt_or_eq.mp hk with hlt | rfl
      · split
        · omega
        · exact hpast k hlt hc
      · rw [if_pos (by rw [getD_eq_getElem?_getD, hc, getD_some])]

/-- **The table of the bytes**: an entry is at most the distance from the last index to each other
index of the byte. -/
theorem bmInit_badShift (pattern : List (BitVec 8)) (c : BitVec 8) :
    (bmInit pattern).badShift.getD c.toNat 0 ≤ pattern.length ∧
      ∀ k < pattern.length - 1, pattern[k]? = some c →
        (bmInit pattern).badShift.getD c.toNat 0 ≤ pattern.length - 1 - k := by
  have hspec := badLoop_spec pattern c (pattern.length - 1) 0
    (replicate 256 pattern.length) (length_replicate) ?_ (fun k hk => by omega)
  · rwa [zero_add] at hspec
  · rw [getD_eq_getElem?_getD, getElem?_replicate, if_pos c.isLt, getD_some]

/-! ## The table of the ends -/

/-- After the last `g` bytes have agreed and the one before them has not, the pattern may be moved
by `e`: the same bytes are found again `e` places before, as far as the pattern goes, and another
byte before them. -/
def Compatible (pattern : List (BitVec 8)) (g e : ℕ) : Prop :=
  (∀ u < g, e + u < pattern.length →
    pattern[pattern.length - 1 - u]? = pattern[pattern.length - 1 - (e + u)]?) ∧
  (e + g < pattern.length →
    pattern[pattern.length - 1 - g]? ≠ pattern[pattern.length - 1 - (e + g)]?)

theorem byteAt_natCast (pattern : List (BitVec 8)) {z : ℤ} (h : z = k) :
    byteAt pattern z = pattern[k]? := by
  subst h
  simp [byteAt]

/-- The loop of `subpattern`, when `u` bytes have been compared. -/
theorem subpatternLoop_iff (pattern : List (BitVec 8)) (r u : ℕ) (hr : u + r = g) (hpos : 0 < r)
    (hu : e + u < pattern.length) (hg : g < pattern.length) :
    subpatternLoop pattern (pattern.length - g : ℤ) (pattern.length - g - e : ℤ) r
        (pattern.length - 1 - u : ℤ) (pattern.length - 1 - e - u : ℤ) = true ↔
      (∀ k, u ≤ k → k < g → e + k < pattern.length →
        pattern[pattern.length - 1 - k]? = pattern[pattern.length - 1 - (e + k)]?) ∧
      (e + g < pattern.length →
        pattern[pattern.length - 1 - g]? ≠ pattern[pattern.length - 1 - (e + g)]?) := by
  induction r generalizing u with
  | zero => omega
  | succ r ih =>
    rw [subpatternLoop, byteAt_natCast pattern (k := pattern.length - 1 - u) (by omega),
      byteAt_natCast pattern (k := pattern.length - 1 - (e + u)) (by omega)]
    by_cases heq : pattern[pattern.length - 1 - u]? = pattern[pattern.length - 1 - (e + u)]?
    · rw [if_pos heq]
      by_cases hend : e + u + 1 = pattern.length
      · -- the bytes agree up to the beginning of the pattern
        rw [if_pos (by omega)]
        refine iff_of_true rfl ⟨fun k hk _ hlt => ?_, fun h => by omega⟩
        obtain rfl : k = u := by omega
        exact heq
      · rw [if_neg (by omega)]
        by_cases hlast : r = 0
        · -- all bytes agree, and the ones before them decide
          rw [if_pos hlast, byteAt_natCast pattern (k := pattern.length - 1 - g) (by omega),
            byteAt_natCast pattern (k := pattern.length - 1 - (e + g)) (by omega),
            decide_eq_true_iff]
          refine ⟨fun h => ⟨fun k hk hkg _ => ?_, fun _ => h⟩, fun h => h.2 (by omega)⟩
          obtain rfl : k = u := by omega
          exact heq
        · rw [if_neg hlast, show (pattern.length - 1 - u - 1 : ℤ) =
              pattern.length - 1 - (u + 1 : ℕ) by push_cast; ring,
            show (pattern.length - 1 - e - u - 1 : ℤ) =
              pattern.length - 1 - e - (u + 1 : ℕ) by push_cast; ring,
            ih (u + 1) (by omega) (by omega) (by omega)]
          refine and_congr_left fun _ => ⟨fun h k hk => ?_, fun h k hk => h k (by omega)⟩
          rcases eq_or_lt_of_le hk with rfl | hlt
          · exact fun _ _ => heq
          · exact h k hlt
    · rw [if_neg heq]
      refine iff_of_false (by simp) fun h => heq (h.1 u le_rfl (by omega) hu)

/-- `subpattern` tells whether the pattern may be moved by `e`. -/
theorem subpattern_iff (hpos : 0 < g) (he : e < pattern.length) (hg : g < pattern.length) :
    subpattern pattern (pattern.length - g : ℤ) (pattern.length - g - e : ℤ) g = true ↔
      Compatible pattern g e := by
  have hloop := subpatternLoop_iff pattern (e := e) g 0 (zero_add g) hpos (by omega) hg
  rw [subpattern, show (pattern.length - g + g - 1 : ℤ) = pattern.length - 1 - (0 : ℕ) by simp,
    show (pattern.length - g - e + g - 1 : ℤ) = pattern.length - 1 - e - (0 : ℕ) by
      push_cast; ring, hloop]
  exact and_congr_left fun _ => ⟨fun h u hu => h u (zero_le u) hu, fun h u _ hu => h u hu⟩

/-- The search for a reoccurrence, when the distances below `e` are not possible. -/
theorem reoccurrence_spec (pattern : List (BitVec 8)) (hpos : 0 < g) (hg : g < pattern.length)
    (n e : ℕ) (hn : e + n = pattern.length) (he : 0 < e)
    (hnot : ∀ d, 0 < d → d < e → ¬Compatible pattern g d) :
    (reoccurrence pattern (pattern.length - g : ℤ) g n (pattern.length - g - e : ℤ) = none ∧
      ∀ d, 0 < d → d < pattern.length → ¬Compatible pattern g d) ∨
    ∃ d, 0 < d ∧ d < pattern.length ∧ (∀ d', 0 < d' → d' < d → ¬Compatible pattern g d') ∧
      reoccurrence pattern (pattern.length - g : ℤ) g n (pattern.length - g - e : ℤ) =
        some (pattern.length - g - d : ℤ) := by
  induction n generalizing e with
  | zero => exact Or.inl ⟨rfl, fun d hd hlt => hnot d hd (by omega)⟩
  | succ n ih =>
    rw [reoccurrence]
    by_cases hsub : Compatible pattern g e
    · right
      exact ⟨e, he, by omega, hnot, if_pos ((subpattern_iff hpos (by omega) hg).mpr hsub)⟩
    · rw [if_neg fun h => hsub ((subpattern_iff hpos (by omega) hg).mp h),
        show (pattern.length - g - e - 1 : ℤ) = pattern.length - g - (e + 1 : ℕ) by
          push_cast; ring]
      refine ih (e + 1) (by omega) (by omega) fun d hd hlt => ?_
      rcases Nat.lt_succ_iff_lt_or_eq.mp hlt with hlt | rfl
      · exact hnot d hd hlt
      · exact hsub

/-- An entry of the table: no smaller distance is possible. -/
structure GoodEntry (pattern : List (BitVec 8)) (g d : ℕ) : Prop where
  pos : 0 < d
  le : d ≤ pattern.length
  not_compatible : ∀ e, 0 < e → e < d → ¬Compatible pattern g e

/-- The outer loop, when the entries below `g` are right and the others are the length of the
pattern. -/
theorem goodLoop_spec (i g : ℕ) (goodShift : List ℕ) (hi : i + g = pattern.length) (hpos : 0 < g)
    (hlen : goodShift.length = pattern.length)
    (hbelow : ∀ k < g, GoodEntry pattern k (goodShift.getD k 0))
    (habove : ∀ k, g ≤ k → k < pattern.length → goodShift.getD k 0 = pattern.length) :
    ∀ k < pattern.length, GoodEntry pattern k ((goodLoop pattern i g goodShift).getD k 0) := by
  induction i generalizing g goodShift with
  | zero => exact fun k hk => hbelow k (by omega)
  | succ i ih =>
    have hcast : ((i + 1 : ℕ) : ℤ) = pattern.length - g := by omega
    have hcast' : (i : ℤ) = pattern.length - g - (1 : ℕ) := by omega
    rw [goodLoop, hcast, hcast']
    rcases reoccurrence_spec pattern hpos (by omega) (i + g) 1 (by omega) one_pos
      (fun d hd hlt => by omega) with ⟨hnone, hall⟩ | ⟨d, hd, hlt, hnot, hsome⟩
    · rw [hnone]
      refine ih (g + 1) goodShift (by omega) (by omega) hlen (fun k hk => ?_)
        fun k hk => habove k (by omega)
      rcases Nat.lt_succ_iff_lt_or_eq.mp hk with hkg | rfl
      · exact hbelow k hkg
      · rw [habove k le_rfl (by omega)]
        exact ⟨by omega, le_rfl, hall⟩
    · rw [hsome]
      dsimp only
      rw [show (pattern.length - (pattern.length - g - d : ℤ) - g : ℤ).toNat = d by omega]
      refine ih (g + 1) _ (by omega) (by omega) (by rw [length_set, hlen]) (fun k hk => ?_)
        fun k hk hkn => ?_
      · rw [getD_set d (by omega)]
        rcases Nat.lt_succ_iff_lt_or_eq.mp hk with hkg | rfl
        · rw [if_neg hkg.ne']
          exact hbelow k hkg
        · rw [if_pos rfl]
          exact ⟨hd, hlt.le, hnot⟩
      · rw [getD_set d (by omega), if_neg (by omega), habove k (by omega) hkn]

/-- **The table of the ends**: an entry is positive, and no smaller distance is possible. -/
theorem bmInit_goodShift (hk : k < pattern.length) :
    GoodEntry pattern k ((bmInit pattern).goodShift.getD k 0) := by
  refine goodLoop_spec (pattern.length - 1) 1 _ (by omega) one_pos (by simp) (fun k hk1 => ?_)
    (fun k hk1 hkn => ?_) k hk
  · rw [getD_set 1 (by rw [length_replicate]; omega), if_pos (by omega)]
    exact ⟨one_pos, by omega, fun e he hlt => by omega⟩
  · rw [getD_set 1 (by rwa [length_replicate]), if_neg (by omega),
      getD_eq_getElem?_getD, getElem?_replicate, if_pos hkn, getD_some]

/-! ## The search -/

section Search

variable {pattern text : List (BitVec 8)} {s i : ℕ}

/-- The index of a byte that is compared. -/
theorem toNat_shift_sub (hs : s < 2 ^ 31) (hi : i ≤ s) :
    (ofNat 32 s - ofNat 32 i).toNat = s - i := by
  rw [toNat_sub_of_le, toNat_ofNat, toNat_ofNat, mod_eq_of_lt (by omega), mod_eq_of_lt (by omega)]
  rw [le_def, toNat_ofNat, toNat_ofNat, mod_eq_of_lt (by omega), mod_eq_of_lt (by omega)]
  exact hi

/-- The loop over the bytes, when `i` of them have agreed: it ends with the first difference. -/
theorem mismatch_spec (text : List (BitVec 8)) (hs : s < 2 ^ 31) (hlen : pattern.length ≤ s + 1)
    (n i : ℕ) (hn : i + n = pattern.length)
    (hsame : ∀ u < i, text[s - u]? = pattern[pattern.length - 1 - u]?) :
    (mismatch text pattern (ofNat 32 s) n i = none ∧
      ∀ u < pattern.length, text[s - u]? = pattern[pattern.length - 1 - u]?) ∨
    ∃ k < pattern.length, mismatch text pattern (ofNat 32 s) n i = some k ∧
      (∀ u < k, text[s - u]? = pattern[pattern.length - 1 - u]?) ∧
      text[s - k]? ≠ pattern[pattern.length - 1 - k]? := by
  induction n generalizing i with
  | zero => exact Or.inl ⟨rfl, fun u hu => hsame u (by omega)⟩
  | succ n ih =>
    rw [mismatch, toNat_shift_sub hs (by omega)]
    by_cases hne : text[s - i]? ≠ pattern[pattern.length - 1 - i]?
    · exact Or.inr ⟨i, by omega, if_pos hne, hsame, hne⟩
    · rw [if_neg hne]
      refine ih (i + 1) (by omega) fun u hu => ?_
      rcases Nat.lt_succ_iff_lt_or_eq.mp hu with hlt | rfl
      · exact hsame u hlt
      · exact not_not.mp hne

/-- The larger of two values that are in the range of an `int`. -/
theorem max_toInt {a b : ℕ} (ha : a < 2 ^ 31) (hb : b < 2 ^ 31) :
    (if (ofNat 32 a).toInt > (ofNat 32 b).toInt then ofNat 32 a
      else ofNat 32 b) = ofNat 32 (max a b) := by
  have htoInt : ∀ x < 2 ^ 31, (ofNat 32 x).toInt = x := by
    intro x hx
    have hnat : (ofNat 32 x).toNat = x := by
      rw [toNat_ofNat, mod_eq_of_lt (by omega)]
    rw [toInt_eq_toNat_of_lt (by omega), hnat]
  rw [htoInt a ha, htoInt b hb]
  by_cases hlt : b < a
  · rw [if_pos (by omega), max_eq_left hlt.le]
  · rw [if_neg (by omega), max_eq_right (not_lt.mp hlt)]

/-- **A jump passes over no occurrence.**  After the first difference at `i`, the search goes on
with a larger end, and the pattern does not occur with its last byte before it. -/
theorem jump_spec (hfits : s + pattern.length < 2 ^ 31) (hlen : pattern.length ≤ s + 1)
    (hs : s < text.length) (hi : i < pattern.length)
    (hsame : ∀ u < i, text[s - u]? = pattern[pattern.length - 1 - u]?)
    (hne : text[s - i]? ≠ pattern[pattern.length - 1 - i]?) :
    ∃ s', jump (bmInit pattern) text (ofNat 32 s) i = ofNat 32 s' ∧ s < s' ∧
      s' ≤ s + pattern.length ∧
      ∀ p, s < p + pattern.length → p + pattern.length ≤ s' → ¬Occurs pattern text p := by
  obtain ⟨hbad, hbadmin⟩ := bmInit_badShift pattern (text.getD (s - i) 0)
  have hgood := bmInit_goodShift hi
  generalize hb : (bmInit pattern).badShift.getD (text.getD (s - i) 0).toNat 0 = b at *
  generalize hd : (bmInit pattern).goodShift.getD i 0 = d at *
  have hdle := hgood.le
  have hdpos := hgood.pos
  have hc : text[s - i]? = some (text.getD (s - i) 0) := by
    rw [getD_eq_getElem?_getD, List.getElem?_eq_getElem (by omega), getD_some]
  have hsub : ofNat 32 s - ofNat 32 i = ofNat 32 (s - i) := by
    apply eq_of_toNat_eq
    rw [toNat_shift_sub (by omega) (by omega), toNat_ofNat, mod_eq_of_lt (by omega)]
  refine ⟨max (s - i + b) (s + d), ?_, by omega, by omega, fun p hp hle hocc => ?_⟩
  · rw [jump, toNat_shift_sub (by omega) (by omega), hb, hd, hsub, ← ofNat_add, ← ofNat_add]
    exact max_toInt (by omega) (by omega)
  · -- the last byte of the occurrence is `e` places behind `s`
    obtain ⟨e, he⟩ : ∃ e, p + pattern.length = s + e + 1 := ⟨p + pattern.length - s - 1, by omega⟩
    have hbytes : ∀ u, e + u < pattern.length →
        text[s - u]? = pattern[pattern.length - 1 - (e + u)]? := by
      intro u hu
      rw [← (occurs_iff_getElem? he).mp hocc (e + u) hu]
      congr 1
      omega
    have hpos : 0 < e := by
      refine pos_of_ne_zero fun hzero => hne ?_
      subst hzero
      rw [hbytes i (by omega), zero_add]
    rcases lt_or_ge e d with hed | hed
    · -- the distance is smaller than that of the table of the ends
      refine hgood.not_compatible e hpos hed ⟨fun u hu hlt => ?_, fun hlt => ?_⟩
      · rw [← hsame u hu, hbytes u hlt]
      · rw [← hbytes i hlt]
        exact hne.symm
    · -- the byte that differs would be found again closer than its table tells
      have hlt : e + i < pattern.length := by omega
      have hle := hbadmin (pattern.length - 1 - (e + i)) (by omega) (by rw [← hbytes i hlt, hc])
      omega

/-- What is known when the search tries the end `s`: the pattern does not occur before, except
perhaps at position `0`. -/
def Passed (pattern text : List (BitVec 8)) (s : ℕ) : Prop :=
  ∀ p, 1 ≤ p → p + pattern.length ≤ s → ¬Occurs pattern text p

/-- **The loop within a block**, by induction on the part of the text behind `s`. -/
theorem shiftLoop_returns (hpattern : pattern ≠ [])
    (hfits : pattern.length + text.length ≤ 2 ^ 31) (s : ℕ) (hlen : pattern.length ≤ s)
    (hbound : s ≤ pattern.length + text.length) (hpassed : Passed pattern text s) :
    ∃ r, (∀ turns, text.length - s < turns →
        shiftLoop (bmInit pattern) text turns (ofNat 32 s) = some r) ∧
      ((∃ e, r = .found (ofNat 32 e) ∧ pattern.length ≤ e ∧ e < text.length ∧
          IsFirst pattern text 1 (e + 1 - pattern.length)) ∨
        (∃ shift, r = .past shift) ∧ ∀ p, 1 ≤ p → ¬Occurs pattern text p) := by
  induction hm : text.length - s using Nat.strong_induction_on generalizing s with
  | _ m ih =>
    have hnat : (ofNat 32 s).toNat = s := by
      rw [toNat_ofNat, mod_eq_of_lt (by omega)]
    simp only [forall_turns_iff, shiftLoop, hnat]
    by_cases hs : s < text.length
    · simp only [if_pos hs]
      rcases mismatch_spec text (by omega : s < 2 ^ 31) (by omega) pattern.length 0
        (zero_add _) (fun u hu => by omega) with ⟨hnone, hall⟩ | ⟨k, hk, hsome, hsame, hne⟩
      · refine ⟨_, fun turns hturns => ?_, Or.inl ⟨s, rfl, hlen, hs, by omega, ?_,
          fun p hp hlt => ?_⟩⟩
        · rw [show mismatch text (bmInit pattern).pattern _ (bmInit pattern).patlen 0 = none from
            hnone]
        · exact (occurs_iff_getElem? (by omega)).mpr hall
        · exact hpassed p hp (by omega)
      · obtain ⟨s', hjump, hlt, hle, hskip⟩ := jump_spec (by omega) (by omega) hs hk hsame hne
        have hpassed' : Passed pattern text s' := by
          intro p hp hps
          rcases lt_or_ge s (p + pattern.length) with hgt | hge
          · exact hskip p hgt hps
          · exact hpassed p hp hge
        obtain ⟨r, hr, hrest⟩ :=
          ih (text.length - s') (by omega) s' (by omega) (by omega) hpassed' rfl
        refine ⟨r, fun turns hturns => ?_, hrest⟩
        clear hrest
        rw [show mismatch text (bmInit pattern).pattern _ (bmInit pattern).patlen 0 = some k from
          hsome]
        dsimp only
        rw [hjump, hr _ (by omega)]
    · refine ⟨_, fun turns _ => if_neg hs, Or.inr ⟨⟨ofNat 32 s, rfl⟩, fun p hp hocc => ?_⟩⟩
      have := hocc.add_length_le hpattern
      exact hpassed p hp (by omega) hocc

/-- **One call of `bm_find`** for a text in one block returns, and finds the first occurrence from
position `1` on. -/
theorem bmFind_returns {σ : Type} {getNextBlock : GetNextBlock σ}
    (hsource : Source getNextBlock text) (hpattern : pattern ≠ [])
    (hfits : pattern.length + text.length ≤ 2 ^ 31) {cb : σ}
    (hblock : (getNextBlock 0 cb).1 = text) :
    ∃ ret state', Returns (bmFind · getNextBlock (bmInit pattern) ⟨0, cb⟩) (ret, state') ∧
      (IsFirst pattern text 1 ret ∨ ret = uintMax ∧ ∀ p, 1 ≤ p → ¬Occurs pattern text p) := by
  have hpos := length_pos_iff.mpr hpattern
  rcases hget : getNextBlock 0 cb with ⟨block, cb'⟩
  rw [hget] at hblock
  obtain rfl : block = text := hblock
  by_cases hnil : block.length = 0
  · refine ⟨uintMax, ⟨0, cb'⟩, ⟨1, fun turns hturns => ?_⟩, Or.inr ⟨rfl, fun p _ hocc => ?_⟩⟩
    · obtain ⟨turns, rfl⟩ := Nat.exists_eq_add_of_le' hturns
      show bmLoop _ _ _ (turns + 1) _ 0 _ = _
      rw [bmLoop, hget]
      exact if_pos hnil
    · have := hocc.add_length_le hpattern
      omega
  · have hstart : Passed pattern block pattern.length := fun p hp hle => by omega
    obtain ⟨r, hr, ⟨e, rfl, hle, hlt, hisFirst⟩ | ⟨⟨shift, rfl⟩, hnone⟩⟩ :=
      shiftLoop_returns hpattern hfits pattern.length le_rfl (by omega) hstart
    · refine ⟨e + 1 - pattern.length, ⟨0, cb'⟩, ⟨block.length + 1, fun turns hturns => ?_⟩,
        Or.inl hisFirst⟩
      obtain ⟨turns, rfl⟩ := Nat.exists_eq_add_of_le' (by omega : 1 ≤ turns)
      show bmLoop _ _ _ (turns + 1) (ofNat 32 pattern.length) 0 _ = _
      rw [bmLoop, hget]
      dsimp only
      rw [if_neg hnil, hr _ (by omega)]
      show some ((0 + (_ - ofNat 32 (pattern.length - 1)).toNat) % 2 ^ 32, _) = _
      rw [toNat_shift_sub (by omega) (by omega)]
      congr 2
      omega
    · rcases hget' : getNextBlock block.length cb' with ⟨block', cb''⟩
      have hend := hsource.block block.length cb'
      rw [hget', drop_length] at hend
      obtain rfl : block' = [] := prefix_nil.mp hend
      refine ⟨uintMax, ⟨0, cb''⟩, ⟨block.length + 2, fun turns hturns => ?_⟩, Or.inr ⟨rfl, hnone⟩⟩
      obtain ⟨turns, rfl⟩ := Nat.exists_eq_add_of_le' (by omega : 2 ≤ turns)
      show bmLoop _ _ _ (turns + 2) (ofNat 32 pattern.length) 0 _ = _
      rw [bmLoop, hget]
      dsimp only
      rw [if_neg hnil, hr _ (by omega), bind_some]
      dsimp only
      -- there is no other block
      have hlt := hsource.length_lt
      rw [zero_add, mod_eq_of_lt hlt, bmLoop, hget']
      rfl

end Search

/-! ## Position zero -/

/-- What a search from the beginning of a text is to return: the position of the first occurrence,
and `UINT_MAX` if and only if there is none. -/
def FindsFirst (pattern text : List (BitVec 8)) (ret : ℕ) : Prop :=
  (ret = uintMax ↔ ∀ p, ¬Occurs pattern text p) ∧ (ret ≠ uintMax → IsFirst pattern text 0 ret)

/-- The search of `lib/ts_bm.c` from offset `0` returns what it is to return, which `kmp_find`
returns as well. -/
def BmFindsFirst {σ : Type} (getNextBlock : GetNextBlock σ) (cb : σ)
    (pattern text : List (BitVec 8)) : Prop :=
  ∃ ret state', Returns (bmFind · getNextBlock (bmInit pattern) ⟨0, cb⟩) (ret, state') ∧
    FindsFirst pattern text ret ∧
    ∃ kmp kmpState', Returns (kmpInit · pattern) kmp ∧
      Returns (kmpFind · getNextBlock kmp ⟨0, cb⟩) (ret, kmpState')

/-- **Boyer-Moore and position zero.**  For a text in one block whose length an `int` can hold
together with that of the pattern, `bm_find` returns the position of the first occurrence, and
agrees with `kmp_find`, exactly if the text does not begin with the pattern. -/
theorem bm_find_first_iff {σ : Type} {getNextBlock : GetNextBlock σ} {cb : σ}
    {pattern text : List (BitVec 8)} (hsource : Source getNextBlock text)
    (hblock : (getNextBlock 0 cb).1 = text) (hpattern : pattern ≠ [])
    (hfits : pattern.length + text.length ≤ 2 ^ 31) :
    BmFindsFirst getNextBlock cb pattern text ↔ ¬Occurs pattern text 0 := by
  obtain ⟨ret, state', hrun, hret⟩ := bmFind_returns hsource hpattern hfits hblock
  constructor
  · -- position zero would have to be returned, and is not
    rintro ⟨ret', _, hrun', hfinds, -⟩ hzero
    obtain ⟨rfl, -⟩ := Prod.ext_iff.mp (hrun.unique hrun')
    have hne : ret ≠ uintMax := fun heq => hfinds.1.mp heq 0 hzero
    rcases hret with hfirst | ⟨heq, -⟩
    · exact (hfinds.2 hne).not_occurs 0 le_rfl hfirst.le hzero
    · exact hne heq
  · intro hzero
    obtain ⟨kmp, hinit, hkmp⟩ := kmpInit_returns hpattern
    obtain ⟨kret, kstate, hkrun, hout⟩ := kmpFind_returns hsource hkmp hpattern ⟨0, cb⟩
    obtain ⟨hnone', hfirst'⟩ := hout.finds hsource hpattern
    generalize kstate.offset = off' at hout
    have heq : kret = ret := by
      rcases hret with hfirst | ⟨rfl, hnone⟩
      · cases hout with
        | missing hnone => exact absurd hfirst.occurs (hnone _ (zero_le _))
        | found hk =>
          refine hk.unique ⟨zero_le _, hfirst.occurs, fun k _ hk => ?_⟩
          rcases Nat.eq_zero_or_pos k with rfl | hpos
          · exact hzero
          · exact hfirst.not_occurs k hpos hk
      · cases hout with
        | missing _ => rfl
        | found hk =>
          rcases Nat.eq_zero_or_pos kret with rfl | hpos
          · exact absurd hk.occurs hzero
          · exact absurd hk.occurs (hnone _ hpos)
    subst heq
    refine ⟨kret, state', hrun, ⟨?_, fun hne => (hfirst' hne).1⟩, kmp, kstate, hinit, _, hkrun⟩
    exact hnone'.trans ⟨fun h p => h p (zero_le p), fun h p _ => h p⟩

/-- A pattern with a repetition, which is found where it does not begin the text. -/
theorem bm_find_first_repeated :
    ¬Occurs [1#8, 2#8, 1#8] [1#8, 2#8, 2#8, 1#8, 2#8, 1#8] 0 ∧
      BmFindsFirst (getLinearData [1#8, 2#8, 2#8, 1#8, 2#8, 1#8]) () [1#8, 2#8, 1#8]
        [1#8, 2#8, 2#8, 1#8, 2#8, 1#8] :=
  ⟨by decide, (bm_find_first_iff (source_getLinearData (by decide)) rfl (by decide)
    (by decide)).mpr (by decide)⟩

/-- A text that is equal to the pattern: `bm_find` returns `UINT_MAX`, and `kmp_find` finds it. -/
theorem bm_find_whole_text :
    Occurs [1#8, 2#8] [1#8, 2#8] 0 ∧
      Returns (bmFind · (getLinearData [1#8, 2#8]) (bmInit [1#8, 2#8]) ⟨0, ()⟩)
        (uintMax, ⟨0, ()⟩) ∧
      ¬BmFindsFirst (getLinearData [1#8, 2#8]) () [1#8, 2#8] [1#8, 2#8] := by
  have hrun : Returns (bmFind · (getLinearData [1#8, 2#8]) (bmInit [1#8, 2#8]) ⟨0, ()⟩)
      (uintMax, ⟨0, ()⟩) := by
    refine ⟨2, fun turns hturns => ?_⟩
    obtain ⟨turns, rfl⟩ := Nat.exists_eq_add_of_le' hturns
    rfl
  refine ⟨by decide, hrun, ?_⟩
  rintro ⟨ret, _, hrun', hfinds, -⟩
  obtain ⟨heq, -⟩ := Prod.ext_iff.mp (hrun.unique hrun')
  exact hfinds.1.mp heq.symm 0 (by decide)

end Gp2xKernel.TextSearch
