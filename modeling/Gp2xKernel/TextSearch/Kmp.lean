import Gp2xKernel.TextSearch.Basic

/-!
# The Knuth-Morris-Pratt search

The number `q` that the search carries from byte to byte, and from block to block, is the length
of the longest beginning of the pattern with which the text read so far ends.  The table is
built by running the same automaton over the pattern itself.

## Main definitions

* `IsTable`: the entries of the table that are right
* `Scanned`: what the search knows about the text it has read
* `Outcome`: what a call returns

## Main results

* `kmpInit_returns`: the table is right
* `kmpFind_returns`: one call finds the first occurrence
* `kmp_find_first`: the search does not depend on the blocks, and repeated calls find the leftmost
  occurrences that do not overlap
-/

namespace Gp2xKernel.TextSearch

open Library List Option Nat

/-! ## The automaton -/

/-- The first `n` entries of the table: entry `q - 1` is the longest border of the first `q` bytes
of the pattern other than these bytes themselves. -/
def IsTable (pattern : List (BitVec 8)) (prefixTbl : List ℕ) (n : ℕ) : Prop :=
  ∀ q, 0 < q → q ≤ n → IsLongest pattern (pattern.take q).tail (prefixTbl.getD (q - 1) 0)

variable {pattern x : List (BitVec 8)} {prefixTbl : List ℕ} {n q : ℕ} {c : BitVec 8}

/-- An entry is smaller than its index, so that falling back ends. -/
theorem IsTable.getD_lt (h : IsTable pattern prefixTbl n) (hq : 0 < q) (hn : q ≤ n) :
    prefixTbl.getD (q - 1) 0 < q := by
  have hle := (h q hq hn).border.le_length
  rw [length_tail, length_take] at hle
  omega

/-- Falling back ends at a candidate that the byte extends, or at zero. -/
theorem fallBack_returns (htable : IsTable pattern prefixTbl n) (q : ℕ)
    (hcand : Candidate pattern x c q) (hq : q ≤ n) :
    ∃ r, (∀ turns, q < turns → fallBack pattern prefixTbl c turns q = some r) ∧
      Candidate pattern x c r ∧ (pattern[r]? = some c ∨ r = 0) := by
  -- each turn goes on with a smaller number
  induction q using Nat.strong_induction_on with
  | _ q ih =>
    simp only [forall_turns_iff, fallBack]
    by_cases hcond : 0 < q ∧ pattern[q]? ≠ some c
    · have hlt := htable.getD_lt hcond.1 hq
      obtain ⟨r, hr, hrest⟩ := ih (prefixTbl.getD (q - 1) 0) hlt
        (hcand.next hcond.2 (htable q hcond.1 hq)) (by omega)
      refine ⟨r, fun turns hturns => ?_, hrest⟩
      rw [if_pos hcond]
      exact hr turns (by omega)
    · refine ⟨q, fun turns _ => if_neg hcond, hcand, ?_⟩
      by_cases hc : pattern[q]? = some c
      · exact Or.inl hc
      · exact Or.inr (Nat.eq_zero_of_not_pos fun hpos => hcond ⟨hpos, hc⟩)

/-- **One byte**: the automaton keeps the longest border of what it has read. -/
theorem advance_returns (htable : IsTable pattern prefixTbl n) (hlongest : IsLongest pattern x q)
    (hq : q ≤ n) (c : BitVec 8) :
    ∃ r, (∀ turns, q < turns → advance turns pattern prefixTbl c q = some r) ∧
      IsLongest pattern (x ++ [c]) r := by
  obtain ⟨r, hr, hcand, hend⟩ := fallBack_returns htable q (hlongest.candidate c) hq
  by_cases hc : pattern[r]? = some c
  · refine ⟨r + 1, fun turns hturns => ?_, hcand.isLongest_succ hc⟩
    rw [advance, hr turns hturns, map_some, if_pos hc]
  · obtain rfl := hend.resolve_left hc
    refine ⟨0, fun turns hturns => ?_, hcand.isLongest_zero hc⟩
    rw [advance, hr turns hturns, map_some, if_neg hc]

/-! ## The table -/

theorem getD_set {tbl : List ℕ} {k : ℕ} (v : ℕ) (hk : k < tbl.length) :
    (tbl.set q v).getD k 0 = if q = k then v else tbl.getD k 0 := by
  simp only [getD_eq_getElem?_getD]
  by_cases hq : q = k
  · rw [hq, getElem?_set_self hk, if_pos rfl, getD_some]
  · rw [getElem?_set_ne hq, if_neg hq]

/-- The loop over the pattern, by induction on its rest: the automaton has read the bytes between
the first one and index `q`. -/
theorem prefixLoop_returns (rest : List (BitVec 8)) {k : ℕ} (hq : 0 < q)
    (hrest : pattern.drop q = rest) (hlen : prefixTbl.length = pattern.length)
    (htable : IsTable pattern prefixTbl q) (hk : IsLongest pattern (pattern.take q).tail k) :
    ∃ tbl, (∀ turns, pattern.length ≤ turns →
        prefixLoop turns pattern rest q k prefixTbl = some tbl) ∧
      IsTable pattern tbl pattern.length := by
  induction rest generalizing q k prefixTbl with
  | nil =>
    have hle : pattern.length ≤ q := drop_eq_nil_iff.mp hrest
    exact ⟨prefixTbl, fun _ _ => rfl, fun j hj hn => htable j hj (by omega)⟩
  | cons c rest ih =>
    have hqlen : q < pattern.length := by
      by_contra hge
      rw [drop_eq_nil_of_le (not_lt.mp hge)] at hrest
      cases hrest
    have hc : pattern[q]? = some c := by
      rw [← head?_drop, hrest, head?_cons]
    have htake : (pattern.take (q + 1)).tail = (pattern.take q).tail ++ [c] := by
      rw [take_add_one, hc, toList_some, tail_append_of_ne_nil]
      intro hnil
      have := congrArg length hnil
      rw [length_take, length_nil] at this
      omega
    have hkq : k ≤ q - 1 := by
      have := hk.border.le_length
      rw [length_tail, length_take] at this
      omega
    obtain ⟨r, hr, hlongest⟩ := advance_returns htable hk (by omega) c
    rw [← htake] at hlongest
    have htable' : IsTable pattern (prefixTbl.set q r) (q + 1) := by
      -- the new entry, and those that the assignment leaves alone
      intro j hj hjq
      rcases eq_or_lt_of_le hjq with rfl | hlt
      · rw [getD_set r (by omega), if_pos (by omega)]
        exact hlongest
      · rw [getD_set r (by omega), if_neg (by omega)]
        exact htable j hj (by omega)
    obtain ⟨tbl, htbl, hdone⟩ := ih (succ_pos q)
      (by rw [← tail_drop, hrest, tail_cons]) (by rw [length_set, hlen])
      htable' hlongest
    refine ⟨tbl, fun turns hturns => ?_, hdone⟩
    rw [prefixLoop, hr turns (by omega)]
    exact htbl turns hturns

/-- The configuration that `kmp_init` builds for a pattern. -/
structure IsKmp (pattern : List (BitVec 8)) (kmp : Kmp) : Prop where
  pattern_eq : kmp.pattern = pattern
  patternLen_eq : kmp.patternLen = pattern.length
  table : IsTable pattern kmp.prefixTbl pattern.length

/-- **`kmp_init` returns**, with a table whose entries are all right.  Entry `0` is not written
and is right as the memory comes filled with zeros. -/
theorem kmpInit_returns (hpattern : pattern ≠ []) :
    ∃ kmp, Returns (kmpInit · pattern) kmp ∧ IsKmp pattern kmp := by
  obtain ⟨a, p, rfl⟩ := exists_cons_of_ne_nil hpattern
  have hone : IsLongest (a :: p) ((a :: p).take 1).tail 0 := isLongest_nil _
  have hstart : IsTable (a :: p) (replicate (a :: p).length 0) 1 := by
    intro q hq hq1
    obtain rfl : q = 1 := by omega
    exact hone
  obtain ⟨tbl, htbl, htable⟩ := prefixLoop_returns _ one_pos rfl (by simp) hstart hone
  refine ⟨⟨a :: p, (a :: p).length, tbl⟩, ⟨(a :: p).length, fun turns hturns => ?_⟩,
    ⟨rfl, rfl, htable⟩⟩
  show (computePrefixTbl turns (a :: p) _).map _ = _
  rw [computePrefixTbl, htbl turns hturns, map_some]

/-! ## The search -/

/-- What the search knows about the text `x` that it has read: its longest border, and that the
pattern does not occur in it. -/
structure Scanned (pattern x : List (BitVec 8)) (q : ℕ) : Prop where
  longest : IsLongest pattern x q
  not_occurs : ∀ p, ¬Occurs pattern x p

theorem scanned_nil (hpattern : pattern ≠ []) : Scanned pattern [] 0 := by
  refine ⟨isLongest_nil pattern, fun p hp => ?_⟩
  have := hp.add_length_le hpattern
  have := length_pos_iff.mpr hpattern
  rw [length_nil] at *
  omega

theorem Scanned.lt_length (h : Scanned pattern x q) : q < pattern.length := by
  refine lt_of_le_of_ne h.longest.border.le fun heq => ?_
  have hsuf := border_length_iff.mp (heq ▸ h.longest.border)
  obtain ⟨y, rfl⟩ := hsuf
  exact h.not_occurs y.length (by rw [Occurs, drop_left])

/-- A byte that does not complete the pattern. -/
theorem Scanned.snoc {r : ℕ} (h : Scanned pattern x q) (hpattern : pattern ≠ [])
    (hr : IsLongest pattern (x ++ [c]) r)
    (hne : r ≠ pattern.length) : Scanned pattern (x ++ [c]) r := by
  refine ⟨hr, fun p hp => ?_⟩
  rcases occurs_snoc hp hpattern with hold | ⟨hsuf, -⟩
  · exact h.not_occurs p hold
  · exact hne (le_antisymm hr.border.le (hr.longest _ (border_length_iff.mpr hsuf)))

/-- **One block**, by induction on its bytes: either the pattern is completed by a byte of the
block and did not occur before, or it has not occurred up to the end of the block. -/
theorem scanBlock_returns {kmp : Kmp} (hkmp : IsKmp pattern kmp) (hpattern : pattern ≠ [])
    (block : List (BitVec 8)) (i : ℕ) (h : Scanned pattern x q) :
    (∃ r, (∀ turns, pattern.length ≤ turns → scanBlock turns kmp block i q = some (.partly r)) ∧
      Scanned pattern (x ++ block) r) ∨
    ∃ y c z, block = y ++ c :: z ∧
      (∀ turns, pattern.length ≤ turns →
        scanBlock turns kmp block i q = some (.found (i + y.length))) ∧
      (∀ p, ¬Occurs pattern (x ++ y) p) ∧ pattern <:+ x ++ y ++ [c] := by
  induction block generalizing x q i with
  | nil => exact Or.inl ⟨q, fun _ _ => rfl, by rwa [append_nil]⟩
  | cons c block ih =>
    obtain ⟨r, hr, hlongest⟩ := advance_returns hkmp.table h.longest h.lt_length.le c
    have hstep : ∀ turns, pattern.length ≤ turns → scanBlock turns kmp (c :: block) i q =
        if r = pattern.length then some (.found i) else scanBlock turns kmp block (i + 1) r := by
      intro turns hturns
      rw [scanBlock, hkmp.pattern_eq, hr turns (h.lt_length.trans_le hturns), bind_some,
        hkmp.patternLen_eq]
    by_cases hfull : r = pattern.length
    · right
      refine ⟨[], c, block, rfl, fun turns hturns => ?_, ?_, ?_⟩
      · rw [hstep turns hturns, if_pos hfull]
        rfl
      · rw [append_nil]
        exact h.not_occurs
      · rw [append_nil]
        exact border_length_iff.mp (hfull ▸ hlongest.border)
    · rcases ih (i + 1) (h.snoc hpattern hlongest hfull) with
        ⟨r', hr', hscan⟩ | ⟨y, d, z, hblock, hfound, hnot, hsuf⟩
      · refine Or.inl ⟨r', fun turns hturns => ?_, by rwa [append_cons x c]⟩
        rw [hstep turns hturns, if_neg hfull, hr' turns hturns]
      · refine Or.inr ⟨c :: y, d, z, by rw [hblock, cons_append], fun turns hturns => ?_, ?_, ?_⟩
        · rw [hstep turns hturns, if_neg hfull, hfound turns hturns, length_cons]
          congr 2
          omega
        · rwa [append_cons x c]
        · rwa [append_cons x c]

/-- What a call returns, and the offset that it leaves: the first occurrence from `off` on and its
end, or `UINT_MAX`. -/
inductive Outcome (pattern text : List (BitVec 8)) (off : ℕ) : ℕ → ℕ → Prop
  | found {p : ℕ} (h : IsFirst pattern text off p) :
      Outcome pattern text off p (p + pattern.length)
  | missing (h : ∀ p, off ≤ p → ¬Occurs pattern text p) : Outcome pattern text off uintMax off

/-- The text behind the offset does not contain the pattern before the byte that completes it. -/
theorem isFirst_of_suffix {pattern text x z : List (BitVec 8)} {off : ℕ} {c : BitVec 8}
    (htext : text.drop off = x ++ c :: z)
    (hnot : ∀ p, ¬Occurs pattern x p) (hsuf : pattern <:+ x ++ [c]) :
    ∃ p, p + pattern.length = off + x.length + 1 ∧ IsFirst pattern text off p := by
  obtain ⟨y, hy⟩ := hsuf
  have hlen := congrArg length hy
  rw [length_append, length_append, length_singleton] at hlen
  refine ⟨off + y.length, by omega, by omega, ?_, fun k hk hlt hocc => ?_⟩
  · rw [← occurs_drop_iff, htext, Occurs, append_cons, ← hy, append_assoc, drop_left]
    exact prefix_append _ _
  · -- an earlier occurrence would end within `x`
    obtain ⟨d, rfl⟩ := Nat.exists_eq_add_of_le hk
    rw [← occurs_drop_iff, htext] at hocc
    refine hnot d ?_
    rw [Occurs, drop_append_of_le_length (by omega)] at hocc
    refine prefix_of_prefix_length_le hocc (prefix_append _ _) ?_
    rw [length_drop]
    omega

section Calls

variable {σ : Type} {getNextBlock : GetNextBlock σ} {pattern text : List (BitVec 8)} {kmp : Kmp}

section

variable (hsource : Source getNextBlock text)
include hsource

/-- **The loop over the blocks**, by induction on the length of the text that is still to come.
The text from the offset on is what has been read, `x`, and the rest. -/
theorem kmpLoop_returns (hkmp : IsKmp pattern kmp)
    (hpattern : pattern ≠ []) (x rest : List (BitVec 8)) {q : ℕ} (state : TsState σ)
    (htext : text.drop state.offset = x ++ rest) (hscan : Scanned pattern x q) :
    ∃ ret state', (∀ inner turns, pattern.length ≤ inner → rest.length < turns →
        kmpLoop inner getNextBlock kmp turns q (state.offset + x.length) state =
          some (ret, state')) ∧
      Outcome pattern text state.offset ret state'.offset := by
  induction hm : rest.length using Nat.strong_induction_on generalizing x rest q state with
  | _ m ih =>
    obtain ⟨off, cb⟩ := state
    dsimp only at htext ⊢
    have hlen := congrArg length htext
    rw [length_drop, length_append] at hlen
    have hdrop : text.drop (off + x.length) = rest := by
      rw [← drop_drop, htext, drop_left]
    have hblock := hsource.block (off + x.length) cb
    have hne := hsource.ne_nil (off + x.length) cb
    have hlt := hsource.length_lt
    rw [hdrop] at hblock
    rcases hget : getNextBlock (off + x.length) cb with ⟨block, cb'⟩
    rw [hget] at hblock hne
    dsimp only at hblock hne
    by_cases hnil : block = []
    · subst hnil
      have hrest : rest = [] := by
        rw [← hdrop, drop_eq_nil_iff]
        exact not_lt.mp fun h => hne h rfl
      refine ⟨uintMax, ⟨off, cb'⟩, fun inner turns _ hturns => ?_,
        Outcome.missing fun p hp hocc => ?_⟩
      · obtain ⟨n, rfl⟩ := Nat.exists_eq_add_of_lt hturns
        rw [kmpLoop, hget]
        rfl
      · obtain ⟨d, rfl⟩ := Nat.exists_eq_add_of_le hp
        rw [← occurs_drop_iff, htext, hrest, append_nil] at hocc
        exact hscan.not_occurs d hocc
    · obtain ⟨rest', rfl⟩ := hblock
      have hpos := length_pos_iff.mpr hnil
      rw [length_append] at hlen hm
      rcases scanBlock_returns hkmp hpattern block 0 hscan with
        ⟨r, hr, hscan'⟩ | ⟨y, c, z, rfl, hfound, hnot, hsuf⟩
      · obtain ⟨ret, state', hrun, hout⟩ := ih rest'.length (by omega) (x ++ block) rest'
          ⟨off, cb'⟩ (by rw [htext, append_assoc]) hscan' rfl
        refine ⟨ret, state', fun inner turns hinner hturns => ?_, hout⟩
        obtain ⟨n, rfl⟩ := Nat.exists_eq_add_of_lt hturns
        have hmod : (off + x.length + block.length) % 2 ^ 32 = off + (x ++ block).length := by
          rw [length_append]
          omega
        rw [kmpLoop, hget]
        simp only [length_eq_zero_iff, hnil, if_false, hr inner hinner, bind_some, hmod]
        exact hrun inner _ hinner (by omega)
      · rw [length_append, length_cons] at hlen hm
        rw [append_assoc, ← append_assoc] at htext
        obtain ⟨p, hp, hfirst⟩ := isFirst_of_suffix htext hnot hsuf
        rw [length_append] at hp
        refine ⟨p, ⟨p + pattern.length, cb'⟩, fun inner turns hinner hturns => ?_,
          Outcome.found hfirst⟩
        obtain ⟨n, rfl⟩ := Nat.exists_eq_add_of_lt hturns
        have hmod : (off + x.length + (0 + y.length) + 1) % 2 ^ 32 = p + pattern.length := by
          omega
        have hpmod : (p + pattern.length + 2 ^ 32 - pattern.length) % 2 ^ 32 = p := by
          rw [show p + pattern.length + 2 ^ 32 - pattern.length = p + 2 ^ 32 by omega,
            add_mod_right, mod_eq_of_lt (by omega)]
        rw [kmpLoop, hget]
        simp only [length_eq_zero_iff, hnil, if_false, hfound inner hinner, bind_some,
          hkmp.patternLen_eq, hmod, hpmod]

/-- **One call of `kmp_find`** returns and finds the first occurrence from the offset on. -/
theorem kmpFind_returns (hkmp : IsKmp pattern kmp)
    (hpattern : pattern ≠ []) (state : TsState σ) :
    ∃ ret state', (∀ turns, pattern.length + text.length < turns →
        kmpFind turns getNextBlock kmp state = some (ret, state')) ∧
      Outcome pattern text state.offset ret state'.offset := by
  obtain ⟨ret, state', hrun, hout⟩ :=
    kmpLoop_returns hsource hkmp hpattern [] _ state rfl (scanned_nil hpattern)
  refine ⟨ret, state', fun turns hturns => ?_, hout⟩
  exact hrun turns turns (by omega) (by rw [length_drop]; omega)

/-- A position at which the pattern occurs is not `UINT_MAX`. -/
theorem isFirst_ne_uintMax (hpattern : pattern ≠ [])
    {off p : ℕ} (h : IsFirst pattern text off p) : p ≠ uintMax := by
  have hle := h.occurs.add_length_le hpattern
  have hlt := hsource.length_lt
  have hpos := length_pos_iff.mpr hpattern
  rw [uintMax]
  omega

theorem Outcome.finds {off ret off' : ℕ} (hpattern : pattern ≠ [])
    (hout : Outcome pattern text off ret off') :
    (ret = uintMax ↔ ∀ p, off ≤ p → ¬Occurs pattern text p) ∧
      (ret ≠ uintMax → IsFirst pattern text off ret ∧ off' = ret + pattern.length) := by
  cases hout with
  | missing hnone => exact ⟨⟨fun _ => hnone, fun _ => rfl⟩, fun hne => absurd rfl hne⟩
  | found hfirst =>
    refine ⟨⟨fun heq => ?_, fun hnone => ?_⟩, fun _ => ⟨hfirst, rfl⟩⟩
    · exact absurd heq (isFirst_ne_uintMax hsource hpattern hfirst)
    · exact absurd hfirst.occurs (hnone _ hfirst.le)

/-- **Repeated calls**, by induction on the length of the text behind the offset. -/
theorem kmpFindAll_returns (hkmp : IsKmp pattern kmp)
    (hpattern : pattern ≠ []) (state : TsState σ) :
    ∃ ps, (∀ turns calls, pattern.length + text.length < turns →
        text.length - state.offset < calls →
        kmpFindAll turns getNextBlock kmp calls state = some ps) ∧
      Leftmost pattern text state.offset ps := by
  induction hm : text.length - state.offset using Nat.strong_induction_on generalizing state with
  | _ m ih =>
    obtain ⟨ret, state', hrun, hout⟩ := kmpFind_returns hsource hkmp hpattern state
    have hcall : ∀ turns calls, pattern.length + text.length < turns →
        kmpFindAll turns getNextBlock kmp (calls + 1) state = if ret = uintMax then some []
          else (kmpFindAll turns getNextBlock kmp calls state').map (ret :: ·) := by
      intro turns calls hturns
      rw [kmpFindAll, hrun turns hturns, bind_some]
    generalize hoff : state'.offset = off' at hout
    cases hout with
    | missing hnone =>
      refine ⟨[], fun turns calls hturns hcalls => ?_, Leftmost.nil hnone⟩
      obtain ⟨calls, rfl⟩ := Nat.exists_eq_add_one_of_ne_zero (Nat.ne_zero_of_lt hcalls)
      rw [hcall turns calls hturns, if_pos rfl]
    | found hfirst =>
      have hle := hfirst.occurs.add_length_le hpattern
      have hpos := length_pos_iff.mpr hpattern
      have hge := hfirst.le
      obtain ⟨ps, hps, hleft⟩ := ih (text.length - state'.offset) (by omega) state' rfl
      rw [hoff] at hleft
      refine ⟨ret :: ps, fun turns calls hturns hcalls => ?_, Leftmost.cons hfirst hleft⟩
      obtain ⟨calls, rfl⟩ := Nat.exists_eq_add_one_of_ne_zero (Nat.ne_zero_of_lt hcalls)
      rw [hcall turns calls hturns, if_neg (isFirst_ne_uintMax hsource hpattern hfirst),
        hps turns calls hturns (by omega), map_some]

end

end Calls

/-- **The search does not depend on the blocks.**  However a callback divides the text, a call
returns; it returns `UINT_MAX` exactly if the pattern does not occur from the offset on; otherwise
it returns the position of the first occurrence and leaves the offset just behind it.  Repeated
calls enumerate the leftmost occurrences that do not overlap. -/
theorem kmp_find_first (pattern : List (BitVec 8)) (hpattern : pattern ≠ []) :
    ∃ kmp, Returns (kmpInit · pattern) kmp ∧
      ∀ {σ : Type} {getNextBlock : GetNextBlock σ} {text : List (BitVec 8)},
        Source getNextBlock text → ∀ state : TsState σ,
        (∃ ret state', Returns (kmpFind · getNextBlock kmp state) (ret, state') ∧
          (ret = uintMax ↔ ∀ p, state.offset ≤ p → ¬Occurs pattern text p) ∧
          (ret ≠ uintMax → IsFirst pattern text state.offset ret ∧
            state'.offset = ret + pattern.length)) ∧
        ∃ ps, Returns (fun turns => kmpFindAll turns getNextBlock kmp turns state) ps ∧
          Leftmost pattern text state.offset ps := by
  obtain ⟨kmp, hinit, hkmp⟩ := kmpInit_returns hpattern
  refine ⟨kmp, hinit, fun {σ getNextBlock text} hsource state => ⟨?_, ?_⟩⟩
  · obtain ⟨ret, state', hrun, hout⟩ := kmpFind_returns hsource hkmp hpattern state
    exact ⟨ret, state', ⟨_, fun turns hturns => hrun turns hturns⟩, hout.finds hsource hpattern⟩
  · obtain ⟨ps, hps, hleft⟩ := kmpFindAll_returns hsource hkmp hpattern state
    refine ⟨ps, ⟨pattern.length + text.length + 1, fun turns hturns => ?_⟩, hleft⟩
    exact hps turns turns (by omega) (by omega)

/-! ## Callbacks that deliver a text -/

theorem source_getLinearData {data : List (BitVec 8)} (hlen : data.length < 2 ^ 32) :
    Source (getLinearData data) data := by
  refine ⟨fun consumed cb => ?_, fun consumed cb hlt => ?_, hlen⟩
  · rw [getLinearData]
    split
    · exact prefix_rfl
    · exact nil_prefix
  · rw [getLinearData, if_pos hlt]
    exact fun hnil => absurd (drop_eq_nil_iff.mp hnil) (not_le.mpr hlt)

theorem blockAt_isPrefix (blocks : List (List (BitVec 8))) (consumed : ℕ) :
    blockAt blocks consumed <+: blocks.flatten.drop consumed := by
  induction blocks generalizing consumed with
  | nil => exact nil_prefix
  | cons b bs ih =>
    rw [blockAt, flatten_cons]
    by_cases hlt : consumed < b.length
    · rw [if_pos hlt, drop_append_of_le_length hlt.le]
      exact prefix_append _ _
    · rw [if_neg hlt, drop_append, drop_eq_nil_of_le (not_lt.mp hlt)]
      exact ih _

theorem blockAt_ne_nil {blocks : List (List (BitVec 8))} {consumed : ℕ}
    (hlt : consumed < blocks.flatten.length) : blockAt blocks consumed ≠ [] := by
  induction blocks generalizing consumed with
  | nil => exact absurd hlt (not_lt_zero _)
  | cons b bs ih =>
    rw [flatten_cons, length_append] at hlt
    rw [blockAt]
    by_cases hb : consumed < b.length
    · rw [if_pos hb]
      exact fun hnil => absurd (drop_eq_nil_iff.mp hnil) (not_le.mpr hb)
    · rw [if_neg hb]
      exact ih (by omega)

theorem source_blockAt (blocks : List (List (BitVec 8))) (hlen : blocks.flatten.length < 2 ^ 32) :
    Source (fun consumed (cb : Unit) => (blockAt blocks consumed, cb)) blocks.flatten :=
  ⟨fun consumed _ => blockAt_isPrefix blocks consumed, fun _ _ hlt => blockAt_ne_nil hlt, hlen⟩

/-- A pattern of two bytes in a text of three blocks, where it lies across their boundaries. -/
theorem kmp_find_first_blocks :
    ∃ kmp, Returns (kmpInit · [1#8, 1#8]) kmp ∧
      ∃ ret state', Returns (kmpFind · (fun consumed (cb : Unit) =>
          (blockAt [[0#8, 1#8], [1#8, 1#8], [1#8]] consumed, cb)) kmp ⟨0, ()⟩) (ret, state') ∧
        IsFirst [1#8, 1#8] [0#8, 1#8, 1#8, 1#8, 1#8] 0 ret ∧ state'.offset = ret + 2 := by
  obtain ⟨kmp, hinit, hall⟩ := kmp_find_first [1#8, 1#8] (by decide)
  obtain ⟨⟨ret, state', hrun, hnone, hfirst⟩, -⟩ :=
    hall (source_blockAt [[0#8, 1#8], [1#8, 1#8], [1#8]] (by decide)) ⟨0, ()⟩
  have hne : ret ≠ uintMax := fun heq =>
    hnone.mp heq 1 (zero_le _) (by decide)
  exact ⟨kmp, hinit, ret, state', hrun, hfirst hne⟩

end Gp2xKernel.TextSearch
