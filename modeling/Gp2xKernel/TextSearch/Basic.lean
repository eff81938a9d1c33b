import Mathlib.Data.BitVec
import Gp2xKernel.Library.Turns
import Gp2xKernel.Library.Occurrence

/-!
# The text search modules

The searches of `lib/ts_kmp.c` and `lib/ts_bm.c` with the tables that they build, and the way in
which `include/linux/textsearch.h` hands them the text: a callback returns it block by block.
The loops are given a number of turns and fail when they run out of them.

Lengths and offsets are of type `unsigned int`, so that their sums are taken modulo `2 ^ 32`.

## Main definitions

* `TsState`, `Source`: the state of a search, and a callback that delivers a text
* `kmpInit`, `kmpFind`: the automaton of `lib/ts_kmp.c`
* `bmInit`, `bmFind`: the shifts of `lib/ts_bm.c`
-/

namespace Gp2xKernel.TextSearch

open Library

/-! ## The text -/

/-- `UINT_MAX`, which a search returns if it finds nothing -/
def uintMax : ℕ := 2 ^ 32 - 1

/-- `struct ts_state`: the offset for the next match and the control buffer of the callback. -/
structure TsState (σ : Type) where
  offset : ℕ
  cb : σ

/-- The type of `get_next_block`: from the number of bytes consumed and the control buffer to the
next block, which is empty at the end, and the new control buffer. -/
abbrev GetNextBlock (σ : Type) := ℕ → σ → List (BitVec 8) × σ

/-- The callback delivers the text: in blocks of any lengths, which may depend on the control
buffer, but are not empty before the end of the text.  It addresses the text by an
`unsigned int`. -/
structure Source {σ : Type} (getNextBlock : GetNextBlock σ) (text : List (BitVec 8)) : Prop where
  block : ∀ consumed cb, (getNextBlock consumed cb).1 <+: text.drop consumed
  ne_nil : ∀ consumed cb, consumed < text.length → (getNextBlock consumed cb).1 ≠ []
  length_lt : text.length < 2 ^ 32

/-- `get_linear_data`: the whole rest of the text in one block -/
def getLinearData (data : List (BitVec 8)) : GetNextBlock Unit := fun consumed _ =>
  (if consumed < data.length then data.drop consumed else [], ())

/-- The rest of the block that holds position `consumed`, for a text that is divided into
blocks. -/
def blockAt : List (List (BitVec 8)) → ℕ → List (BitVec 8)
  | [], _ => []
  | b :: bs, consumed =>
    if consumed < b.length then b.drop consumed else blockAt bs (consumed - b.length)

/-! ## Knuth-Morris-Pratt -/

/-- `struct ts_kmp` -/
structure Kmp where
  pattern : List (BitVec 8)
  patternLen : ℕ
  prefixTbl : List ℕ

/-- The loop `while (q > 0 && pattern[q] != c) q = prefix_tbl[q - 1]` -/
def fallBack (pattern : List (BitVec 8)) (prefixTbl : List ℕ) (c : BitVec 8) :
    ℕ → ℕ → Option ℕ
  | 0, _ => none
  | turns + 1, q =>
    if 0 < q ∧ pattern[q]? ≠ some c then
      fallBack pattern prefixTbl c turns (prefixTbl.getD (q - 1) 0)
    else some q

/-- The body that the loops of `compute_prefix_tbl` and `kmp_find` share: fall back, and count the
byte if it fits. -/
def advance (turns : ℕ) (pattern : List (BitVec 8)) (prefixTbl : List ℕ) (c : BitVec 8) (q : ℕ) :
    Option ℕ :=
  (fallBack pattern prefixTbl c turns q).map fun q => if pattern[q]? = some c then q + 1 else q

/-- The loop of `compute_prefix_tbl` at index `q`, over the rest of the pattern. -/
def prefixLoop (turns : ℕ) (pattern : List (BitVec 8)) :
    List (BitVec 8) → ℕ → ℕ → List ℕ → Option (List ℕ)
  | [], _, _, prefixTbl => some prefixTbl
  | c :: rest, q, k, prefixTbl =>
    (advance turns pattern prefixTbl c k).bind fun k =>
      prefixLoop turns pattern rest (q + 1) k (prefixTbl.set q k)

/-- `compute_prefix_tbl` of `lib/ts_kmp.c` -/
def computePrefixTbl (turns : ℕ) (pattern : List (BitVec 8)) (prefixTbl : List ℕ) :
    Option (List ℕ) :=
  prefixLoop turns pattern (pattern.drop 1) 1 0 prefixTbl

/-- `kmp_init`, after `alloc_ts_config` has returned memory filled with zeros -/
def kmpInit (turns : ℕ) (pattern : List (BitVec 8)) : Option Kmp :=
  (computePrefixTbl turns pattern (List.replicate pattern.length 0)).map fun prefixTbl =>
    ⟨pattern, pattern.length, prefixTbl⟩

/-- How the search of one block ends: at the byte that completes the pattern, or with the number
of bytes that fit at its end. -/
inductive Scan
  | found (i : ℕ)
  | partly (q : ℕ)

/-- The loop of `kmp_find` over the bytes of a block, from index `i` on. -/
def scanBlock (turns : ℕ) (kmp : Kmp) : List (BitVec 8) → ℕ → ℕ → Option Scan
  | [], _, q => some (.partly q)
  | c :: text, i, q =>
    (advance turns kmp.pattern kmp.prefixTbl c q).bind fun q =>
      if q = kmp.patternLen then some (.found i) else scanBlock turns kmp text (i + 1) q

/-- The loop of `kmp_find` over the blocks. -/
def kmpLoop {σ : Type} (inner : ℕ) (getNextBlock : GetNextBlock σ) (kmp : Kmp) :
    ℕ → ℕ → ℕ → TsState σ → Option (ℕ × TsState σ)
  | 0, _, _, _ => none
  | turns + 1, q, consumed, state =>
    let (text, cb) := getNextBlock consumed state.cb
    if text.length = 0 then some (uintMax, ⟨state.offset, cb⟩)
    else (scanBlock inner kmp text 0 q).bind fun
      | .found i =>
        let offset := (consumed + i + 1) % 2 ^ 32
        some ((offset + 2 ^ 32 - kmp.patternLen) % 2 ^ 32, ⟨offset, cb⟩)
      | .partly q =>
        kmpLoop inner getNextBlock kmp turns q ((consumed + text.length) % 2 ^ 32)
          ⟨state.offset, cb⟩

def kmpFind {σ : Type} (turns : ℕ) (getNextBlock : GetNextBlock σ) (kmp : Kmp)
    (state : TsState σ) : Option (ℕ × TsState σ) :=
  kmpLoop turns getNextBlock kmp turns 0 state.offset state

/-- A caller that asks for one match after the other, as with `textsearch_next`, until there is
none; `calls` bounds the number of calls. -/
def kmpFindAll {σ : Type} (turns : ℕ) (getNextBlock : GetNextBlock σ) (kmp : Kmp) :
    ℕ → TsState σ → Option (List ℕ)
  | 0, _ => none
  | calls + 1, state =>
    (kmpFind turns getNextBlock kmp state).bind fun (ret, state) =>
      if ret = uintMax then some []
      else (kmpFindAll turns getNextBlock kmp calls state).map (ret :: ·)

/-! ## Boyer-Moore -/

/-- `struct ts_bm` -/
structure Bm where
  pattern : List (BitVec 8)
  patlen : ℕ
  badShift : List ℕ
  goodShift : List ℕ

/-- `pattern[z]` for an index of type `int` -/
def byteAt (pattern : List (BitVec 8)) (z : ℤ) : Option (BitVec 8) :=
  if 0 ≤ z then pattern[z.toNat]? else none

/-- The loop of `subpattern`, with `g` bytes to compare.  It is entered with a positive `g`. -/
def subpatternLoop (pattern : List (BitVec 8)) (i j : ℤ) : ℕ → ℤ → ℤ → Bool
  | 0, _, _ => false
  | g + 1, x, y =>
    if byteAt pattern x = byteAt pattern y then
      if y - 1 < 0 then true
      else if g = 0 then decide (byteAt pattern (i - 1) ≠ byteAt pattern (j - 1))
      else subpatternLoop pattern i j g (x - 1) (y - 1)
    else false

def subpattern (pattern : List (BitVec 8)) (i j : ℤ) (g : ℕ) : Bool :=
  subpatternLoop pattern i j g (i + g - 1) (j + g - 1)

/-- The inner loop of `compute_prefix_tbl` of `lib/ts_bm.c`, with `n` indices from `j` down to go:
the first one at which the subpattern occurs again. -/
def reoccurrence (pattern : List (BitVec 8)) (i : ℤ) (g : ℕ) : ℕ → ℤ → Option ℤ
  | 0, _ => none
  | n + 1, j => if subpattern pattern i j g then some j else reoccurrence pattern i g n (j - 1)

/-- The outer loop of `compute_prefix_tbl` at `i`, where `g` is `patlen - i`.  The inner one has
`i - 1 - (1 - g) + 1` turns. -/
def goodLoop (pattern : List (BitVec 8)) : ℕ → ℕ → List ℕ → List ℕ
  | 0, _, goodShift => goodShift
  | i + 1, g, goodShift =>
    goodLoop pattern i (g + 1) <|
      match reoccurrence pattern (i + 1 : ℕ) g (i + g) i with
      | some j => goodShift.set g (pattern.length - j - g).toNat
      | none => goodShift

/-- The loop that fills `bad_shift`, at index `i` of the pattern, with `n` turns to go. -/
def badLoop (pattern : List (BitVec 8)) : ℕ → ℕ → List ℕ → List ℕ
  | 0, _, badShift => badShift
  | n + 1, i, badShift =>
    badLoop pattern n (i + 1)
      (badShift.set (pattern.getD i 0).toNat (pattern.length - 1 - i))

/-- `bm_init` with the `compute_prefix_tbl` of `lib/ts_bm.c` -/
def bmInit (pattern : List (BitVec 8)) : Bm :=
  let patlen := pattern.length
  { pattern, patlen
    badShift := badLoop pattern (patlen - 1) 0 (List.replicate 256 patlen)
    goodShift := goodLoop pattern (patlen - 1) 1 ((List.replicate patlen patlen).set 0 1) }

/-- The loop that compares the pattern with the text from its end, at index `i` with `n` turns to
go: the first index with a difference. -/
def mismatch (text pattern : List (BitVec 8)) (shift : BitVec 32) : ℕ → ℕ → Option ℕ
  | 0, _ => none
  | n + 1, i =>
    if text[(shift - BitVec.ofNat 32 i).toNat]? ≠ pattern[pattern.length - 1 - i]? then some i
    else mismatch text pattern shift n (i + 1)

/-- The jump behind `next:`, where the larger of two values is taken as an `int`. -/
def jump (bm : Bm) (text : List (BitVec 8)) (shift : BitVec 32) (i : ℕ) : BitVec 32 :=
  let c := text.getD (shift - BitVec.ofNat 32 i).toNat 0
  let a := shift - BitVec.ofNat 32 i + BitVec.ofNat 32 (bm.badShift.getD c.toNat 0)
  let b := shift + BitVec.ofNat 32 (bm.goodShift.getD i 0)
  if a.toInt > b.toInt then a else b

/-- How the search of one block ends: with a match that ends at `shift`, or with the value of
`shift` behind the block. -/
inductive BmScan
  | found (shift : BitVec 32)
  | past (shift : BitVec 32)

/-- The loop of `bm_find` within a block. -/
def shiftLoop (bm : Bm) (text : List (BitVec 8)) : ℕ → BitVec 32 → Option BmScan
  | 0, _ => none
  | turns + 1, shift =>
    if shift.toNat < text.length then
      match mismatch text bm.pattern shift bm.patlen 0 with
      | none => some (.found shift)
      | some i => shiftLoop bm text turns (jump bm text shift i)
    else some (.past shift)

/-- The loop of `bm_find` over the blocks. -/
def bmLoop {σ : Type} (inner : ℕ) (getNextBlock : GetNextBlock σ) (bm : Bm) :
    ℕ → BitVec 32 → ℕ → TsState σ → Option (ℕ × TsState σ)
  | 0, _, _, _ => none
  | turns + 1, shift, consumed, state =>
    let (text, cb) := getNextBlock consumed state.cb
    if text.length = 0 then some (uintMax, ⟨state.offset, cb⟩)
    else (shiftLoop bm text inner shift).bind fun
      | .found shift =>
        some ((consumed + (shift - BitVec.ofNat 32 (bm.patlen - 1)).toNat) % 2 ^ 32,
          ⟨state.offset, cb⟩)
      | .past shift =>
        bmLoop inner getNextBlock bm turns shift ((consumed + text.length) % 2 ^ 32)
          ⟨state.offset, cb⟩

def bmFind {σ : Type} (turns : ℕ) (getNextBlock : GetNextBlock σ) (bm : Bm) (state : TsState σ) :
    Option (ℕ × TsState σ) :=
  bmLoop turns getNextBlock bm turns (BitVec.ofNat 32 bm.patlen) state.offset state

end Gp2xKernel.TextSearch
