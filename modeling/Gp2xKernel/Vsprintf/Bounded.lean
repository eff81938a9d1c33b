import Gp2xKernel.Vsprintf.Writes

/-!
# The contents of the buffer

The stores to the buffer are those of the characters of the text whose addresses are below the end
of the buffer, and of a NUL.  They form a prefix of the text if the addresses do not wrap around,
and if the length of the text is an `int`; but `vscnprintf` returns `-1` for a buffer of size zero.

## Main definitions

* `storesOf`, `after`: the stores of a text, and what is in memory after them
* `PrintsPrefix`: the buffer holds a prefix of the text, and its length is returned
* `Room`: the text has room in the address space

## Main results

* `vsnprintf_eq`: what `vsnprintf` returns, and its stores
* `vsnprintf_prefix_iff`: when the buffer holds a prefix of the text
-/

namespace Gp2xKernel.Vsprintf

open Library BitVec List Nat Option
open BitVec (ofNat toNat ofInt)

variable {W : ℕ}

/-! ## The stores of a text -/

/-- The stores of a text to addresses from `a` on and below `stop`. -/
def storesOf (stop : BitVec W) : ℕ → List Char → List (BitVec W × Char)
  | _, [] => []
  | a, c :: t =>
    (if BitVec.ofNat W a < stop then [(BitVec.ofNat W a, c)] else []) ++ storesOf stop (a + 1) t

theorem putAll_guarded (stop : BitVec W) (a : ℕ) (t : List Char) (stores : List (BitVec W × Char)) :
    (guarded stop).putAll t ⟨ofNat W a, stores⟩ =
      ⟨ofNat W (a + t.length), stores ++ storesOf stop a t⟩ := by
  induction t generalizing a stores with
  | nil => rw [storesOf, append_nil]; rfl
  | cons c t ih =>
    have hput : (guarded stop).put c ⟨ofNat W a, stores⟩ = ⟨ofNat W (a + 1),
        stores ++ if ofNat W a < stop then [(ofNat W a, c)] else []⟩ := by
      rw [guarded, ofNat_add]
      dsimp only
      split
      · rfl
      · rw [append_nil]
        rfl
    rw [Sink.putAll_cons, hput, ih, List.append_assoc, List.length_cons]
    congr 2
    omega

variable {stop size buf : BitVec W} {a : ℕ} {t fmt : List Char} {stores : List (BitVec W × Char)}
  {args : List (Arg W)}

/-- The stores of a text are those of its characters at addresses below `stop`. -/
theorem mem_storesOf_iff {x : BitVec W × Char} :
    x ∈ storesOf stop a t ↔ ∃ i, t[i]? = some x.2 ∧ x.1 = ofNat W (a + i) ∧ x.1 < stop := by
  induction t generalizing a with
  | nil => simp [storesOf]
  | cons c t ih =>
    rw [storesOf, mem_append, ih]
    constructor
    · rintro (hx | ⟨i, hi, haddr, hlt⟩)
      · split at hx
        · next hlt =>
          rw [mem_singleton.mp hx]
          exact ⟨0, rfl, rfl, hlt⟩
        · exact absurd hx not_mem_nil
      · refine ⟨i + 1, hi, ?_, hlt⟩
        rw [haddr, add_assoc, add_comm 1 i]
    · rintro ⟨i, hi, haddr, hlt⟩
      cases i with
      | zero =>
        left
        rw [haddr, add_zero] at hlt
        rw [if_pos hlt, mem_singleton]
        exact Prod.ext haddr (some.inj hi).symm
      | succ i =>
        right
        refine ⟨i, hi, ?_, hlt⟩
        rw [haddr, add_assoc, add_comm 1 i]

/-! ## Memory -/

/-- The memory after some stores. -/
def after (stores : List (BitVec W × Char)) (mem : BitVec W → Char) : BitVec W → Char :=
  stores.foldl (fun mem x => Function.update mem x.1 x.2) mem

theorem after_append (stores stores' : List (BitVec W × Char)) (mem : BitVec W → Char) :
    after (stores ++ stores') mem = after stores' (after stores mem) :=
  foldl_append

/-- What no store has reached is as before. -/
theorem after_of_ne {mem : BitVec W → Char} {a : BitVec W}
    (h : ∀ x ∈ stores, x.1 ≠ a) : after stores mem a = mem a := by
  induction stores generalizing mem with
  | nil => rfl
  | cons x stores ih =>
    refine (ih fun y hy => h y (mem_cons_of_mem _ hy)).trans ?_
    exact Function.update_of_ne (h x mem_cons_self).symm _ _

/-- A character of the text is where it was stored, when the addresses do not wrap around. -/
theorem after_storesOf {i : ℕ} {c : Char} (hi : t[i]? = some c) (hwrap : a + t.length ≤ 2 ^ W)
    (hlt : ofNat W (a + i) < stop)
    (mem : BitVec W → Char) : after (storesOf stop a t) mem (ofNat W (a + i)) = c := by
  induction t generalizing a i mem with
  | nil => cases hi
  | cons d t ih =>
    rw [length_cons] at hwrap
    rw [storesOf, after_append]
    cases i with
    | zero =>
      obtain rfl := some.inj hi
      rw [add_zero] at hlt ⊢
      rw [if_pos hlt, after_of_ne]
      · exact Function.update_self _ _ _
      · -- the other stores go to higher addresses
        intro x hx heq
        obtain ⟨j, hj, haddr, -⟩ := mem_storesOf_iff.mp hx
        have hjt := (List.getElem?_eq_some_iff.mp hj).1
        rw [heq] at haddr
        have := congrArg toNat haddr
        rw [toNat_ofNat, toNat_ofNat, mod_eq_of_lt (by omega), mod_eq_of_lt (by omega)] at this
        omega
    | succ i =>
      have haddr : a + (i + 1) = a + 1 + i := by omega
      rw [haddr] at hlt ⊢
      exact ih hi (by omega) hlt _

/-! ## The routines -/

/-- The end of the buffer, which stays below the highest address. -/
def stopOf (buf size : BitVec W) : BitVec W := if buf + size < buf then -1 else buf + size

/-- The size of the buffer up to there. -/
def roomOf (buf size : BitVec W) : BitVec W := if buf + size < buf then -1 - buf else size

/-- The address of the NUL, for a text of the given length. -/
def nulAddress (buf size : BitVec W) (len : ℕ) : BitVec W :=
  let str := BitVec.ofNat W (buf.toNat + len)
  if str < stopOf buf size then str else stopOf buf size - 1

/-- All stores of `vsnprintf`. -/
def allStores (buf size : BitVec W) (t : List Char) : List (BitVec W × Char) :=
  storesOf (stopOf buf size) buf.toNat t ++
    if 0 < roomOf buf size then [(nulAddress buf size t.length, '\x00')] else []

/-- **What `vsnprintf` returns, and its stores**, for a format without `n` and arguments that match
it. -/
theorem vsnprintf_eq (buf : BitVec W) (hsize : size.toNat < 2 ^ 31) (hfmt : NoCount fmt)
    (ht : text fmt args = some t) :
    vsnprintf buf size fmt args =
      some (((ofNat W t.length).setWidth 32).toInt, allStores buf size t) := by
  have hint : ¬(size.setWidth 32).toInt < 0 := by
    rw [toInt_eq_toNat_of_lt]
    · omega
    · rw [toNat_setWidth]
      omega
  have hbuf : (⟨buf, []⟩ : Out W) = ⟨ofNat W buf.toNat, []⟩ := by
    rw [ofNat_toNat, setWidth_eq]
  have hlen : ofNat W (buf.toNat + t.length) - buf = ofNat W t.length := by
    rw [ofNat_add, ofNat_toNat, setWidth_eq, add_comm, add_sub_cancel]
  rw [vsnprintf, if_neg hint]
  show ((formatLoop (guarded (stopOf buf size)) (storeCount buf) (parse fmt) args ⟨buf, []⟩).bind
    fun out => some (((out.str - buf).setWidth 32).toInt, if 0 < roomOf buf size then
        if out.str < stopOf buf size then out.stores ++ [(out.str, '\x00')]
        else out.stores ++ [(stopOf buf size - 1, '\x00')]
      else out.stores)) = _
  rw [formatLoop_eq hfmt, ht, hbuf, map_some, putAll_guarded, bind_some, hlen,
    nil_append, allStores, nulAddress]
  by_cases hroom : 0 < roomOf buf size
  · rw [if_pos hroom]
    split <;> rfl
  · rw [if_neg hroom, if_neg hroom, append_nil]

theorem vscnprintf_eq {n : ℤ} (h : vsnprintf buf size fmt args = some (n, stores)) :
    vscnprintf buf size fmt args =
      some (((if size ≤ ofInt W n then size - 1 else ofInt W n).setWidth 32).toInt, stores) := by
  rw [vscnprintf, h]
  rfl

theorem toInt_length {len : ℕ} (hW : 32 ≤ W) (hlen : len < 2 ^ 31) :
    ((ofNat W len).setWidth 32).toInt = len := by
  have hpow : 2 ^ 32 ≤ 2 ^ W := Nat.pow_le_pow_right (by decide) hW
  have hlt : len < 2 ^ W := by omega
  have hnat : ((ofNat W len).setWidth 32).toNat = len := by
    rw [toNat_setWidth, toNat_ofNat, mod_eq_of_lt hlt, mod_eq_of_lt (by omega)]
  rw [toInt_eq_toNat_of_lt (by omega), hnat]

/-- The buffer wraps around at the end of the address space. -/
theorem add_lt_iff : buf + size < buf ↔ 2 ^ W ≤ buf.toNat + size.toNat := by
  rw [lt_def, toNat_add]
  by_cases h : 2 ^ W ≤ buf.toNat + size.toNat
  · rw [mod_eq_sub_mod h, mod_eq_of_lt (by omega)]
    omega
  · rw [mod_eq_of_lt (by omega)]
    omega

/-! ## Prefixes of the text -/

/-- The stores leave a prefix of the text and a NUL in the buffer and go nowhere else; the length of
the text is returned as `n`, and that of the prefix as `m`. -/
structure PrintsPrefix (buf size : BitVec W) (t : List Char) (n m : ℤ)
    (stores : List (BitVec W × Char)) : Prop where
  returns : n = t.length
  stored : m = (min t.length (size.toNat - 1) : ℕ)
  within : ∀ x ∈ stores, (x.1 - buf).toNat < size.toNat
  holds : ∀ mem i, i < size.toNat - 1 → ∀ c, t[i]? = some c →
    after stores mem (buf + BitVec.ofNat W i) = c
  nul : 0 < size.toNat → ∀ mem,
    after stores mem (buf + BitVec.ofNat W (min t.length (size.toNat - 1))) = '\x00'

/-- `vsnprintf` and `vscnprintf` print a prefix of the text. -/
def Prints (buf size : BitVec W) (fmt : List Char) (args : List (Arg W)) (t : List Char) : Prop :=
  ∃ n m stores, vsnprintf buf size fmt args = some (n, stores) ∧
    vscnprintf buf size fmt args = some (m, stores) ∧ PrintsPrefix buf size t n m stores

/-- There is a buffer, the length of the text is an `int`, and the text and its NUL end below the
highest address; they may reach it if the buffer ends there or before. -/
structure Room (buf size : BitVec W) (len : ℕ) : Prop where
  size_pos : 0 < size.toNat
  len_lt : len < 2 ^ 31
  fits : buf.toNat + len + 1 < 2 ^ W ∨
    buf.toNat + size.toNat < 2 ^ W ∧ buf.toNat + len < 2 ^ W

section Main

variable {buf size : BitVec W} {t : List Char}

theorem toNat_stopOf (buf size : BitVec W) : (stopOf buf size).toNat =
    if 2 ^ W ≤ buf.toNat + size.toNat then 2 ^ W - 1 else buf.toNat + size.toNat := by
  rw [stopOf]
  by_cases h : 2 ^ W ≤ buf.toNat + size.toNat
  · rw [if_pos (add_lt_iff.mpr h), if_pos h]
    show (-1#W).toNat = _
    rw [neg_one_eq_allOnes, toNat_allOnes]
  · rw [if_neg (mt add_lt_iff.mp h), if_neg h, toNat_add, mod_eq_of_lt (not_le.mp h)]

theorem toNat_roomOf (buf size : BitVec W) :
    (roomOf buf size).toNat = (stopOf buf size).toNat - buf.toNat := by
  rw [toNat_stopOf, roomOf]
  by_cases h : 2 ^ W ≤ buf.toNat + size.toNat
  · rw [if_pos (add_lt_iff.mpr h), if_pos h]
    show (-1#W - buf).toNat = _
    rw [neg_one_eq_allOnes, toNat_sub, toNat_allOnes]
    rw [show 2 ^ W - buf.toNat + (2 ^ W - 1) = 2 ^ W - 1 - buf.toNat + 2 ^ W by omega,
      add_mod_right, mod_eq_of_lt (by omega)]
  · rw [if_neg (mt add_lt_iff.mp h), if_neg h, Nat.add_sub_cancel_left]

variable {a : BitVec W} {n m : ℤ}

theorem zero_lt_iff : 0 < a ↔ 0 < a.toNat := by
  show (0#W).toNat < a.toNat ↔ _
  rw [toNat_ofNat, zero_mod]

theorem toNat_sub_one (hW : 32 ≤ W) (ha : 0 < a.toNat) : (a - 1).toNat = a.toNat - 1 := by
  have hone : (1 : BitVec W).toNat = 1 := by
    show (1#W).toNat = 1
    rw [toNat_ofNat, Nat.mod_eq_of_lt (Nat.one_lt_two_pow (by omega))]
  rw [toNat_sub, hone, show 2 ^ W - 1 + a.toNat = a.toNat - 1 + 2 ^ W by omega,
    add_mod_right, mod_eq_of_lt (by omega)]

theorem toNat_address {a : ℕ} (h : a < 2 ^ W) : (ofNat W a).toNat = a := by
  rw [toNat_ofNat, mod_eq_of_lt h]

theorem add_ofNat_eq (i : ℕ) : buf + ofNat W i = ofNat W (buf.toNat + i) := by
  rw [ofNat_add, ofNat_toNat, setWidth_eq]

/-- With enough room, the characters before the NUL are stored, and all stores are within the
buffer. -/
theorem Room.spec (h : Room buf size t.length) (hW : 32 ≤ W) :
    buf.toNat + t.length < 2 ^ W ∧ 0 < roomOf buf size ∧
      nulAddress buf size t.length =
        ofNat W (buf.toNat + min t.length (size.toNat - 1)) ∧
      (∀ i < min t.length (size.toNat - 1), ofNat W (buf.toNat + i) < stopOf buf size) ∧
      ∀ i < t.length, ofNat W (buf.toNat + i) < stopOf buf size → i < size.toNat := by
  have hlen : buf.toNat + t.length < 2 ^ W := by
    rcases h.fits with hfits | ⟨-, hfits⟩ <;> omega
  have hpos := h.size_pos
  have hstop := toNat_stopOf buf size
  have hroom := toNat_roomOf buf size
  have haddr : ∀ i ≤ t.length, (ofNat W (buf.toNat + i)).toNat = buf.toNat + i :=
    fun i hi => toNat_address (by omega)
  -- the buffer reaches the end of the address space, or it does not
  by_cases hwrap : 2 ^ W ≤ buf.toNat + size.toNat
  · rw [if_pos hwrap] at hstop
    have hfits : buf.toNat + t.length + 1 < 2 ^ W := by
      rcases h.fits with hfits | ⟨hfits, -⟩ <;> omega
    have hmin : min t.length (size.toNat - 1) = t.length := by omega
    rw [hmin]
    refine ⟨hlen, ?_, ?_, fun i hi => ?_, fun i hi _ => by omega⟩
    · rw [zero_lt_iff]
      omega
    · rw [nulAddress, if_pos]
      rw [lt_def, haddr _ le_rfl]
      omega
    · rw [lt_def, haddr i (by omega)]
      omega
  · rw [if_neg hwrap] at hstop
    refine ⟨hlen, ?_, ?_, fun i hi => ?_, fun i hi hlt => ?_⟩
    · rw [zero_lt_iff]
      omega
    · rw [nulAddress]
      split
      · next hlt =>
        rw [lt_def, haddr _ le_rfl] at hlt
        rw [show min t.length (size.toNat - 1) = t.length by omega]
      · next hge =>
        rw [lt_def, haddr _ le_rfl] at hge
        apply eq_of_toNat_eq
        rw [toNat_address (by omega), toNat_sub_one hW (by omega)]
        omega
    · rw [lt_def, haddr i (by omega)]
      omega
    · rw [lt_def, haddr i (by omega)] at hlt
      omega

/-- The number of characters that `vscnprintf` reports. -/
theorem stored_eq (hW : 32 ≤ W) (hpos : 0 < size.toNat) (hsize : size.toNat < 2 ^ 31) {len : ℕ}
    (hlen : len < 2 ^ 31) :
    ((if size ≤ ofInt W len then size - 1 else ofInt W len).setWidth 32).toInt =
      (min len (size.toNat - 1) : ℕ) := by
  have hpow : 2 ^ 32 ≤ 2 ^ W := Nat.pow_le_pow_right (by decide) hW
  have hvalue : (if size ≤ ofInt W len then size - 1 else ofInt W len) =
      ofNat W (min len (size.toNat - 1)) := by
    rw [ofInt_natCast]
    apply eq_of_toNat_eq
    rw [toNat_address (by omega)]
    split
    · next hle =>
      rw [le_def, toNat_address (by omega)] at hle
      rw [toNat_sub_one hW hpos]
      omega
    · next hlt =>
      rw [le_def, toNat_address (by omega)] at hlt
      rw [toNat_address (by omega)]
      omega
  rw [hvalue]
  exact toInt_length hW (by omega)

/-- **A prefix of the text**, when there is room. -/
theorem Room.printsPrefix (h : Room buf size t.length) (hW : 32 ≤ W)
    (hsize : size.toNat < 2 ^ 31) :
    PrintsPrefix buf size t t.length (min t.length (size.toNat - 1) : ℕ)
      (allStores buf size t) := by
  obtain ⟨hlen, hroom, hnul, hbelow, hwithin⟩ := h.spec hW
  have hpos := h.size_pos
  refine ⟨rfl, rfl, fun x hx => ?_, fun mem i hi c hc => ?_, fun _ mem => ?_⟩
  · -- every store is at some distance from the start of the buffer
    obtain ⟨i, hi, haddr, hlt⟩ : ∃ i, i < size.toNat ∧ x.1 = ofNat W (buf.toNat + i) ∧
        i < 2 ^ W := by
      rw [allStores, if_pos hroom] at hx
      rcases mem_append.mp hx with hx | hx
      · obtain ⟨i, hi, haddr, hbelow⟩ := mem_storesOf_iff.mp hx
        have hit := (List.getElem?_eq_some_iff.mp hi).1
        exact ⟨i, hwithin i hit (haddr ▸ hbelow), haddr, by omega⟩
      · rw [mem_singleton.mp hx]
        exact ⟨_, by omega, hnul, by omega⟩
    rwa [haddr, ← add_ofNat_eq, add_comm, add_sub_cancel, toNat_address hlt]
  · have hit := (List.getElem?_eq_some_iff.mp hc).1
    have hne : ofNat W (buf.toNat + i) ≠ nulAddress buf size t.length := by
      intro heq
      rw [hnul] at heq
      have := congrArg toNat heq
      rw [toNat_address (by omega), toNat_address (by omega)] at this
      omega
    rw [allStores, if_pos hroom, after_append, add_ofNat_eq]
    refine (Function.update_of_ne hne _ _).trans ?_
    exact after_storesOf hc (by omega) (hbelow i (by omega)) mem
  · rw [allStores, if_pos hroom, after_append, add_ofNat_eq, ← hnul]
    exact Function.update_self _ _ _

/-! ## Without room -/

/-- An address that no store reaches holds no given character. -/
theorem exists_after_ne {stores : List (BitVec W × Char)} (h : ∀ x ∈ stores, x.1 ≠ a)
    (c : Char) : ∃ mem, after stores mem a ≠ c := by
  refine ⟨fun _ => if c = '0' then '1' else '0', ?_⟩
  rw [after_of_ne h]
  split
  · next hc =>
    rw [hc]
    decide
  · next hc => exact fun heq => hc heq.symm

/-- All stores are below the end of the buffer. -/
theorem lt_stopOf_of_mem (hW : 32 ≤ W) (hstop : 0 < (stopOf buf size).toNat)
    {x : BitVec W × Char} (hx : x ∈ allStores buf size t) :
    x.1.toNat < (stopOf buf size).toNat := by
  rcases mem_append.mp hx with hx | hx
  · obtain ⟨-, -, -, hlt⟩ := mem_storesOf_iff.mp hx
    exact hlt
  · split at hx
    · rw [mem_singleton.mp hx, nulAddress]
      split
      · next hlt => exact hlt
      · rw [toNat_sub_one hW hstop]
        omega
    · exact absurd hx not_mem_nil

/-- A buffer up to the end of the address space: nothing is stored at the last address, so that the
text and its NUL end before it. -/
theorem PrintsPrefix.fits_of_wrap (hW : 32 ≤ W)
    (h : PrintsPrefix buf size t n m (allStores buf size t))
    (hwrap : 2 ^ W ≤ buf.toNat + size.toNat) : buf.toNat + t.length + 1 < 2 ^ W := by
  have hstop := toNat_stopOf buf size
  rw [if_pos hwrap] at hstop
  by_contra hfits
  -- the distance of the last address from the start of the buffer
  obtain ⟨k, hk⟩ : ∃ k, buf.toNat + k = 2 ^ W - 1 := ⟨2 ^ W - 1 - buf.toNat, by omega⟩
  have hnot : ∀ x ∈ allStores buf size t, x.1 ≠ buf + ofNat W k := by
    intro x hx heq
    have hlt := lt_stopOf_of_mem hW (by omega) hx
    rw [heq, add_ofNat_eq, hk, toNat_address (by omega), hstop] at hlt
    exact lt_irrefl _ hlt
  by_cases hlast : k = min t.length (size.toNat - 1)
  · obtain ⟨mem, hmem⟩ := exists_after_ne hnot '\x00'
    exact hmem (hlast ▸ h.nul (by omega) mem)
  · have hkt : k < t.length := by omega
    obtain ⟨mem, hmem⟩ := exists_after_ne hnot t[k]
    exact hmem (h.holds mem k (by omega) t[k] (getElem?_eq_getElem hkt))

/-- A buffer that ends before the end of the address space: the pointer does not wrap around to
address zero, which is below the end of the buffer. -/
theorem PrintsPrefix.fits_of_not_wrap (hW : 32 ≤ W) (hpos : 0 < size.toNat)
    (hlen : t.length < 2 ^ 31) (h : PrintsPrefix buf size t n m (allStores buf size t))
    (hwrap : buf.toNat + size.toNat < 2 ^ W) : buf.toNat + t.length < 2 ^ W := by
  have hpow : 2 ^ 32 ≤ 2 ^ W := Nat.pow_le_pow_right (by decide) hW
  have hstop := toNat_stopOf buf size
  rw [if_neg (not_le.mpr hwrap)] at hstop
  by_contra hfits
  obtain ⟨k, hk⟩ : ∃ k, buf.toNat + k = 2 ^ W := ⟨2 ^ W - buf.toNat, by omega⟩
  have hzero : ofNat W (buf.toNat + k) < stopOf buf size := by
    rw [lt_def, toNat_ofNat, hk, mod_self]
    omega
  -- a store there is not within the buffer
  have hnot : ∀ c, (ofNat W (buf.toNat + k), c) ∉ allStores buf size t := by
    intro c hmem
    have := h.within _ hmem
    rw [← add_ofNat_eq, add_comm, add_sub_cancel, toNat_address (by omega)] at this
    omega
  by_cases hlast : k = t.length
  · refine hnot '\x00' (mem_append_right _ ?_)
    have hroom : 0 < roomOf buf size := by
      rw [zero_lt_iff, toNat_roomOf]
      omega
    rw [hlast] at hzero ⊢
    rw [if_pos hroom, nulAddress, if_pos hzero]
    exact mem_singleton_self _
  · have hkt : k < t.length := by omega
    refine hnot t[k] (mem_append_left _ (mem_storesOf_iff.mpr ?_))
    exact ⟨k, getElem?_eq_getElem hkt, rfl, hzero⟩

/-- A buffer of size zero: `vscnprintf` returns `-1`. -/
theorem stored_of_size_zero (hW : 32 ≤ W) (hsize : size.toNat = 0) (a : BitVec W) :
    ((if size ≤ a then size - 1 else a).setWidth 32).toInt = -1 := by
  have hle : size ≤ a := by
    rw [le_def, hsize]
    exact zero_le _
  have hzero : size = 0 := eq_of_toNat_eq (by rw [hsize]; rfl)
  have hones : (0 - 1 : BitVec W) = allOnes W := by
    rw [← neg_one_eq_allOnes]
    exact zero_sub _
  rw [if_pos hle, hzero, hones]
  have hset : (allOnes W).setWidth 32 = allOnes 32 := by
    apply eq_of_getLsbD_eq
    intro i hi
    rw [getLsbD_setWidth, getLsbD_allOnes, getLsbD_allOnes]
    simp [decide_eq_true (lt_of_lt_of_le hi hW)]
  rw [hset]
  decide

/-- **Main theorem.** For every format without the conversion `n`, arguments that match it and size
up to `INT_MAX`: `vsnprintf` stores a prefix of the text and a NUL to the buffer and nothing
elsewhere, and returns the length of the text; and `vscnprintf` returns that of the prefix, if and
only if the size is not zero, the length of the text is an `int`, and the text has room in the
address space. -/
theorem vsnprintf_prefix_iff (hW : 32 ≤ W) (hsize : size.toNat < 2 ^ 31) {fmt : List Char}
    (hfmt : NoCount fmt) {args : List (Arg W)} (ht : text fmt args = some t) :
    Prints buf size fmt args t ↔ Room buf size t.length := by
  have hprint := vsnprintf_eq buf hsize hfmt ht
  have hscn := vscnprintf_eq hprint
  constructor
  · rintro ⟨n, m, stores, hn, hm, h⟩
    rw [hprint] at hn
    rw [hscn] at hm
    obtain ⟨rfl, rfl⟩ := Prod.mk.inj (some.inj hn)
    obtain ⟨rfl, -⟩ := Prod.mk.inj (some.inj hm)
    have hlen : t.length < 2 ^ 31 := by
      have := h.returns
      have := toInt_lt (x := (ofNat W t.length).setWidth 32)
      omega
    have hpos : 0 < size.toNat := by
      by_contra hzero
      have hzero' : size.toNat = 0 := by omega
      have hstored := h.stored
      rw [stored_of_size_zero hW hzero'] at hstored
      omega
    refine ⟨hpos, hlen, ?_⟩
    by_cases hwrap : 2 ^ W ≤ buf.toNat + size.toNat
    · exact Or.inl (h.fits_of_wrap hW hwrap)
    · exact Or.inr ⟨not_le.mp hwrap, h.fits_of_not_wrap hW hpos hlen (not_le.mp hwrap)⟩
  · intro h
    rw [toInt_length hW h.len_lt] at hprint hscn
    rw [stored_eq hW h.size_pos hsize h.len_lt] at hscn
    exact ⟨_, _, _, hprint, hscn, h.printsPrefix hW hsize⟩

end Main

theorem vsnprintf_prefix_iff_percent :
    Prints (0x1000 : BitVec 32) 3 ['%', '%', 'o', 'k'] [] ['%', 'o', 'k'] :=
  (vsnprintf_prefix_iff (by decide) (by decide) (by decide) (by decide)).mpr
    ⟨by decide, by decide, Or.inl (by decide)⟩

/-- For a buffer of size zero, `vscnprintf` returns `-1` and not the number of characters that were
stored. -/
theorem vscnprintf_size_zero :
    text (W := 32) ['o', 'k'] [] = some ['o', 'k'] ∧
      vscnprintf (0x1000 : BitVec 32) 0 ['o', 'k'] [] = some (-1, []) ∧
      ¬Prints (0x1000 : BitVec 32) 0 ['o', 'k'] [] ['o', 'k'] := by
  have hscn : vscnprintf (0x1000 : BitVec 32) 0 ['o', 'k'] [] = some (-1, []) := by decide
  refine ⟨by decide, hscn, ?_⟩
  rintro ⟨n, m, stores, -, hm, h⟩
  rw [hscn] at hm
  obtain ⟨rfl, -⟩ := Prod.mk.inj (some.inj hm)
  have := h.stored
  simp at this

end Gp2xKernel.Vsprintf
