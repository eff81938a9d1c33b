import Gp2xKernel.Library.Places
import Gp2xKernel.TimerWheel.Basic

/-!
# Where the timers are

Iterations are numbered without wrapping around: iteration `n` is the one with `timer_jiffies` equal
to `n` modulo the word size.  Each pending timer is due in one iteration.  A timer in the root
vector is in the list that its iteration looks at; and a timer in another vector is in a list that
is looked at before its iteration or at the beginning of it, when it moves on.

## Main definitions

* `Visits`: an iteration looks at a list of a vector
* `Sound`: a list is one that a timer may be in
* `Ready`: the expiry time of a timer that is put into a vector
* `Inv`: the invariant of a base

## Main results

* `place_sound`: the list that is chosen for a timer is one that it may be in
* `Inv.add`, `Inv.cascade`, `Inv.startIteration`: the steps keep the invariant
-/

namespace Gp2xKernel.TimerWheel

open Library Function BitVec List Nat
open BitVec (ofNat)

variable {c : Config} {Timer : Type}

/-! ## The choice of a list -/

/-- The number of the lowest bit of the time that the lists of a vector depend on. -/
def Config.shift (c : Config) (level : ℕ) : ℕ := c.tvrBits + (level - 1) * c.tvnBits

/-- Iteration `m` looks at list `slot` of a vector other than the root. -/
def Visits (c : Config) (level slot m : ℕ) : Prop :=
  2 ^ c.shift level ∣ m ∧ m / 2 ^ c.shift level % 2 ^ c.tvnBits = slot

/-- A timer that is due in iteration `k` may be in the list, when the next iteration is `n`, and the
iterations from `low` on are still to look at the lists of the vector. -/
inductive Sound (c : Config) (n low k : ℕ) : ℕ → ℕ → Prop
  | root (hle : n ≤ k) (hlt : k < n + 2 ^ c.tvrBits) : Sound c n low k 0 (k % 2 ^ c.tvrBits)
  | vec {level slot m : ℕ} (hpos : 1 ≤ level) (hmax : level ≤ 4) (hlow : low ≤ m) (hle : m ≤ k)
      (hvisit : Visits c level slot m) : Sound c n low k level slot

/-- A timer that expires in iteration `k`, at or after the next iteration `n`. -/
structure Ahead (c : Config) (n k : ℕ) (expires : BitVec c.W) : Prop where
  expires_eq : expires = BitVec.ofNat c.W k
  le : n ≤ k
  lt : k < n + 2 ^ (c.W - 1)

/-- A timer is put into a vector: it expires in the iteration in which it is due, or it has expired
and is due in the next iteration. -/
def Ready (c : Config) (n k : ℕ) (expires : BitVec c.W) : Prop :=
  Ahead c n k expires ∨ (expires - BitVec.ofNat c.W n).toInt < 0 ∧ k = n

theorem Config.two_pow_pred (c : Config) : 2 ^ (c.W - 1) + 2 ^ (c.W - 1) = 2 ^ c.W := by
  have hword := c.word
  rw [← Nat.two_mul, ← Nat.pow_succ', Nat.succ_eq_add_one, Nat.sub_add_cancel (by omega)]

variable {n k : ℕ} {expires : BitVec c.W}

theorem Ahead.toNat_sub (h : Ahead c n k expires) : (expires - ofNat c.W n).toNat = k - n := by
  obtain ⟨rfl, hle, hlt⟩ := h
  have hpow := c.two_pow_pred
  obtain ⟨d, rfl⟩ := Nat.exists_eq_add_of_le hle
  rw [ofNat_add, add_comm, add_sub_cancel, toNat_ofNat, mod_eq_of_lt (by omega)]
  omega

theorem Ahead.toInt_sub (h : Ahead c n k expires) : ¬(expires - ofNat c.W n).toInt < 0 := by
  have hpow := c.two_pow_pred
  have hlt := h.lt
  have hle := h.le
  rw [toInt_eq_toNat_of_lt]
  · omega
  · rw [h.toNat_sub]
    omega

/-- The bits of a time that are the same for all its numbers. -/
theorem bits_eq {m shift bits : ℕ} (h : shift + bits ≤ c.W) :
    (ofNat c.W m).toNat >>> shift &&& (2 ^ bits - 1) = m / 2 ^ shift % 2 ^ bits := by
  rw [toNat_ofNat, shiftRight_eq_div_pow, and_two_pow_sub_one_eq_mod]
  obtain ⟨d, hd⟩ := Nat.exists_eq_add_of_le h
  rw [hd, add_assoc, pow_add, mod_mul_right_div_self, pow_add, mod_mul_right_mod]

theorem lt_last_add (s k : ℕ) : k < k / 2 ^ s * 2 ^ s + 2 ^ s := by
  have hdiv := div_add_mod k (2 ^ s)
  rw [mul_comm] at hdiv
  omega

/-- A vector other than the root, for a timer that is far enough ahead. -/
theorem sound_vec {j : ℕ} (level : ℕ) (hpos : 1 ≤ level) (hmax : level ≤ 4)
    (hfar : n + 2 ^ c.shift level ≤ j) (hle : j ≤ k) :
    Sound c n (n + 1) k level ((ofNat c.W j).toNat >>> c.shift level &&& (2 ^ c.tvnBits - 1)) := by
  have hfits := c.fits
  have hword := c.word
  have hbits : c.shift level + c.tvnBits ≤ c.W := by
    have : (level - 1) * c.tvnBits ≤ 3 * c.tvnBits := mul_le_mul_right _ (by omega)
    rw [Config.shift]
    omega
  rw [bits_eq hbits]
  have hlast := lt_last_add (c.shift level) j
  exact Sound.vec hpos hmax (by omega) (le_trans (Nat.div_mul_le_self _ _) hle)
    ⟨Dvd.intro_left _ rfl, by rw [Nat.mul_div_cancel _ (Nat.two_pow_pos _)]⟩

theorem rootBits_eq (m : ℕ) : (ofNat c.W m).toNat &&& (2 ^ c.tvrBits - 1) = m % 2 ^ c.tvrBits := by
  have hfits := c.fits
  have hword := c.word
  have hbits := bits_eq (m := m) (le_trans (le_of_eq (zero_add _)) (by omega : c.tvrBits ≤ c.W))
  rwa [Nat.shiftRight_zero, Nat.pow_zero, Nat.div_one] at hbits

/-- The choice for a timer that expires at or after the next iteration. -/
theorem Ahead.place_sound (h : Ahead c n k expires) :
    Sound c n (n + 1) k (place c (ofNat c.W n) expires).1 (place c (ofNat c.W n) expires).2 := by
  have hsub := h.toNat_sub
  have hneg := h.toInt_sub
  obtain ⟨rfl, hle, -⟩ := h
  have h1 : c.shift 1 = c.tvrBits := by rw [Config.shift, Nat.zero_mul, Nat.add_zero]
  have h2 : c.shift 2 = c.tvrBits + c.tvnBits := by rw [Config.shift, Nat.one_mul]
  have h3 : c.shift 3 = c.tvrBits + 2 * c.tvnBits := rfl
  have h4 : c.shift 4 = c.tvrBits + 3 * c.tvnBits := rfl
  rw [place, hsub]
  by_cases hroot : k - n < 2 ^ c.tvrBits
  · rw [if_pos hroot, rootBits_eq]
    exact Sound.root hle (by omega)
  rw [if_neg hroot]
  by_cases htv2 : k - n < 2 ^ (c.tvrBits + c.tvnBits)
  · rw [if_pos htv2, ← h1]
    exact sound_vec 1 (by decide) (by decide) (by rw [h1]; omega) le_rfl
  rw [if_neg htv2]
  by_cases htv3 : k - n < 2 ^ (c.tvrBits + 2 * c.tvnBits)
  · rw [if_pos htv3, ← h2]
    exact sound_vec 2 (by decide) (by decide) (by rw [h2]; omega) le_rfl
  rw [if_neg htv3]
  by_cases htv4 : k - n < 2 ^ (c.tvrBits + 3 * c.tvnBits)
  · rw [if_pos htv4]
    exact sound_vec 3 (by decide) (by decide) (by rw [h3]; omega) le_rfl
  rw [if_neg htv4, if_neg hneg]
  by_cases hclamp : k - n > 0xffffffff
  · -- far timers are parked in the list of the latest time that the vector can tell
    have hfits := c.fits
    have hpos := c.tvn_pos
    have hpow : 2 ^ c.shift 4 ≤ 2 ^ 31 := Nat.pow_le_pow_right (by decide) (by rw [h4]; omega)
    rw [if_pos hclamp, ← ofNat_add]
    exact sound_vec 4 (by decide) (by decide) (by omega) (by omega)
  · rw [if_neg hclamp]
    exact sound_vec 4 (by decide) (by decide) (by rw [h4]; omega) le_rfl

/-- The choice for a timer that has expired: the list of the next iteration. -/
theorem place_of_neg (h : (expires - ofNat c.W n).toInt < 0) :
    place c (ofNat c.W n) expires = (0, n % 2 ^ c.tvrBits) := by
  have hfits := c.fits
  have hword := c.word
  have hpos := c.tvn_pos
  have hpred := c.two_pow_pred
  have hidx : 2 ^ (c.W - 1) ≤ (expires - ofNat c.W n).toNat := by
    by_contra hlt
    rw [toInt_eq_toNat_of_lt (by omega)] at h
    omega
  have hlarge : ∀ bits ≤ 31, ¬(expires - ofNat c.W n).toNat < 2 ^ bits := by
    intro bits hbits hlt
    have := Nat.pow_le_pow_right (n := 2) (by decide) (by omega : bits ≤ c.W - 1)
    omega
  rw [place, if_neg (hlarge _ (by omega)), if_neg (hlarge _ (by omega)),
    if_neg (hlarge _ (by omega)), if_neg (hlarge _ (by omega)), if_pos h, rootBits_eq]

/-- **The list that is chosen** for a timer is one that it may be in, and that no iteration up to
the present one looks at again. -/
theorem Ready.place_sound (h : Ready c n k expires) :
    Sound c n (n + 1) k (place c (ofNat c.W n) expires).1 (place c (ofNat c.W n) expires).2 := by
  rcases h with h | ⟨hneg, rfl⟩
  · exact h.place_sound
  · rw [place_of_neg hneg]
    exact Sound.root le_rfl (Nat.lt_add_of_pos_right (Nat.two_pow_pos _))

theorem Sound.mono {low low' l i : ℕ} (h : Sound c n low k l i) (hlow : low' ≤ low) :
    Sound c n low' k l i := by
  cases h with
  | root hle hlt => exact Sound.root hle hlt
  | vec hpos hmax hge hle hvisit => exact Sound.vec hpos hmax (le_trans hlow hge) hle hvisit

/-! ## The invariant -/

/-- Where a timer may be: in a list of a vector, on the list of the iteration under way, or on a
list of its own while it is moved. -/
inductive Place
  | vec (level slot : ℕ)
  | work
  | loose
  deriving DecidableEq

/-- The timers at a place. -/
def Base.at (base : Base c Timer) (loose : List Timer) : Place → List Timer
  | .vec level slot => base.tv level slot
  | .work => base.work
  | .loose => loose

/-- The invariant of a base.  The next iteration is `n`; timers are due in the iterations that `due`
says; for each vector, `low` is the next iteration that may look at its lists; and the timers on
`loose` are being moved. -/
structure Inv (n : ℕ) (low : ℕ → ℕ) (due : Timer → Option ℕ) (loose : List Timer)
    (base : Base c Timer) : Prop where
  time : base.timerJiffies = BitVec.ofNat c.W n
  placed : Placed (base.at loose)
  located : ∀ t k, due t = some k → ∃ p, t ∈ base.at loose p
  vec : ∀ l i, ∀ t ∈ base.tv l i, ∃ k, due t = some k ∧ Sound c n (low l) k l i ∧
    (l ≠ 0 → Ahead c n k (base.expires t))
  work : ∀ t ∈ base.work, ∃ k, due t = some k ∧ k + 1 = n
  ready : ∀ t ∈ loose, ∃ k, due t = some k ∧ Ready c n k (base.expires t)
  pending : ∀ t ∉ loose, base.pending t = true ↔ (due t).isSome

section Steps

variable {n : ℕ} {low : ℕ → ℕ} {due : Timer → Option ℕ} {loose : List Timer} {base : Base c Timer}

variable {t : Timer} {level slot l n : ℕ}

/-- A timer that is somewhere is due. -/
theorem Inv.due_of_mem (h : Inv n low due loose base) {p : Place}
    (ht : t ∈ base.at loose p) : ∃ k, due t = some k := by
  cases p with
  | vec l i =>
    obtain ⟨k, hk, -⟩ := h.vec l i t ht
    exact ⟨k, hk⟩
  | work =>
    obtain ⟨k, hk, -⟩ := h.work t ht
    exact ⟨k, hk⟩
  | loose =>
    obtain ⟨k, hk, -⟩ := h.ready t ht
    exact ⟨k, hk⟩

/-- The iterations that are still to look at a vector may be known better. -/
theorem Inv.raise (h : Inv n low due loose base) {low' : ℕ → ℕ}
    (hlow : ∀ l i m, 1 ≤ l → l ≤ 4 → low l ≤ m → Visits c l i m → base.tv l i ≠ [] → low' l ≤ m) :
    Inv n low' due loose base := by
  refine { h with vec := fun l i t ht => ?_ }
  obtain ⟨k, hk, hsound, hahead⟩ := h.vec l i t ht
  refine ⟨k, hk, ?_, hahead⟩
  cases hsound with
  | root hle hlt => exact Sound.root hle hlt
  | vec hpos hmax hge hle hvisit =>
    exact Sound.vec hpos hmax (hlow l i _ hpos hmax hge hvisit (ne_nil_of_mem ht)) hle hvisit

theorem setVec_at (base : Base c Timer) (level slot : ℕ) (timers loose : List Timer) :
    ({ base with tv := setVec base.tv level slot timers } : Base c Timer).at loose =
      update (base.at loose) (.vec level slot) timers := by
  funext p
  cases p with
  | vec l i =>
    dsimp only [Base.at, setVec]
    by_cases hv : l = level ∧ i = slot
    · obtain ⟨rfl, rfl⟩ := hv
      rw [update_self, if_pos ⟨rfl, rfl⟩]
    · rw [update_of_ne (fun hp => hv (Place.vec.inj hp)), if_neg hv, Base.at]
  | work | loose => rw [update_of_ne (fun hp => by cases hp), Base.at, Base.at]

theorem at_loose (base : Base c Timer) (loose loose' : List Timer) :
    base.at loose' = update (base.at loose) .loose loose' := by
  funext p
  cases p with
  | vec | work => rw [update_of_ne (fun hp => by cases hp), Base.at, Base.at]
  | loose => rw [update_self, Base.at]

theorem mem_setVec_nil {tv : ℕ → ℕ → List Timer} {i : ℕ} :
    t ∈ setVec tv level slot [] l i ↔ ¬(l = level ∧ i = slot) ∧ t ∈ tv l i := by
  rw [setVec]
  split_ifs with hv
  · exact iff_of_false not_mem_nil (fun ht => ht.1 hv)
  · exact (and_iff_right hv).symm

theorem Inv.not_mem_of_loose (h : Inv n low due (t :: loose) base) (p : Place) :
    t ∉ base.at loose p := by
  have hunique := fun q hq => h.placed.unique q .loose t hq mem_cons_self
  cases p with
  | vec l i => exact fun ht => by cases hunique (.vec l i) ht
  | work => exact fun ht => by cases hunique .work ht
  | loose => exact (nodup_cons.mp (h.placed.nodup .loose)).1

/-- A list is taken out of a vector. -/
theorem Inv.takeList (h : Inv n low due [] base) (hlevel : level ≠ 0) :
    Inv n low due (base.tv level slot) { base with tv := setVec base.tv level slot [] } := by
  have hat : ({ base with tv := setVec base.tv level slot [] } : Base c Timer).at
      (base.tv level slot) = update (update (base.at []) (.vec level slot) [])
        .loose (base.at [] (.vec level slot)) := by
    rw [at_loose _ [], setVec_at]
    rfl
  refine ⟨h.time, ?_, ?_, ?_, h.work, ?_, fun t _ => h.pending t not_mem_nil⟩
  · rw [hat]
    exact h.placed.move _ _
  · intro t k hk
    rw [hat]
    obtain ⟨p, hp⟩ := h.located t k hk
    by_cases hvec : p = .vec level slot
    · subst hvec
      exact ⟨.loose, Placed.mem_move.mpr (by rwa [if_pos rfl])⟩
    · have hloose : p ≠ .loose := fun hpl => by
        subst hpl
        exact absurd hp not_mem_nil
      exact ⟨p, Placed.mem_move.mpr (by rw [if_neg hloose]; exact ⟨hvec, hp⟩)⟩
  · exact fun l i t ht => h.vec l i t (mem_setVec_nil.mp ht).2
  · intro t ht
    obtain ⟨k, hk, -, hahead⟩ := h.vec level slot t ht
    exact ⟨k, hk, Or.inl (hahead hlevel)⟩

/-- The next iteration that may look at the lists of a vector, when the vectors up to `level` have
been dealt with in iteration `n`. -/
def passed (n level : ℕ) : ℕ → ℕ := fun l => if l ≤ level then n + 1 else n

theorem passed_of_le (h : l ≤ level) : passed n level l = n + 1 := if_pos h

theorem passed_of_lt (h : level < l) : passed n level l = n :=
  if_neg (not_le.mpr h)

theorem passed_le (n level l : ℕ) : passed n level l ≤ n + 1 := by
  rcases lt_or_ge level l with h | h
  · rw [passed_of_lt h]
    exact le_succ n
  · rw [passed_of_le h]

theorem Inv.index_eq (h : Inv n low due loose base) (hlevel : level ≤ 3) :
    index base level = n / 2 ^ c.shift (level + 1) % 2 ^ c.tvnBits := by
  have hfits := c.fits
  have hword := c.word
  have hmul : level * c.tvnBits ≤ 3 * c.tvnBits := mul_le_mul_right _ hlevel
  rw [index, h.time, bits_eq (by omega)]
  rfl

/-- No list of a vector is looked at in the iteration, nor one of the vectors above it. -/
theorem Inv.skip (h : Inv n (passed n level) due [] base)
    (hnot : ¬2 ^ c.shift (level + 1) ∣ n) : Inv n (passed n 4) due [] base := by
  refine h.raise fun l i m hpos hmax hlow hvisit _ => ?_
  rw [passed_of_le hmax]
  rcases lt_or_ge level l with hl | hl
  · rw [passed_of_lt hl] at hlow
    refine lt_of_le_of_ne hlow ?_
    rintro rfl
    have hshift : c.shift (level + 1) ≤ c.shift l :=
      Nat.add_le_add_left (Nat.mul_le_mul_right _ (Nat.sub_le_sub_right hl 1)) _
    exact hnot ((pow_dvd_pow 2 hshift).trans hvisit.1)
  · rwa [passed_of_le hl] at hlow

theorem not_dvd_of_mod_ne_zero {s v : ℕ} (h : n / 2 ^ s % 2 ^ v ≠ 0) : ¬2 ^ (s + v) ∣ n := by
  rintro ⟨q, rfl⟩
  refine h ?_
  rw [Nat.pow_add, Nat.mul_assoc, Nat.mul_div_cancel_left _ (Nat.two_pow_pos s), mul_mod_right]

/-- The chain of vectors ends at the first index that is not zero. -/
theorem Inv.skip_of_index (h : Inv n (passed n (level + 1)) due [] base) (hlevel : level ≤ 3)
    (hindex : index base level ≠ 0) : Inv n (passed n 4) due [] base := by
  refine h.skip ?_
  rw [h.index_eq hlevel] at hindex
  have hshift : c.shift (level + 2) = c.shift (level + 1) + c.tvnBits := by
    rw [Config.shift, Config.shift, Nat.add_assoc, ← Nat.succ_mul]
    rfl
  rw [hshift]
  exact not_dvd_of_mod_ne_zero hindex

variable [DecidableEq Timer]

/-- **A timer is put into a vector.** -/
theorem Inv.add (h : Inv n low due (t :: loose) base) (hlow : ∀ l, low l ≤ n + 1) :
    Inv n low due loose (internalAddTimer base t) := by
  obtain ⟨k, hk, hready⟩ := h.ready t mem_cons_self
  have htime := h.time
  generalize hv : place c base.timerJiffies (base.expires t) = v
  have hperm : (base.tv v.1 v.2 ++ [t]).Perm (t :: base.at loose (.vec v.1 v.2)) :=
    perm_append_singleton _ _
  have hat : (internalAddTimer base t).at loose =
      update (base.at loose) (.vec v.1 v.2) (base.tv v.1 v.2 ++ [t]) := by
    rw [← setVec_at, ← hv]
    rfl
  have hplaced : Placed (base.at loose) := by
    refine h.placed.mono fun p => ?_
    cases p with
    | vec | work => exact List.Sublist.refl _
    | loose => exact sublist_cons_self _ _
  refine ⟨h.time, ?_, ?_, ?_, h.work, fun x hx => h.ready x (mem_cons_of_mem _ hx), ?_⟩
  · rw [hat]
    exact hplaced.push h.not_mem_of_loose hperm
  · intro x k' hk'
    rw [hat]
    obtain ⟨p, hp⟩ := h.located x k' hk'
    by_cases hx : x = t
    · exact ⟨.vec v.1 v.2, (Placed.mem_push hperm).mpr (Or.inr ⟨hx, rfl⟩)⟩
    · refine ⟨p, (Placed.mem_push hperm).mpr (Or.inl ?_)⟩
      cases p with
      | vec | work => exact hp
      | loose => exact (mem_cons.mp hp).resolve_left hx
  · intro l i x hx
    have hx' : x ∈ (internalAddTimer base t).at loose (.vec l i) := hx
    rw [hat, Placed.mem_push hperm] at hx'
    rcases hx' with hold | ⟨rfl, hp⟩
    · exact h.vec l i x hold
    · obtain ⟨rfl, rfl⟩ := Place.vec.inj hp
      rw [← hv, htime]
      refine ⟨k, hk, hready.place_sound.mono (hlow _), ?_⟩
      rcases hready with hahead | ⟨hneg, -⟩
      · exact fun _ => hahead
      · rw [place_of_neg hneg]
        exact fun hne => absurd rfl hne
  · intro x hx
    rw [internalAddTimer]
    by_cases hxt : x = t
    · subst hxt
      rw [hk]
      exact iff_of_true (update_self _ _ _) rfl
    · dsimp only
      rw [update_of_ne hxt]
      exact h.pending x (fun hmem => (mem_cons.mp hmem).elim hxt hx)

theorem Inv.addAll {timers : List Timer} (hlow : ∀ l, low l ≤ n + 1) {base : Base c Timer}
    (h : Inv n low due timers base) : Inv n low due [] (timers.foldl internalAddTimer base) := by
  induction timers generalizing base with
  | nil => exact h
  | cons t timers ih => exact ih (h.add hlow)

/-- **A list is moved on.** -/
theorem Inv.cascade (h : Inv n (passed n level) due [] base) (hlevel : level ≤ 3) :
    Inv n (passed n (level + 1)) due [] (cascade base (level + 1) (index base level)) := by
  refine Inv.addAll (passed_le n _) ((h.takeList (succ_ne_zero level)).raise ?_)
  intro l i m hpos hmax hlow hvisit hne
  rcases Nat.lt_trichotomy l (level + 1) with hl | rfl | hl
  · rw [passed_of_le (le_of_lt_succ hl)] at hlow
    rwa [passed_of_le (le_of_lt hl)]
  · rw [passed_of_lt (lt_succ_self level)] at hlow
    rw [passed_of_le le_rfl]
    -- iteration `n` looks at no other list of the vector
    refine lt_of_le_of_ne hlow ?_
    rintro rfl
    refine hne ?_
    dsimp only [setVec]
    rw [if_pos ⟨rfl, by rw [h.index_eq hlevel, hvisit.2]⟩]
  · rw [passed_of_lt (lt_of_succ_lt hl)] at hlow
    rwa [passed_of_lt hl]

theorem Inv.cascadeTimers (h : Inv n (fun _ => n) due [] base) :
    Inv n (passed n 4) due [] (cascadeTimers base) := by
  have h0 : Inv n (passed n 0) due [] base :=
    h.raise fun l i m hpos _ hlow _ _ => by rwa [passed_of_lt hpos]
  rw [TimerWheel.cascadeTimers]
  by_cases hroot : rootIndex base ≠ 0
  · rw [if_pos hroot]
    rw [rootIndex, h.time, rootBits_eq] at hroot
    refine h0.skip fun hdvd => hroot (mod_eq_zero_of_dvd ?_)
    rwa [Config.shift, Nat.sub_self, Nat.zero_mul, Nat.add_zero] at hdvd
  rw [if_neg hroot]
  have h1 := h0.cascade (by decide)
  generalize TimerWheel.cascade base 1 (index base 0) = base1 at h1 ⊢
  by_cases hi1 : index base1 0 ≠ 0
  · rw [if_pos hi1]
    exact h1.skip_of_index (by decide) hi1
  rw [if_neg hi1]
  have h2 := h1.cascade (by decide)
  generalize TimerWheel.cascade base1 2 (index base1 1) = base2 at h2 ⊢
  by_cases hi2 : index base2 1 ≠ 0
  · rw [if_pos hi2]
    exact h2.skip_of_index (by decide) hi2
  rw [if_neg hi2]
  have h3 := h2.cascade (by decide)
  generalize TimerWheel.cascade base2 3 (index base2 2) = base3 at h3 ⊢
  by_cases hi3 : index base3 2 ≠ 0
  · rw [if_pos hi3]
    exact h3.skip_of_index (by decide) hi3
  rw [if_neg hi3]
  exact h3.cascade le_rfl

end Steps

end Gp2xKernel.TimerWheel
