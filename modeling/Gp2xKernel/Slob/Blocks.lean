import Gp2xKernel.Library.Tiling
import Gp2xKernel.Slob.Basic

/-!
# Lists of free blocks

The free units of a page encode a list of blocks.  A block is read and written through the functions
of the encoding, which touch no unit outside of it.

## Main definitions

* `Cell`: the units of a block say its size and where the next block is
* `Encoded`: the blocks of a list are linked in memory
* `Ordered`: the blocks are in the order of their addresses, and do not overlap

## Main results

* `slobUnits_eq`, `slobNext_eq`, `slobLast_eq`: reading a block
* `cell_setSlob`, `setSlob_of_not_mem`: writing a block
* `Encoded.split`: the head of a block is split off
* `Encoded.relink`: the last block of a list gets another successor
-/

namespace Gp2xKernel.Slob

open Library Function Nat

variable {c : Config} {mem : ℕ → ℤ}

/-! ## Sizes -/

namespace Config

variable (c : Config)

theorem slobUnit_cases : c.slobUnit = 2 ∧ c.pageSize ≤ 32767 * 2 ∨ c.slobUnit = 4 := by
  rw [slobUnit]
  split_ifs with h
  · exact Or.inl ⟨rfl, h⟩
  · exact Or.inr rfl

theorem slobUnit_pos : 0 < c.slobUnit := by
  rcases c.slobUnit_cases with ⟨h, -⟩ | h <;> omega

theorem slobUnits_pos {size : ℕ} (h : 0 < size) : 0 < c.slobUnits size := by
  have hpos := c.slobUnit_pos
  exact div_pos (by omega) hpos

theorem four_dvd_pageSize : 4 ∣ c.pageSize := pow_dvd_pow 2 c.two_le

theorem pageUnits_mul : c.pageUnits * c.slobUnit = c.pageSize := by
  have hdvd := c.four_dvd_pageSize
  rw [pageUnits, slobUnits]
  rcases c.slobUnit_cases with ⟨h, -⟩ | h <;> rw [h] <;> omega

theorem pageUnits_pos : 0 < c.pageUnits := by
  have hmul := c.pageUnits_mul
  have hpos : 0 < c.pageSize := Nat.two_pow_pos c.pageShift
  exact Nat.pos_of_mul_pos_right (hmul ▸ hpos)

/-- A `slobidx_t` holds the number of the units of a page. -/
theorem pageUnits_lt : 2 * c.pageUnits < 2 ^ (8 * c.slobUnit) := by
  have hmul := c.pageUnits_mul
  rcases c.slobUnit_cases with ⟨h, hle⟩ | h
  · rw [h] at hmul ⊢
    omega
  · have hle : c.pageSize ≤ 2 ^ 32 := Nat.pow_le_pow_right (by omega) c.le
    rw [h] at hmul ⊢
    omega

theorem slobidx_eq {x : ℤ} (hlo : -c.pageUnits ≤ x) (hhi : x ≤ c.pageUnits) : c.slobidx x = x := by
  have hlt := c.pageUnits_lt
  exact Int.bmod_eq_of_le (by omega) (by omega)

theorem base_eq {pg s : ℕ} (hlo : pg * c.pageUnits ≤ s) (hhi : s < pg * c.pageUnits + c.pageUnits) :
    c.base s = pg * c.pageUnits := by
  have hpg : s / c.pageUnits = pg := by
    refine Nat.div_eq_of_lt_le hlo ?_
    rwa [Nat.succ_mul]
  rw [base, hpg]

end Config

/-! ## One block -/

/-- The units of a block of `n` units at `s`, in a page that starts at `base`, say its size and that
the next block is at `next`. -/
def Cell (mem : ℕ → ℤ) (base s n next : ℕ) : Prop :=
  (1 < n → mem s = n ∧ mem (s + 1) = (next : ℤ) - base) ∧ (n = 1 → mem s = -((next : ℤ) - base))

variable {mem' : ℕ → ℤ} {base s n next stop lo hi u pg m : ℕ} {bs cs : List Block} {b : Block}

theorem Cell.congr (h : Cell mem base s n next)
    (hmem : ∀ u, s ≤ u → u < s + n → mem' u = mem u) : Cell mem' base s n next := by
  constructor
  · intro hlt
    rw [hmem s le_rfl (by omega), hmem (s + 1) (by omega) (by omega)]
    exact h.1 hlt
  · intro hone
    rw [hmem s le_rfl (by omega)]
    exact h.2 hone

section

variable {pg s n next : ℕ}

theorem slobUnits_eq (h : Cell mem (pg * c.pageUnits) s n next) (hn : 0 < n)
    (hnext : pg * c.pageUnits < next) : slobUnits mem s = n := by
  rw [slobUnits]
  rcases lt_or_ge 1 n with hlt | hle
  · rw [(h.1 hlt).1, if_pos (by omega)]
  · obtain rfl : n = 1 := by omega
    rw [h.2 rfl, if_neg (by omega)]
    rfl

variable (hn : 0 < n) (hlo : pg * c.pageUnits ≤ s) (hhi : s < pg * c.pageUnits + c.pageUnits)
  (hnext : pg * c.pageUnits < next)
include hn hlo hhi hnext

theorem slobNext_eq (h : Cell mem (pg * c.pageUnits) s n next) : slobNext c mem s = next := by
  rw [slobNext, c.base_eq hlo hhi]
  rcases lt_or_ge 1 n with hlt | hle
  · rw [(h.1 hlt).1, (h.1 hlt).2]
    omega
  · obtain rfl : n = 1 := by omega
    rw [h.2 rfl]
    omega

variable (hend : next ≤ pg * c.pageUnits + c.pageUnits)
include hend

theorem slobLast_eq (h : Cell mem (pg * c.pageUnits) s n next) :
    slobLast c mem s = true ↔ next = pg * c.pageUnits + c.pageUnits := by
  rw [slobLast, slobNext_eq hn hlo hhi hnext h, beq_iff_eq]
  constructor
  · intro hmod
    by_contra hne
    have hrest : next % c.pageUnits = next - pg * c.pageUnits := by
      obtain ⟨r, rfl⟩ := Nat.exists_eq_add_of_lt hnext
      rw [add_assoc, mul_comm pg, mul_add_mod, mod_eq_of_lt (by omega)]
      omega
    omega
  · rintro rfl
    rw [← succ_mul, mul_mod_left]

theorem cell_setSlob (hnN : n ≤ c.pageUnits) :
    Cell (setSlob c mem s n next) (pg * c.pageUnits) s n next := by
  have hoff :
      c.slobidx ((next : ℤ) - (pg * c.pageUnits : ℕ)) = (next : ℤ) - (pg * c.pageUnits : ℕ) :=
    c.slobidx_eq (by omega) (by omega)
  have hneg : c.slobidx (-((next : ℤ) - (pg * c.pageUnits : ℕ))) =
      -((next : ℤ) - (pg * c.pageUnits : ℕ)) := c.slobidx_eq (by omega) (by omega)
  rw [setSlob, c.base_eq hlo hhi, hoff, hneg, c.slobidx_eq (by omega) (by omega)]
  constructor
  · intro hlt
    rw [if_pos (by omega)]
    refine ⟨?_, update_self ..⟩
    rw [update_of_ne (by omega), update_self]
  · rintro rfl
    rw [if_neg (by omega), update_self]

end

theorem setSlob_of_not_mem {u : ℕ} (hu : ¬(s ≤ u ∧ u < s + n)) (hn : 0 < n) :
    setSlob c mem s n next u = mem u := by
  rw [setSlob]
  split_ifs with hlt
  · rw [update_of_ne (by omega), update_of_ne (by omega)]
  · rw [update_of_ne (by omega)]

/-! ## Lists of blocks -/

/-- Where a list of blocks starts, if it ends at `stop`. -/
def first : List Block → ℕ → ℕ
  | [], stop => stop
  | b :: _, _ => b.1

/-- The blocks are linked, each to the next, and the last to `stop`. -/
def Encoded (mem : ℕ → ℤ) (base : ℕ) : List Block → ℕ → Prop
  | [], _ => True
  | b :: bs, stop => Cell mem base b.1 b.2 (first bs stop) ∧ Encoded mem base bs stop

/-- The blocks follow each other from `lo` to `hi`. -/
def Ordered : ℕ → ℕ → List Block → Prop
  | lo, hi, [] => lo ≤ hi
  | lo, hi, b :: bs => lo ≤ b.1 ∧ 0 < b.2 ∧ Ordered (b.1 + b.2) hi bs

theorem first_append (bs cs : List Block) (stop : ℕ) :
    first (bs ++ cs) stop = first bs (first cs stop) := by
  cases bs <;> rfl

theorem encoded_append :
    Encoded mem base (bs ++ cs) stop ↔
      Encoded mem base bs (first cs stop) ∧ Encoded mem base cs stop := by
  induction bs with
  | nil => rw [List.nil_append, Encoded, true_and]
  | cons b bs ih =>
    rw [List.cons_append, Encoded, ih, Encoded, first_append, and_assoc]

theorem ordered_append :
    Ordered lo hi (bs ++ b :: cs) ↔ Ordered lo b.1 bs ∧ 0 < b.2 ∧ Ordered (b.1 + b.2) hi cs := by
  induction bs generalizing lo with
  | nil => rfl
  | cons d bs ih => rw [List.cons_append, Ordered, ih, Ordered, and_assoc, and_assoc]

theorem Ordered.mono {lo' hi' : ℕ} (h : Ordered lo hi bs) (hlo : lo' ≤ lo)
    (hhi : hi ≤ hi') : Ordered lo' hi' bs := by
  induction bs generalizing lo lo' with
  | nil => exact (hlo.trans h).trans hhi
  | cons b bs ih => exact ⟨hlo.trans h.1, h.2.1, ih h.2.2 le_rfl⟩

theorem Ordered.le (h : Ordered lo hi bs) : lo ≤ hi := by
  induction bs generalizing lo with
  | nil => exact h
  | cons b bs ih =>
    have := ih h.2.2
    have := h.1
    omega

theorem Ordered.append {mid : ℕ} (hbs : Ordered lo mid bs)
    (hcs : Ordered mid hi cs) : Ordered lo hi (bs ++ cs) := by
  induction bs generalizing lo with
  | nil => exact hcs.mono hbs le_rfl
  | cons b bs ih => exact ⟨hbs.1, hbs.2.1, ih hbs.2.2⟩

section

variable (h : Ordered lo hi bs)
include h

theorem Ordered.size_le : lo + size bs ≤ hi := by
  induction bs generalizing lo with
  | nil => exact h
  | cons b bs ih =>
    have hlo := h.1
    have hrest := ih h.2.2
    rw [size_cons]
    omega

theorem Ordered.length_le : bs.length ≤ size bs := by
  induction bs generalizing lo with
  | nil => exact le_rfl
  | cons b bs ih =>
    have hpos := h.2.1
    have hrest := ih h.2.2
    rw [size_cons, List.length_cons]
    omega

theorem Ordered.ne_nil_iff : bs ≠ [] ↔ size bs ≠ 0 := by
  have hlen := h.length_le
  constructor
  · intro hne hzero
    exact hne (List.eq_nil_of_length_eq_zero (by omega))
  · rintro hne rfl
    exact hne size_nil

/-- No unit outside of the bounds is in a block. -/
theorem Ordered.cover_eq_zero (hu : u < lo ∨ hi ≤ u) : cover bs u = 0 := by
  induction bs generalizing lo with
  | nil => exact cover_nil u
  | cons b bs ih =>
    have hlo := h.1
    have hhi := h.2.2.le
    rw [cover_cons, ih h.2.2 (by omega), covers_eq_zero (by omega)]

theorem Ordered.first_le : lo ≤ first bs hi ∧ first bs hi ≤ hi := by
  cases bs with
  | nil => exact ⟨h, le_rfl⟩
  | cons b bs =>
    refine ⟨h.1, ?_⟩
    have := h.2.2.le
    show b.1 ≤ hi
    omega

theorem Ordered.of_mem (hb : b ∈ bs) : lo ≤ b.1 ∧ 0 < b.2 ∧ b.1 + b.2 ≤ hi := by
  obtain ⟨xs, ys, rfl⟩ := List.append_of_mem hb
  obtain ⟨hxs, hpos, hys⟩ := ordered_append.mp h
  exact ⟨hxs.le, hpos, hys.le⟩

end

theorem Encoded.congr_of_cover (h : Encoded mem base bs stop)
    (hmem : ∀ u, 0 < cover bs u → mem' u = mem u) :
    Encoded mem' base bs stop := by
  induction bs with
  | nil => trivial
  | cons b bs ih =>
    refine ⟨h.1.congr fun u hlo hhi => hmem u ?_, ih h.2 fun u hu => hmem u ?_⟩
    · rw [cover_cons, covers_eq_one hlo hhi]
      omega
    · rw [cover_cons]
      omega

theorem Encoded.congr (h : Encoded mem base bs stop) (ho : Ordered lo hi bs)
    (hmem : ∀ u, lo ≤ u → u < hi → mem' u = mem u) : Encoded mem' base bs stop := by
  refine h.congr_of_cover fun u hu => ?_
  by_contra hne
  have hout : u < lo ∨ hi ≤ u := by
    by_contra hin
    exact hne (hmem u (by omega) (by omega))
  rw [ho.cover_eq_zero hout] at hu
  exact lt_irrefl 0 hu

theorem Encoded.block
    (h : Encoded mem (pg * c.pageUnits) (bs ++ (s, n) :: cs) (pg * c.pageUnits + c.pageUnits))
    (ho : Ordered (pg * c.pageUnits) (pg * c.pageUnits + c.pageUnits) (bs ++ (s, n) :: cs)) :
    slobUnits mem s = n ∧ slobNext c mem s = first cs (pg * c.pageUnits + c.pageUnits) ∧
      (slobLast c mem s = true ↔ first cs (pg * c.pageUnits + c.pageUnits) =
        pg * c.pageUnits + c.pageUnits) := by
  obtain ⟨hbs, hn, hcs⟩ := ordered_append.mp ho
  have hcell := (encoded_append.mp h).2.1
  have hlo := hbs.le
  obtain ⟨hflo, hfhi⟩ := hcs.first_le
  exact ⟨slobUnits_eq hcell hn (by omega), slobNext_eq hn hlo (by omega) (by omega) hcell,
    slobLast_eq hn hlo (by omega) (by omega) hfhi hcell⟩

/-- The last block gets another successor. -/
theorem Encoded.relink {p : Block} (h : Encoded mem (pg * c.pageUnits) (bs ++ [p]) stop)
    (ho : Ordered (pg * c.pageUnits) lo (bs ++ [p])) (hlo : lo ≤ pg * c.pageUnits + c.pageUnits)
    {target : ℕ} (ht : pg * c.pageUnits < target) (ht' : target ≤ pg * c.pageUnits + c.pageUnits) :
    Encoded (setSlob c mem p.1 p.2 target) (pg * c.pageUnits) (bs ++ [p]) target := by
  obtain ⟨hbs, hpos, hp⟩ := ordered_append.mp ho
  have hplo := hbs.le
  have hphi : p.1 + p.2 ≤ lo := hp
  rw [encoded_append] at h ⊢
  refine ⟨h.1.congr hbs fun u hu hu' => setSlob_of_not_mem (by omega) hpos, ?_, trivial⟩
  exact cell_setSlob hpos hplo (by omega) ht ht' (by omega)

/-- Splitting a block writes to no unit outside of it. -/
theorem fragmentHead_of_not_mem (h : Cell mem (pg * c.pageUnits) s (m + n) next) (hm : 0 < m)
    (hn : 0 < n) (hnext : pg * c.pageUnits < next) (hu : ¬(s ≤ u ∧ u < s + (m + n))) :
    fragmentHead c mem s m u = mem u := by
  have hunits : slobUnits mem s = (m + n : ℕ) := slobUnits_eq h (by omega) hnext
  have hsize : slobUnits mem s - m = (n : ℤ) := by omega
  rw [fragmentHead, hsize, setSlob_of_not_mem (by omega) hm, setSlob_of_not_mem (by omega) hn]

theorem Encoded.split
    (h : Encoded mem (pg * c.pageUnits) (bs ++ (s, m + n) :: cs) (pg * c.pageUnits + c.pageUnits))
    (ho : Ordered (pg * c.pageUnits) (pg * c.pageUnits + c.pageUnits) (bs ++ (s, m + n) :: cs))
    (hm : 0 < m) (hn : 0 < n) :
    Encoded (fragmentHead c mem s m) (pg * c.pageUnits) (bs ++ (s, m) :: (s + m, n) :: cs)
      (pg * c.pageUnits + c.pageUnits) := by
  obtain ⟨hbs, -, hcs⟩ := ordered_append.mp ho
  have hslo := hbs.le
  obtain ⟨hflo, hfhi⟩ := hcs.first_le
  obtain ⟨henc, hcell, hrest⟩ := encoded_append.mp h
  obtain ⟨hunits, hnext, -⟩ := h.block ho
  have hsize : slobUnits mem s - m = (n : ℤ) := by omega
  -- two cells are written; the others lie before and behind them
  have hout : ∀ u, ¬(s ≤ u ∧ u < s + (m + n)) → fragmentHead c mem s m u = mem u :=
    fun u hu => fragmentHead_of_not_mem hcell hm hn (by omega) hu
  rw [fragmentHead, hsize, hnext] at hout ⊢
  refine encoded_append.mpr ⟨henc.congr hbs fun u hlo hhi => hout u (by simp only at hhi; omega),
    ?_, ?_, ?_⟩
  · exact cell_setSlob hm hslo (by omega) (by omega : pg * c.pageUnits < s + m)
      (by omega : s + m ≤ pg * c.pageUnits + c.pageUnits) (by omega)
  · have hnew : Cell (setSlob c mem (s + m) n (first cs (pg * c.pageUnits + c.pageUnits)))
        (pg * c.pageUnits) (s + m) n (first cs (pg * c.pageUnits + c.pageUnits)) :=
      cell_setSlob hn (by omega) (by omega) (by omega) hfhi (by omega)
    exact hnew.congr fun u hlo hhi => setSlob_of_not_mem (by omega) hm
  · exact hrest.congr hcs fun u hlo hhi => hout u (by omega)

end Gp2xKernel.Slob
