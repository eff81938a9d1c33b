import Gp2xKernel.Library.Turns
import Gp2xKernel.Slob.Blocks

/-!
# Allocation from a page

`slob_page_alloc` takes units from one of the free blocks of a page, and leaves the rest of the
block free.  It writes to no unit that is not free.

## Main definitions

* `Points`: a page points to a list of free blocks
* `Taken`: units were taken from the free blocks of a page

## Main results

* `takeFront_spec`: the first units of a block are taken
* `slobPageAlloc_spec`: the search for a block with enough room
-/

namespace Gp2xKernel.Slob

open Library Function Nat List

variable {c : Config} {h : Heap} {pg : ℕ} {pre post : List Block} {s n k : ℕ}

/-- The first unit behind a page. -/
def Config.stop (c : Config) (pg : ℕ) : ℕ := pg * c.pageUnits + c.pageUnits

theorem Config.stop_eq (c : Config) (pg : ℕ) : c.stop pg = pg * c.pageUnits + c.pageUnits := rfl

/-- The page points to a list of blocks that are linked, the last to `stop`. -/
structure Points (c : Config) (h : Heap) (pg : ℕ) (bs : List Block) (stop : ℕ) : Prop where
  free : (h.pages pg).free = first bs stop
  encoded : Encoded h.mem (pg * c.pageUnits) bs stop

variable {bs cs bs' : List Block} {stop b : ℕ} {m : Heap}

theorem points_append :
    Points c h pg (bs ++ cs) stop ↔
      Points c h pg bs (first cs stop) ∧ Encoded h.mem (pg * c.pageUnits) cs stop := by
  constructor
  · rintro ⟨hfree, henc⟩
    obtain ⟨hbs, hcs⟩ := encoded_append.mp henc
    exact ⟨⟨hfree.trans (first_append _ _ _), hbs⟩, hcs⟩
  · rintro ⟨⟨hfree, hbs⟩, hcs⟩
    exact ⟨hfree.trans (first_append _ _ _).symm, encoded_append.mpr ⟨hbs, hcs⟩⟩

theorem not_mem_of_cover {b : Block} (hb : b ∈ bs) {u : ℕ} (hu : cover bs u = 0) :
    ¬(b.1 ≤ u ∧ u < b.1 + b.2) := by
  rintro ⟨hlo, hhi⟩
  have hle := covers_le_cover hb u
  rw [covers_eq_one hlo hhi, hu] at hle
  exact absurd hle (by decide)

/-- Before a block that is the first, the page has the link to it. -/
def prevOf (pre : List Block) : Option ℕ := pre.getLast?.map Prod.fst

theorem prevOf_append (pre : List Block) (b : Block) : prevOf (pre ++ [b]) = some b.1 := by
  rw [prevOf, getLast?_concat]
  rfl

/-- A heap that differs from another in the link to a block. -/
structure Relinked (c : Config) (h : Heap) (pg : ℕ) (pre : List Block) (target : ℕ) (h' : Heap) :
    Prop where
  points : Points c h' pg pre target
  slob : (h'.pages pg).slob = (h.pages pg).slob
  units : (h'.pages pg).units = (h.pages pg).units
  onList : (h'.pages pg).onList = (h.pages pg).onList
  others : ∀ pg', pg' ≠ pg → h'.pages pg' = h.pages pg'
  list : h'.freeSlobPages = h.freeSlobPages
  mem : ∀ u, cover pre u = 0 → h'.mem u = h.mem u

/-- The link to a block is changed. -/
theorem link_spec {lo target : ℕ} (hp : Points c h pg pre stop)
    (ho : Ordered (pg * c.pageUnits) lo pre) (hlo : lo ≤ c.stop pg) (hstop : lo ≤ stop)
    (ht : lo ≤ target) (ht' : target ≤ c.stop pg) :
    Relinked c h pg pre target (h.link c pg (prevOf pre) target) := by
  rcases eq_nil_or_concat pre with rfl | ⟨bs, p, rfl⟩
  · have hpage : (h.link c pg (prevOf []) target).pages pg = { h.pages pg with free := target } :=
      update_self ..
    refine ⟨⟨by rw [hpage]; rfl, trivial⟩, ?_, ?_, ?_, fun pg' hne => ?_, rfl, fun u _ => rfl⟩
    · rw [hpage]
    · rw [hpage]
    · rw [hpage]
    · exact update_of_ne hne _ _
  · rw [concat_eq_append] at hp ho ⊢
    obtain ⟨hbs, hpos, hend⟩ := ordered_append.mp ho
    have hphi : p.1 + p.2 ≤ lo := hend
    have hplo := hbs.le
    have hcell := (encoded_append.mp hp.encoded).2.1
    have hunits : slobUnits h.mem p.1 = p.2 := slobUnits_eq hcell hpos (by show _ < stop; omega)
    have hfirst : first (bs ++ [p]) target = (h.pages pg).free := by
      rw [hp.free, first_append, first_append]
      rfl
    rw [prevOf_append]
    show Relinked c h pg (bs ++ [p]) target
      { h with mem := setSlob c h.mem p.1 (slobUnits h.mem p.1) target }
    rw [hunits]
    refine ⟨⟨hfirst.symm, hp.encoded.relink ho hlo (by omega) ht'⟩, rfl, rfl, rfl,
      fun pg' _ => rfl, rfl,
      fun u hu => ?_⟩
    exact setSlob_of_not_mem (not_mem_of_cover (by simp) hu) hpos

/-- What is left of a block of `n` units at `s` when its first `k` units are taken. -/
def remainder (s n k : ℕ) : List Block := if n = k then [] else [(s + k, n - k)]

theorem cover_remainder (hk : k ≤ n) (u : ℕ) :
    cover (remainder s n k) u + covers (s, k) u = covers (s, n) u := by
  rw [remainder]
  split_ifs with heq
  · rw [heq, cover_nil, zero_add]
  · obtain ⟨m, rfl⟩ := Nat.exists_eq_add_of_le hk
    rw [cover_cons, cover_nil, Nat.add_sub_cancel_left, covers_split]
    omega

theorem size_remainder (hk : k ≤ n) : size (remainder s n k) + k = n := by
  rw [remainder]
  split_ifs with heq
  · rw [size_nil, heq, zero_add]
  · rw [size_cons, size_nil]
    omega

theorem ordered_remainder {hi : ℕ} (hk : k ≤ n) (hpost : Ordered (s + n) hi post) :
    Ordered s hi (remainder s n k ++ post) := by
  rw [remainder]
  split_ifs with heq
  · exact hpost.mono (le_add_right s n) le_rfl
  · refine ⟨le_add_right s k, by show 0 < n - k; omega, ?_⟩
    rwa [Nat.add_assoc, Nat.add_sub_cancel' hk]

/-- Units were taken from the free blocks of a page, from the block `b` of `k` units: the free
blocks are now `bs'`. -/
structure Taken (c : Config) (h : Heap) (pg : ℕ) (bs : List Block) (b k : ℕ) (h' : Heap)
    (bs' : List Block) : Prop where
  points : Points c h' pg bs' (c.stop pg)
  ordered : Ordered (pg * c.pageUnits) (c.stop pg) bs'
  cover : ∀ u, cover bs' u + covers (b, k) u = cover bs u
  size : size bs' + k = size bs
  slob : (h'.pages pg).slob = (h.pages pg).slob
  units : (h'.pages pg).units = (h.pages pg).units - k
  onList : (h'.pages pg).onList =
    if (h.pages pg).units = k then false else (h.pages pg).onList
  list : h'.freeSlobPages =
    if (h.pages pg).units = k then h.freeSlobPages.erase pg else h.freeSlobPages
  others : ∀ pg', pg' ≠ pg → h'.pages pg' = h.pages pg'
  mem : ∀ u, Library.cover bs u = 0 → h'.mem u = h.mem u

/-- The counter of a page is set, and a page without free units is taken off the list. -/
theorem taken_useUnits (hm : Relinked c h pg bs' (c.stop pg) m)
    (ho : Ordered (pg * c.pageUnits) (c.stop pg) bs')
    (hcover : ∀ u, cover bs' u + covers (b, k) u = cover bs u) (hsize : size bs' + k = size bs)
    (hlo : (k : ℤ) ≤ (h.pages pg).units) (hhi : (h.pages pg).units ≤ c.pageUnits) :
    Taken c h pg bs b k (useUnits c m pg k) bs' := by
  obtain ⟨hpoints, hslob, hunits, honList, hothers, hlist, hmem⟩ := hm
  have hmem' : ∀ u, cover bs u = 0 → m.mem u = h.mem u := fun u hu => hmem u (by
    have := hcover u
    omega)
  have hidx : c.slobidx ((m.pages pg).units - k) = (h.pages pg).units - k := by
    rw [hunits]
    exact c.slobidx_eq (by omega) (by omega)
  have hpage : (m.setPage pg { m.pages pg with units := (h.pages pg).units - k }).pages pg =
      { m.pages pg with units := (h.pages pg).units - k } := update_self ..
  have hother : ∀ pg', pg' ≠ pg →
      (m.setPage pg { m.pages pg with units := (h.pages pg).units - k }).pages pg' = h.pages pg' :=
    fun pg' hne => (update_of_ne hne _ _).trans (hothers pg' hne)
  obtain ⟨hused, hlist', hothers', hmemEq⟩ : (useUnits c m pg k).pages pg =
        { m.pages pg with
          units := (h.pages pg).units - k
          onList := if (h.pages pg).units = k then false else (m.pages pg).onList } ∧
      (useUnits c m pg k).freeSlobPages =
        (if (h.pages pg).units = k then m.freeSlobPages.erase pg else m.freeSlobPages) ∧
      (∀ pg', pg' ≠ pg → (useUnits c m pg k).pages pg' = h.pages pg') ∧
      (useUnits c m pg k).mem = m.mem := by
    rw [useUnits, hidx]
    by_cases hzero : (h.pages pg).units = k
    · rw [if_pos (by rw [hpage]; show (h.pages pg).units - k = 0; omega), if_pos hzero,
        if_pos hzero]
      refine ⟨?_, rfl, fun pg' hne => (update_of_ne hne _ _).trans (hother pg' hne), rfl⟩
      show update _ pg _ pg = _
      rw [update_self, hpage]
    · rw [if_neg (by rw [hpage]; show ¬(h.pages pg).units - k = 0; omega), if_neg hzero,
        if_neg hzero]
      exact ⟨hpage, rfl, hother, rfl⟩
  refine ⟨⟨?_, ?_⟩, ho, hcover, hsize, ?_, ?_, ?_, ?_, hothers', fun u hu => ?_⟩
  · rw [hused]
    exact hpoints.free
  · rw [hmemEq]
    exact hpoints.encoded
  · rw [hused]
    exact hslob
  · rw [hused]
  · rw [hused, ← honList]
  · rw [hlist', hlist]
  · rw [hmemEq]
    exact hmem' u hu

/-- **The first units of a block are taken.** -/
theorem takeFront_spec (hp : Points c h pg (pre ++ (s, n) :: post) (c.stop pg))
    (ho : Ordered (pg * c.pageUnits) (c.stop pg) (pre ++ (s, n) :: post)) (hk : 0 < k) (hkn : k ≤ n)
    (hlo : (k : ℤ) ≤ (h.pages pg).units) (hhi : (h.pages pg).units ≤ c.pageUnits) :
    Taken c h pg (pre ++ (s, n) :: post) s k (takeFront c h pg (prevOf pre) s k)
      (pre ++ (remainder s n k ++ post)) := by
  obtain ⟨hpre, hn, hpost⟩ := ordered_append.mp ho
  obtain ⟨hpp, -, hrest⟩ := points_append.mp hp
  obtain ⟨hunits, hnext, -⟩ := hp.encoded.block ho
  obtain ⟨hflo, hfhi⟩ := hpost.first_le
  have hslo := hpre.le
  have hstop := c.stop_eq pg
  have hcover : ∀ u, cover (pre ++ (remainder s n k ++ post)) u + covers (s, k) u =
      cover (pre ++ (s, n) :: post) u := by
    intro u
    have := cover_remainder (s := s) hkn u
    simp only [cover_append, cover_cons]
    omega
  have hsize : size (pre ++ (remainder s n k ++ post)) + k = size (pre ++ (s, n) :: post) := by
    have := size_remainder (s := s) hkn
    simp only [size_append, size_cons]
    omega
  have hrests : Ordered s (c.stop pg) (remainder s n k ++ post) := ordered_remainder hkn hpost
  -- the link to the block gets the block that is left, or else the next
  have hlink := link_spec hpp hpre (by omega) (le_refl s) hrests.first_le.1 hrests.first_le.2
  have hbefore : ∀ u, s ≤ u → cover pre u = 0 := fun u hu => hpre.cover_eq_zero (Or.inr hu)
  rw [takeFront, unlinkFront, hunits, hnext, ← hstop]
  by_cases heq : n = k
  · subst heq
    have hrem : remainder s n n = [] := if_pos rfl
    simp only [if_true, hrem, nil_append] at hcover hsize hlink hrests ⊢
    refine taken_useUnits { hlink with
        points := points_append.mpr ⟨hlink.points, hrest.congr hpost fun u hu _ => ?_⟩
        mem := fun u hu => ?_ } (hpre.append hrests) hcover hsize hlo hhi
    · exact hlink.mem u (hbefore u (by omega))
    · rw [cover_append] at hu
      exact hlink.mem u (by omega)
  · have hrem : remainder s n k = [(s + k, n - k)] := if_neg heq
    have havail : (n : ℤ) - k = (n - k : ℕ) := by omega
    simp only [hrem, cons_append, nil_append] at hcover hsize hlink hrests ⊢
    rw [if_neg (by omega), havail]
    have hout : ∀ u, ¬(s ≤ u ∧ u < s + n) → setSlob c (h.link c pg (prevOf pre) (s + k)).mem (s + k)
        (n - k : ℕ) (first post (c.stop pg)) u = (h.link c pg (prevOf pre) (s + k)).mem u :=
      fun u hu => setSlob_of_not_mem (by omega) (by omega)
    refine taken_useUnits { hlink with
        points := points_append.mpr ⟨⟨hlink.points.free, ?_⟩, ?_, ?_⟩
        mem := fun u hu => ?_ } (hpre.append hrests) hcover hsize hlo hhi
    · exact hlink.points.encoded.congr hpre fun u _ hu => hout u (by omega)
    · exact cell_setSlob (by omega) (by omega) (by omega) (by omega) hfhi (by omega)
    · refine hrest.congr hpost fun u hu _ => (hout u (by omega)).trans ?_
      exact hlink.mem u (hbefore u (by omega))
    · have hnot : ¬(s + k ≤ u ∧ u < s + k + (n - k)) :=
        not_mem_of_cover (b := (s + k, n - k)) (by simp) hu
      rw [cover_append] at hu
      exact (setSlob_of_not_mem hnot (by omega)).trans (hlink.mem u (by omega))

/-! ## The search for a block -/

/-- A block that a caller can ask for: any alignment is a power of two, or zero for none. -/
def Alignment (align : ℕ) : Prop := align = 0 ∨ ∃ i, align = 2 ^ i

/-- The block at `b` has the alignment. -/
def Aligned (c : Config) (b align : ℕ) : Prop := align = 0 ∨ align ∣ b * c.slobUnit

theorem aligned_waste {align : ℕ} (ha : Alignment align) :
    Aligned c (s + waste c s align) align := by
  rcases ha with rfl | ⟨i, rfl⟩
  · exact Or.inl rfl
  · right
    have hpos : 0 < 2 ^ i := Nat.two_pow_pos i
    have hupos := c.slobUnit_pos
    obtain ⟨a, hu⟩ : ∃ a, c.slobUnit = 2 ^ a := by
      rcases c.slobUnit_cases with ⟨h, -⟩ | h
      · exact ⟨1, h⟩
      · exact ⟨2, h⟩
    rw [waste, if_pos hpos.ne', Config.alignUnit]
    rcases le_total i a with hle | hle
    · -- every unit has the alignment
      obtain ⟨m, hm⟩ : 2 ^ i ∣ c.slobUnit := hu ▸ pow_dvd_pow 2 hle
      refine Dvd.dvd.mul_left ⟨m, hm⟩ _
    · obtain ⟨m, hm⟩ : c.slobUnit ∣ 2 ^ i := hu ▸ pow_dvd_pow 2 hle
      have hceil : s * c.slobUnit ≤ (s * c.slobUnit + 2 ^ i - 1) / 2 ^ i * 2 ^ i := by
        have hdiv := div_add_mod (s * c.slobUnit + 2 ^ i - 1) (2 ^ i)
        rw [mul_comm] at hdiv
        omega
      have hdvd : c.slobUnit ∣ (s * c.slobUnit + 2 ^ i - 1) / 2 ^ i * 2 ^ i :=
        Dvd.dvd.mul_left ⟨m, hm⟩ _
      rw [Nat.add_sub_cancel' ((Nat.le_div_iff_mul_le hupos).mpr hceil), Nat.div_mul_cancel hdvd]
      exact dvd_mul_left _ _

theorem taken_congr {h' : Heap} (ht : Taken c m pg cs b k h' bs')
    (hcover : ∀ u, cover cs u = cover bs u) (hsize : size cs = size bs) (hpages : m.pages = h.pages)
    (hlist : m.freeSlobPages = h.freeSlobPages) (hmem : ∀ u, cover bs u = 0 → m.mem u = h.mem u) :
    Taken c h pg bs b k h' bs' where
  points := ht.points
  ordered := ht.ordered
  cover u := (ht.cover u).trans (hcover u)
  size := ht.size.trans hsize
  slob := hpages ▸ ht.slob
  units := hpages ▸ ht.units
  onList := hpages ▸ ht.onList
  list := hlist ▸ hpages ▸ ht.list
  others := hpages ▸ ht.others
  mem u hu := (ht.mem u ((hcover u).trans hu)).trans (hmem u hu)

theorem takeBehind_spec {d : ℕ} (hp : Points c h pg (pre ++ (s, n) :: post) (c.stop pg))
    (ho : Ordered (pg * c.pageUnits) (c.stop pg) (pre ++ (s, n) :: post)) (hk : 0 < k) (hd : 0 < d)
    (hkn : k + d ≤ n) (hunits : (h.pages pg).units = size (pre ++ (s, n) :: post)) :
    ∃ bs', Taken c h pg (pre ++ (s, n) :: post) (s + d) k
      (takeFront c { h with mem := fragmentHead c h.mem s d } pg (some s) (s + d) k) bs' := by
  obtain ⟨m, rfl⟩ : ∃ m, n = d + m := ⟨n - d, by omega⟩
  have hsplit := hp.encoded.split ho hd (by omega : 0 < m)
  have hassoc : pre ++ (s, d) :: (s + d, m) :: post = (pre ++ [(s, d)]) ++ (s + d, m) :: post := by
    simp
  have hcover : ∀ u, cover ((pre ++ [(s, d)]) ++ (s + d, m) :: post) u =
      cover (pre ++ (s, d + m) :: post) u := by
    simp only [cover_append, cover_cons, cover_nil, covers_split]
    omega
  have hsize :
      size ((pre ++ [(s, d)]) ++ (s + d, m) :: post) = size (pre ++ (s, d + m) :: post) := by
    simp only [size_append, size_cons, size_nil]
    omega
  obtain ⟨hpre, -, hpost⟩ := ordered_append.mp ho
  have hord : Ordered (pg * c.pageUnits) (c.stop pg) ((pre ++ [(s, d)]) ++ (s + d, m) :: post) := by
    rw [← hassoc, ordered_append]
    exact ⟨hpre, hd, le_rfl, by show 0 < m; omega, by rwa [← add_assoc] at hpost⟩
  have hfree : (h.pages pg).free = first ((pre ++ [(s, d)]) ++ (s + d, m) :: post) (c.stop pg) := by
    rw [hp.free, ← hassoc, first_append, first_append]
    rfl
  have hpoints : Points c { h with mem := fragmentHead c h.mem s d } pg
      ((pre ++ [(s, d)]) ++ (s + d, m) :: post) (c.stop pg) := ⟨hfree, hassoc ▸ hsplit⟩
  have htake := takeFront_spec hpoints hord hk (by omega) (by
      rw [hunits, size_append, size_cons]
      omega) (by
      have := ho.size_le
      rw [hunits]
      simp only [Config.stop] at this
      omega)
  rw [prevOf_append] at htake
  refine ⟨_, taken_congr htake hcover hsize rfl rfl fun u hu => ?_⟩
  have hnot : ¬(s ≤ u ∧ u < s + (d + m)) := not_mem_of_cover (b := (s, d + m)) (by simp) hu
  have hlo := hpre.le
  have hnext := hpost.first_le.1
  exact fragmentHead_of_not_mem (points_append.mp hp).2.1 hd (by omega) (by omega) hnot

/-- **The loop of `slob_page_alloc`** takes units from the first block with enough room, or there is
none. -/
theorem pageAllocLoop_spec (align : ℕ) (hk : 0 < k) (hne : bs ≠ [])
    (hp : Points c h pg (pre ++ bs) (c.stop pg))
    (ho : Ordered (pg * c.pageUnits) (c.stop pg) (pre ++ bs))
    (hunits : (h.pages pg).units = size (pre ++ bs)) :
    ∃ out, (∀ turns, bs.length ≤ turns →
        pageAllocLoop c h pg k align turns (prevOf pre) (first bs (c.stop pg)) = some out) ∧
      (out = (none, h) ∧ (∀ b ∈ bs, b.2 < k + waste c b.1 align) ∨
        ∃ s bs', out.1 = some (s + waste c s align) ∧
          Taken c h pg (pre ++ bs) (s + waste c s align) k out.2 bs') := by
  induction bs generalizing pre with
  | nil => exact absurd rfl hne
  | cons b bs ih =>
    obtain ⟨s, n⟩ := b
    obtain ⟨-, -, hpost⟩ := ordered_append.mp ho
    obtain ⟨hsn, hnext, hlast⟩ := hp.encoded.block ho
    have hstop := c.stop_eq pg
    -- one turn, as the source has it
    simp only [length_cons, succ_le_iff, forall_turns_iff, first, pageAllocLoop, hsn, hnext]
    by_cases hroom : (n : ℤ) ≥ k + waste c s align
    · simp only [if_pos hroom]
      by_cases hwaste : waste c s align ≠ 0
      · obtain ⟨bs', htaken⟩ := takeBehind_spec hp ho hk (pos_of_ne_zero hwaste) (by omega) hunits
        exact ⟨_, fun turns _ => if_pos hwaste, Or.inr ⟨s, bs', rfl, htaken⟩⟩
      · have hzero : waste c s align = 0 := not_not.mp hwaste
        have hsize := ho.size_le
        have hsize' : size (pre ++ (s, n) :: bs) = size pre + (n + size bs) := by
          rw [size_append, size_cons]
        have htaken := takeFront_spec hp ho hk (by omega) (by omega) (by omega)
        exact ⟨_, fun turns _ => if_neg hwaste,
          Or.inr ⟨s, _, by rw [hzero]; rfl, by rw [hzero]; exact htaken⟩⟩
    · simp only [if_neg hroom]
      cases bs with
      | nil =>
        refine ⟨(none, h), fun turns _ => if_pos (hlast.mpr rfl), Or.inl ⟨rfl, ?_⟩⟩
        intro b hb
        obtain rfl := mem_singleton.mp hb
        show n < k + waste c s align
        omega
      | cons d bs =>
        have hassoc : pre ++ (s, n) :: d :: bs = (pre ++ [(s, n)]) ++ d :: bs := by simp
        have hnotlast : ¬slobLast c h.mem s = true := by
          rw [hlast]
          have hpos := hpost.2.1
          have hle := hpost.2.2.le
          show d.1 ≠ c.stop pg
          omega
        rw [hassoc] at hp ho hunits ⊢
        obtain ⟨out, hout, hresult⟩ := ih (cons_ne_nil d bs) hp ho hunits
        refine ⟨out, fun turns hturns => ?_, ?_⟩
        · rw [prevOf_append] at hout
          rw [if_neg hnotlast]
          exact hout turns hturns
        · rcases hresult with ⟨hnone, hall⟩ | hsome
          · refine Or.inl ⟨hnone, fun b hb => ?_⟩
            rcases mem_cons.mp hb with rfl | hb
            · show n < k + waste c s align
              omega
            · exact hall b hb
          · exact Or.inr hsome

/-- **`slob_page_alloc`** of a page with free units takes units from a block with enough room, or
there is none. -/
theorem slobPageAlloc_spec {size : ℕ} (align : ℕ) (hsize : 0 < size) (hne : bs ≠ [])
    (hp : Points c h pg bs (c.stop pg)) (ho : Ordered (pg * c.pageUnits) (c.stop pg) bs)
    (hunits : (h.pages pg).units = Library.size bs) :
    ∃ out, (∀ turns, c.pageUnits ≤ turns → slobPageAlloc c turns h pg size align = some out) ∧
      (out = (none, h) ∧ (∀ b ∈ bs, b.2 < c.slobUnits size + waste c b.1 align) ∨
        ∃ s bs', out.1 = some (s + waste c s align) ∧
          Taken c h pg bs (s + waste c s align) (c.slobUnits size) out.2 bs') := by
  have hk : 0 < c.slobUnits size := c.slobUnits_pos hsize
  obtain ⟨out, hout, hresult⟩ := pageAllocLoop_spec align hk hne
    (show Points c h pg ([] ++ bs) _ from hp) ho
    hunits
  refine ⟨out, fun turns hturns => ?_, hresult⟩
  rw [slobPageAlloc, hp.free]
  refine hout turns (le_trans ?_ hturns)
  have hlen := ho.length_le
  have hle := ho.size_le
  simp only [Config.stop] at hle
  omega

end Gp2xKernel.Slob
