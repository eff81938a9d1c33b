import Gp2xKernel.Library.Run
import Gp2xKernel.Slob.Free

/-!
# Runs of the SLOB allocator

The live objects are those allocated and not yet freed.  In every run, the live objects and the free
blocks of a page make up the page.

## Main definitions

* `State`: the heap with the live objects
* `objects`: the live objects of a page, in units
* `Partition`: the free blocks and the live objects make up a page
* `system`: allocations, releases, and writes to memory that is not free

## Main results

* `Inv.alloc`, `Inv.free`, `Inv.store`: what one event does
* `heap_sound`: the live objects and the free blocks partition every page
-/

namespace Gp2xKernel.Slob

open Library List Option

variable {c : Config}

/-! ## Live objects -/

/-- The heap, and the live objects: where each is, and its size in bytes. -/
structure State where
  heap : Heap
  live : List (ℕ × ℕ)

/-- The units of an object. -/
def Config.block (c : Config) (o : ℕ × ℕ) : Block := (o.1, c.slobUnits o.2)

/-- The live objects of a page, in units. -/
def objects (c : Config) (live : List (ℕ × ℕ)) (pg : ℕ) : List Block :=
  (live.filter (fun o => o.1 / c.pageUnits = pg)).map c.block

variable {live : List (ℕ × ℕ)} {o : ℕ × ℕ} {pg pg' : ℕ} {h h' : Heap}

theorem objects_cons_self (hpg : o.1 / c.pageUnits = pg) :
    objects c (o :: live) pg = c.block o :: objects c live pg := by
  rw [objects, filter_cons_of_pos (by simpa using hpg), map_cons, objects]

theorem objects_cons_of_ne (hpg : o.1 / c.pageUnits ≠ pg) :
    objects c (o :: live) pg = objects c live pg := by
  rw [objects, filter_cons_of_neg (by simpa using hpg), objects]

variable {live' : List (ℕ × ℕ)}

theorem objects_perm (hperm : live.Perm live') (pg : ℕ) :
    (objects c live pg).Perm (objects c live' pg) :=
  (hperm.filter _).map _

theorem block_mem_objects (ho : o ∈ live) : c.block o ∈ objects c live (o.1 / c.pageUnits) :=
  mem_map_of_mem (mem_filter.mpr ⟨ho, by simp⟩)

theorem exists_of_mem_objects {b : Block} (hb : b ∈ objects c live pg) :
    ∃ o ∈ live, c.block o = b := by
  obtain ⟨o, ho, rfl⟩ := mem_map.mp hb
  exact ⟨o, mem_of_mem_filter ho, rfl⟩

/-! ## Pages -/

/-- The free blocks `bs` of a page, in the order of their addresses to the end of the page, and its
live objects make up the page; the page counts the free units, and is marked as on the list if there
are any. -/
structure Partition (c : Config) (h : Heap) (live : List (ℕ × ℕ)) (pg : ℕ) (bs : List Block) :
    Prop where
  points : Points c h pg bs (c.stop pg)
  ordered : Ordered (pg * c.pageUnits) (c.stop pg) bs
  units : (h.pages pg).units = size bs
  tiles : Tiles (bs ++ objects c live pg) (pg * c.pageUnits, c.pageUnits)
  size : size bs + size (objects c live pg) = c.pageUnits
  onList : (h.pages pg).onList = true ↔ bs ≠ []

/-- A page is one of the allocator if it has live objects; it is then partitioned. -/
structure PageOk (c : Config) (h : Heap) (live : List (ℕ × ℕ)) (pg : ℕ) : Prop where
  slob : (h.pages pg).slob = true ↔ objects c live pg ≠ []
  off : (h.pages pg).slob = false → (h.pages pg).onList = false
  partition : (h.pages pg).slob = true → ∃ bs, Partition c h live pg bs

theorem PageOk.of_partition {bs : List Block} (hslob : (h.pages pg).slob = true)
    (hne : objects c live pg ≠ []) (hp : Partition c h live pg bs) : PageOk c h live pg := by
  refine ⟨iff_of_true hslob hne, fun hoff => ?_, fun _ => ⟨bs, hp⟩⟩
  simp [hslob] at hoff

/-- What holds between the events. -/
structure Inv (c : Config) (s : State) : Prop where
  nodup : s.heap.freeSlobPages.Nodup
  mem_list : ∀ pg, pg ∈ s.heap.freeSlobPages ↔ (s.heap.pages pg).onList = true
  pages : ∀ pg, PageOk c s.heap s.live pg
  live : ∀ o ∈ s.live, 0 < o.2

theorem page_eq {u : ℕ} (hin : ¬(u < pg * c.pageUnits ∨ c.stop pg ≤ u)) : u / c.pageUnits = pg := by
  have hstop := c.stop_eq pg
  exact Nat.div_eq_of_lt_le (by omega) (by rw [Nat.succ_mul]; omega)

/-- Two pages have no unit in common. -/
theorem outside_of_ne (hne : pg' ≠ pg) {u : ℕ} (hlo : pg' * c.pageUnits ≤ u)
    (hhi : u < c.stop pg') :
    u < pg * c.pageUnits ∨ c.stop pg ≤ u := by
  have hpg' : u / c.pageUnits = pg' := page_eq (by omega)
  by_contra hin
  exact hne (hpg'.symm.trans (page_eq hin))

/-- A page is as it was if its record, its objects and its units are. -/
theorem PageOk.congr (hok : PageOk c h live pg) (hpages : h'.pages pg = h.pages pg)
    (hobjects : (objects c live' pg).Perm (objects c live pg))
    (hmem : ∀ u, pg * c.pageUnits ≤ u → u < c.stop pg → h'.mem u = h.mem u) :
    PageOk c h' live' pg := by
  refine ⟨?_, by rw [hpages]; exact hok.off, fun hslob => ?_⟩
  · rw [hpages, hok.slob, ne_eq, ← length_eq_zero_iff, ← hobjects.length_eq, length_eq_zero_iff]
  rw [hpages] at hslob
  obtain ⟨bs, hpart⟩ := hok.partition hslob
  refine ⟨bs, ⟨?_, hpart.points.encoded.congr hpart.ordered hmem⟩, hpart.ordered, ?_, ?_, ?_, ?_⟩
  · rw [hpages]
    exact hpart.points.free
  · rw [hpages]
    exact hpart.units
  · exact hpart.tiles.congr (cover_perm (hobjects.append_left bs))
  · rw [size_perm hobjects]
    exact hpart.size
  · rw [hpages]
    exact hpart.onList

/-! ## Allocation -/

section

variable {bs bs' : List Block} {b size : ℕ}

theorem Taken.page (ht : Taken c h pg bs b (c.slobUnits size) h' bs')
    (ho : Ordered (pg * c.pageUnits) (c.stop pg) bs) (hsize : 0 < size) : b / c.pageUnits = pg := by
  have hk : 0 < c.slobUnits size := c.slobUnits_pos hsize
  have hcover := ht.cover b
  rw [covers_eq_one le_rfl (by show b < b + _; omega)] at hcover
  refine page_eq fun hout => ?_
  rw [ho.cover_eq_zero hout] at hcover
  omega

/-- Units taken from the free blocks of a page make up an object. -/
theorem Partition.taken (hp : Partition c h live pg bs) (hsize : 0 < size)
    (ht : Taken c h pg bs b (c.slobUnits size) h' bs') :
    Partition c h' ((b, size) :: live) pg bs' := by
  have hobjects : objects c ((b, size) :: live) pg = (b, c.slobUnits size) :: objects c live pg :=
    objects_cons_self (ht.page hp.ordered hsize)
  have hunits := hp.units
  have htaken := ht.size
  refine ⟨ht.points, ht.ordered, ?_, ?_, ?_, ?_⟩
  · rw [ht.units]
    omega
  · rw [hobjects]
    refine hp.tiles.congr fun u => ?_
    have := ht.cover u
    simp only [cover_append, cover_cons]
    omega
  · have := hp.size
    rw [hobjects, size_cons]
    omega
  · rw [ht.onList, ht.ordered.ne_nil_iff]
    split_ifs with hlast
    · simp only [false_iff]
      omega
    · rw [hp.onList, hp.ordered.ne_nil_iff]
      omega

/-- **An object is allocated in a page.**  The page may be new, without another object. -/
theorem inv_taken (hnodup : h.freeSlobPages.Nodup)
    (hlist : ∀ pg', pg' ∈ h.freeSlobPages ↔ (h.pages pg').onList = true)
    (hothers : ∀ pg', pg' ≠ pg → PageOk c h live pg') (hlive : ∀ o ∈ live, 0 < o.2)
    (hslob : (h.pages pg).slob = true) (hp : Partition c h live pg bs) (hsize : 0 < size)
    (ht : Taken c h pg bs b (c.slobUnits size) h' bs') {pgs : List ℕ}
    (hperm : pgs.Perm h'.freeSlobPages) :
    Inv c ⟨{ h' with freeSlobPages := pgs }, (b, size) :: live⟩ := by
  have hpage := ht.page hp.ordered hsize
  have hpart := hp.taken hsize ht
  refine ⟨hperm.nodup_iff.mpr ?_, fun pg' => ?_, fun pg' => ?_, ?_⟩
  · rw [ht.list]
    split_ifs
    · exact hnodup.erase pg
    · exact hnodup
  · show pg' ∈ pgs ↔ (h'.pages pg').onList = true
    rw [hperm.mem_iff, ht.list]
    by_cases hpg : pg' = pg
    · rw [hpg, ht.onList]
      split_ifs
      · simp [hnodup.mem_erase_iff]
      · exact hlist pg
    · rw [ht.others pg' hpg, ← hlist]
      split_ifs
      · exact mem_erase_of_ne hpg
      · exact Iff.rfl
  · by_cases hpg : pg' = pg
    · subst hpg
      refine .of_partition (ht.slob.trans hslob) ?_ ⟨⟨hpart.points.free, hpart.points.encoded⟩,
        hpart.ordered, hpart.units, hpart.tiles, hpart.size, hpart.onList⟩
      rw [objects_cons_self hpage]
      exact cons_ne_nil _ _
    · have hobjects : objects c ((b, size) :: live) pg' = objects c live pg' :=
        objects_cons_of_ne (by rw [hpage]; exact Ne.symm hpg)
      refine (hothers pg' hpg).congr (ht.others pg' hpg) (List.Perm.of_eq hobjects) fun u hlo hhi =>
        ?_
      · exact ht.mem u (hp.ordered.cover_eq_zero (outside_of_ne hpg hlo hhi))
  · exact forall_mem_cons.mpr ⟨hsize, hlive⟩

end

theorem startAt_perm (pgs : List ℕ) (i : ℕ) : (startAt pgs i).Perm pgs := by
  rw [startAt]
  split_ifs
  · have hperm : (pgs.drop i ++ pgs.take i).Perm (pgs.take i ++ pgs.drop i) := perm_append_comm
    rwa [take_append_drop] at hperm
  · exact List.Perm.refl _

section

variable {s : State} {size align : ℕ}

/-- **The search of `slob_alloc`** through pages on the list. -/
theorem searchPages_spec (hinv : Inv c s) (hsize : 0 < size) (ha : Alignment align)
    (onNode : ℕ → Bool) {pgs : List ℕ} (hpgs : ∀ pg ∈ pgs, pg ∈ s.heap.freeSlobPages) :
    ∃ out, (∀ turns, c.pageUnits ≤ turns →
        searchPages c turns s.heap onNode size align pgs = some out) ∧
      (out = (none, s.heap) ∨ ∃ b pg bs bs', out.1 = some (b, pg) ∧ (s.heap.pages pg).slob = true ∧
        Partition c s.heap s.live pg bs ∧ Taken c s.heap pg bs b (c.slobUnits size) out.2 bs' ∧
        Aligned c b align) := by
  induction pgs with
  | nil => exact ⟨(none, s.heap), fun turns _ => rfl, Or.inl rfl⟩
  | cons pg pgs ih =>
    obtain ⟨rest, hrest, hresult⟩ := ih fun pg' hpg' => hpgs pg' (mem_cons_of_mem _ hpg')
    by_cases hnode : onNode pg = false
    · simp only [searchPages, if_pos hnode]
      exact ⟨rest, hrest, hresult⟩
    by_cases hfew : (s.heap.pages pg).units < c.slobUnits size
    · simp only [searchPages, if_neg hnode, if_pos hfew]
      exact ⟨rest, hrest, hresult⟩
    -- a page on the list has a free block
    have hon : (s.heap.pages pg).onList = true :=
      (hinv.mem_list pg).mp (hpgs pg (mem_cons_self ..))
    have hslob : (s.heap.pages pg).slob = true := by
      by_contra hoff
      simp [(hinv.pages pg).off (by simpa using hoff)] at hon
    obtain ⟨bs, hpart⟩ := (hinv.pages pg).partition hslob
    obtain ⟨out, hout, hpage⟩ := slobPageAlloc_spec align hsize (hpart.onList.mp hon)
      hpart.points hpart.ordered hpart.units
    simp only [searchPages, if_neg hnode, if_neg hfew]
    rcases hpage with ⟨hnone, -⟩ | ⟨b, bs', hsome, htaken⟩
    · refine ⟨rest, fun turns hturns => ?_, hresult⟩
      rw [hout turns hturns, hnone]
      exact hrest turns hturns
    · refine ⟨(some (b + waste c b align, pg), out.2), fun turns hturns => ?_, Or.inr ?_⟩
      · rw [hout turns hturns]
        simp [hsome]
      · exact ⟨_, pg, bs, bs', rfl, hslob, hpart, htaken, aligned_waste ha⟩

/-- A unit is in a live object. -/
def Held (c : Config) (live : List (ℕ × ℕ)) (u : ℕ) : Prop :=
  ∃ o ∈ live, o.1 ≤ u ∧ u < o.1 + c.slobUnits o.2

/-- An allocation: the block has the alignment, and no live object is written to.  There is none
only if there was no page. -/
structure Allocated (c : Config) (s : State) (page : Option ℕ) (size align : ℕ)
    (out : Option ℕ × Heap) : Prop where
  inv : Inv c ⟨out.2, (out.1.map (·, size)).toList ++ s.live⟩
  aligned : ∀ b, out.1 = some b → Aligned c b align
  none : out.1 = none → page = none
  mem : ∀ u, Held c s.live u → out.2.mem u = s.heap.mem u

/-- A live object lies in a page of the allocator. -/
theorem Inv.object (hinv : Inv c s) (ho : o ∈ s.live) :
    (s.heap.pages (o.1 / c.pageUnits)).slob = true ∧
      o.1 / c.pageUnits * c.pageUnits ≤ o.1 ∧
      o.1 + c.slobUnits o.2 ≤ c.stop (o.1 / c.pageUnits) := by
  have hmem := block_mem_objects (c := c) ho
  have hslob := (hinv.pages (o.1 / c.pageUnits)).slob.mpr (ne_nil_of_mem hmem)
  obtain ⟨bs, hpart⟩ := (hinv.pages (o.1 / c.pageUnits)).partition hslob
  have hwithin := hpart.tiles.within (mem_append_right bs hmem) (c.slobUnits_pos (hinv.live o ho))
  exact ⟨hslob, hwithin⟩

variable {bs bs' : List Block} {u : ℕ}

/-- No unit in a live object is free. -/
theorem Held.cover_eq_zero (hu : Held c s.live u) (hinv : Inv c s)
    (hpart : Partition c s.heap s.live pg bs) : cover bs u = 0 := by
  obtain ⟨o, ho, hlo, hhi⟩ := hu
  by_cases hpg : o.1 / c.pageUnits = pg
  · have hmem : c.block o ∈ objects c s.live pg := hpg ▸ block_mem_objects ho
    have hone := covers_le_cover hmem u
    rw [covers_eq_one (b := c.block o) hlo hhi] at hone
    have htiles := hpart.tiles u
    have hle := covers_le_one (pg * c.pageUnits, c.pageUnits) u
    rw [cover_append] at htiles
    omega
  · obtain ⟨-, hfirst, hlast⟩ := hinv.object ho
    exact hpart.ordered.cover_eq_zero (outside_of_ne hpg (by omega) (by omega))

/-- A page without free units or objects becomes one of the allocator. -/
theorem newPage_spec (hinv : Inv c s) (hoff : (s.heap.pages pg).slob = false) :
    Partition c (newPage c s.heap pg) s.live pg [(pg * c.pageUnits, c.pageUnits)] ∧
      ((newPage c s.heap pg).pages pg).slob = true ∧
      (newPage c s.heap pg).freeSlobPages = pg :: s.heap.freeSlobPages ∧
      (∀ pg', pg' ≠ pg → (newPage c s.heap pg).pages pg' = s.heap.pages pg') ∧
      ∀ u, covers (pg * c.pageUnits, c.pageUnits) u = 0 →
        (newPage c s.heap pg).mem u = s.heap.mem u := by
  have hN := c.pageUnits_pos
  have hobjects : objects c s.live pg = [] := by
    by_contra hne
    simp [(hinv.pages pg).slob.mpr hne] at hoff
  have hpage : (newPage c s.heap pg).pages pg =
      { slob := true, onList := true, units := c.pageUnits, free := pg * c.pageUnits } := by
    simp only [newPage, setSlobPageFree, Heap.setPage_self]
    rw [c.slobidx_eq (by omega) le_rfl]
  have henc : Encoded s.heap.mem (pg * c.pageUnits) [] (c.stop pg) := trivial
  have hjoined := joinedNext_setSlob henc hN (le_refl (pg * c.pageUnits)) (le_refl (c.stop pg))
  refine ⟨⟨⟨by rw [hpage]; rfl, hjoined.encoded⟩, hjoined.ordered, by rw [hpage]; rfl, ?_, ?_, ?_⟩,
    by rw [hpage], rfl, fun pg' hne => ?_, fun u hu => hjoined.mem u hu (cover_nil u)⟩
  · intro u
    rw [hobjects, append_nil, cover_cons, cover_nil, Nat.add_zero]
  · rw [hobjects]
    rfl
  · rw [hpage]
    exact iff_of_true rfl (cons_ne_nil _ _)
  · exact (Heap.setPage_of_ne _ _ hne).trans (s.heap.setPage_of_ne _ hne)

/-- A live object is not in a page that is not one of the allocator. -/
theorem Held.covers_eq_zero (hu : Held c s.live u) (hinv : Inv c s)
    (hoff : (s.heap.pages pg).slob = false) : covers (pg * c.pageUnits, c.pageUnits) u = 0 := by
  obtain ⟨o, ho, hlo, hhi⟩ := hu
  obtain ⟨hslob, hfirst, hlast⟩ := hinv.object ho
  have hpg : o.1 / c.pageUnits ≠ pg := by
    rintro rfl
    simp [hoff] at hslob
  exact Library.covers_eq_zero (outside_of_ne hpg (by omega) (by omega))

theorem Inv.new {b : ℕ} (hinv : Inv c s) (hoff : (s.heap.pages pg).slob = false) (hsize : 0 < size)
    (ht : Taken c (newPage c s.heap pg) pg [(pg * c.pageUnits, c.pageUnits)] b
      (c.slobUnits size) h' bs') : Inv c ⟨h', (b, size) :: s.live⟩ := by
  obtain ⟨hpart, hslob, hlist, hothers, hmem⟩ := newPage_spec hinv hoff
  have hnotin : pg ∉ s.heap.freeSlobPages := by
    rw [hinv.mem_list, (hinv.pages pg).off hoff]
    exact Bool.false_ne_true
  refine inv_taken (hlist ▸ hinv.nodup.cons hnotin) (fun pg' => ?_) (fun pg' hne => ?_) hinv.live
    hslob
    hpart hsize ht (List.Perm.refl _)
  · rw [hlist, mem_cons]
    by_cases hpg : pg' = pg
    · rw [hpg, hpart.onList]
      exact iff_of_true (Or.inl rfl) (cons_ne_nil _ _)
    · rw [hothers pg' hpg, ← hinv.mem_list]
      exact or_iff_right hpg
  · refine (hinv.pages pg').congr (hothers pg' hne) (List.Perm.refl _) fun u hlo hhi => hmem u ?_
    exact covers_eq_zero (outside_of_ne hne hlo hhi)

/-- **`slob_alloc`** returns, and allocates a block. -/
theorem Inv.alloc (hinv : Inv c s) (hsize : 0 < size) (ha : Alignment align) (onNode : ℕ → Bool)
    {page : Option ℕ} (hpage : ∀ pg, page = some pg → (s.heap.pages pg).slob = false ∧
      c.slobUnits size + waste c (pg * c.pageUnits) align ≤ c.pageUnits) :
    ∃ out, (∀ turns, c.pageUnits ≤ turns →
        slobAlloc c turns s.heap onNode page size align = some out) ∧
      Allocated c s page size align out := by
  obtain ⟨found, hfound, hresult⟩ := searchPages_spec hinv hsize ha onNode fun pg hpg => hpg
  rcases hresult with hnone | ⟨b, pg, bs, bs', hsome, hslob, hpart, htaken, haligned⟩
  · cases page with
    | none =>
      refine ⟨(none, s.heap), fun turns hturns => ?_, hinv, ?_, fun _ => rfl, fun u _ => rfl⟩
      · rw [slobAlloc, hfound turns hturns, hnone]
        rfl
      · rintro b ⟨⟩
    | some pg =>
      -- all units of a new page are free, so that there is room
      obtain ⟨hoff, hroom⟩ := hpage pg rfl
      obtain ⟨hpart, -, -, -, hmem⟩ := newPage_spec hinv hoff
      obtain ⟨out, hout, hcases⟩ := slobPageAlloc_spec align hsize
        (cons_ne_nil _ _) hpart.points hpart.ordered hpart.units
      obtain ⟨b, bs', hsome, htaken⟩ : ∃ s' bs', out.1 = some (s' + waste c s' align) ∧ Taken c
          (newPage c s.heap pg) pg [(pg * c.pageUnits, c.pageUnits)] (s' + waste c s' align)
          (c.slobUnits size) out.2 bs' := by
        rcases hcases with ⟨-, hfew⟩ | hsome
        · exact absurd (hfew _ (mem_singleton.mpr rfl)) (not_lt.mpr hroom)
        · exact hsome
      refine ⟨out, fun turns hturns => ?_, ?_, ?_, ?_, fun u hu => ?_⟩
      · rw [slobAlloc, hfound turns hturns, hnone]
        simp only [bind_eq_bind, bind_some, hout turns hturns, hsome]
        exact congrArg some (Prod.ext hsome.symm rfl)
      · rw [hsome]
        exact hinv.new hoff hsize htaken
      · intro b' hb'
        obtain rfl := some.inj (hsome.symm.trans hb')
        exact aligned_waste ha
      · intro hnot
        exact absurd (hsome.symm.trans hnot) (some_ne_none _)
      · have hfree : covers (pg * c.pageUnits, c.pageUnits) u = 0 := hu.covers_eq_zero hinv hoff
        refine (htaken.mem u ?_).trans (hmem u hfree)
        rw [cover_cons, cover_nil, hfree]
  · refine ⟨(some b, { found.2 with
        freeSlobPages := startAt found.2.freeSlobPages (s.heap.freeSlobPages.idxOf pg) }),
      fun turns hturns => ?_, ?_, ?_, ?_, fun u hu => ?_⟩
    · rw [slobAlloc, hfound turns hturns]
      simp [hsome]
    · exact inv_taken hinv.nodup hinv.mem_list (fun pg' _ => hinv.pages pg') hinv.live hslob hpart
        hsize htaken (startAt_perm _ _)
    · intro b' hb'
      obtain rfl := some.inj hb'
      exact haligned
    · rintro ⟨⟩
    · exact htaken.mem u (hu.cover_eq_zero hinv hpart)

/-! ## Release -/

theorem objects_erase_self (ho : o ∈ live) :
    (objects c live (o.1 / c.pageUnits)).Perm
      (c.block o :: objects c (live.erase o) (o.1 / c.pageUnits)) := by
  have hperm := objects_perm (c := c) (perm_cons_erase ho) (o.1 / c.pageUnits)
  rwa [objects_cons_self rfl] at hperm

theorem objects_erase_of_ne (ho : o ∈ live) (hne : pg ≠ o.1 / c.pageUnits) :
    (objects c (live.erase o) pg).Perm (objects c live pg) := by
  have hperm := objects_perm (c := c) (perm_cons_erase ho) pg
  rw [objects_cons_of_ne hne.symm] at hperm
  exact hperm.symm

/-- The page of an object, and its pages, after a release. -/
structure Returned (h : Heap) (pg : ℕ) (h' : Heap) : Prop where
  slob : (h'.pages pg).slob = false
  onList : (h'.pages pg).onList = false
  list :
    h'.freeSlobPages = if (h.pages pg).onList then h.freeSlobPages.erase pg else h.freeSlobPages
  others : ∀ pg', pg' ≠ pg → h'.pages pg' = h.pages pg'
  mem : h'.mem = h.mem

theorem returnPage_spec (h : Heap) (pg : ℕ) : Returned h pg (returnPage h pg) := by
  rw [returnPage]
  by_cases hon : (h.pages pg).onList = true
  · simp only [hon]
    refine ⟨by simp, by simp [clearSlobPageFree], ?_, fun pg' hne => ?_, rfl⟩
    · rw [if_pos hon]
      rfl
    · exact (Heap.setPage_of_ne _ _ hne).trans (h.setPage_of_ne _ hne)
  · have hoff : (h.pages pg).onList = false := by simpa using hon
    simp only [hoff, Bool.false_eq_true, if_false]
    refine ⟨by simp, by simp, ?_, fun pg' hne => h.setPage_of_ne _ hne, rfl⟩
    rw [if_neg hon]
    rfl

theorem Inv.returned (hinv : Inv c s) (ho : o ∈ s.live)
    (hr : Returned s.heap (o.1 / c.pageUnits) h')
    (hlast : objects c (s.live.erase o) (o.1 / c.pageUnits) = []) :
    Inv c ⟨h', s.live.erase o⟩ := by
  refine ⟨?_, fun pg => ?_, fun pg => ?_, fun o' ho' => hinv.live o' (mem_of_mem_erase ho')⟩
  · rw [hr.list]
    split_ifs
    · exact hinv.nodup.erase _
    · exact hinv.nodup
  · show pg ∈ h'.freeSlobPages ↔ (h'.pages pg).onList = true
    rw [hr.list]
    by_cases hpg : pg = o.1 / c.pageUnits
    · rw [hpg, hr.onList]
      refine iff_of_false ?_ Bool.false_ne_true
      split_ifs with hon
      · exact hinv.nodup.not_mem_erase
      · exact fun hmem => hon ((hinv.mem_list _).mp hmem)
    · rw [hr.others pg hpg, ← hinv.mem_list pg]
      split_ifs
      · exact mem_erase_of_ne hpg
      · exact Iff.rfl
  · by_cases hpg : pg = o.1 / c.pageUnits
    · subst hpg
      refine ⟨iff_of_false (by rw [hr.slob]; exact Bool.false_ne_true) (fun hne => hne hlast),
        fun _ => hr.onList, fun hslob => ?_⟩
      simp [hr.slob] at hslob
    · exact (hinv.pages pg).congr (hr.others pg hpg) (objects_erase_of_ne ho hpg)
        fun u _ _ => congrFun hr.mem u

theorem Partition.freed (ho : o ∈ live) (hp : Partition c h live (o.1 / c.pageUnits) bs)
    (hf : Freed c h (o.1 / c.pageUnits) bs o.1 (c.slobUnits o.2) h' bs') (hpos : 0 < o.2) :
    Partition c h' (live.erase o) (o.1 / c.pageUnits) bs' := by
  have hk : 0 < c.slobUnits o.2 := c.slobUnits_pos hpos
  have hobjects := objects_erase_self (c := c) ho
  have hunits := hp.units
  have hfreed := hf.size
  refine ⟨hf.points, hf.ordered, ?_, hp.tiles.congr fun u => ?_, ?_, ?_⟩
  · rw [hf.units]
    omega
  · have := cover_perm hobjects u
    have := hf.cover u
    simp only [cover_append, cover_cons, Config.block] at *
    omega
  · have := hp.size
    have := size_perm hobjects
    simp only [size_cons, Config.block] at *
    omega
  · rw [hf.onList, hf.ordered.ne_nil_iff]
    exact iff_of_true rfl (by omega)

theorem Inv.freed (hinv : Inv c s) (ho : o ∈ s.live)
    (hp : Partition c s.heap s.live (o.1 / c.pageUnits) bs)
    (hf : Freed c s.heap (o.1 / c.pageUnits) bs o.1 (c.slobUnits o.2) h' bs')
    (hmore : objects c (s.live.erase o) (o.1 / c.pageUnits) ≠ []) :
    Inv c ⟨h', s.live.erase o⟩ := by
  obtain ⟨hslob, hlo, hhi⟩ := hinv.object ho
  refine ⟨?_, fun pg => ?_, fun pg => ?_, fun o' ho' => hinv.live o' (mem_of_mem_erase ho')⟩
  · rw [hf.list]
    split_ifs with hon
    · exact hinv.nodup
    · exact hinv.nodup.cons fun hmem => hon ((hinv.mem_list _).mp hmem)
  · show pg ∈ h'.freeSlobPages ↔ (h'.pages pg).onList = true
    rw [hf.list]
    by_cases hpg : pg = o.1 / c.pageUnits
    · rw [hpg, hf.onList]
      refine iff_of_true ?_ rfl
      split_ifs with hon
      · exact (hinv.mem_list _).mpr hon
      · exact mem_cons_self ..
    · rw [hf.others pg hpg, ← hinv.mem_list pg]
      split_ifs
      · exact Iff.rfl
      · rw [mem_cons]
        exact or_iff_right hpg
  · by_cases hpg : pg = o.1 / c.pageUnits
    · subst hpg
      exact .of_partition (hf.slob.trans hslob) hmore (hp.freed ho hf (hinv.live o ho))
    · refine (hinv.pages pg).congr (hf.others pg hpg) (objects_erase_of_ne ho hpg) fun u hu hu' =>
        ?_
      have hout := outside_of_ne hpg hu hu'
      exact hf.mem u (hp.ordered.cover_eq_zero hout) (covers_eq_zero (by omega))

/-- An object has no unit in common with the others. -/
theorem Held.covers_eq_zero_of_erase (hu : Held c (s.live.erase o) u) (hinv : Inv c s)
    (ho : o ∈ s.live) : covers (c.block o) u = 0 := by
  obtain ⟨o', ho', hlo', hhi'⟩ := hu
  obtain ⟨hslob, hlo, hhi⟩ := hinv.object ho
  by_cases hpg : o'.1 / c.pageUnits = o.1 / c.pageUnits
  · obtain ⟨bs, hpart⟩ := (hinv.pages _).partition hslob
    have hmem : c.block o' ∈ objects c (s.live.erase o) (o.1 / c.pageUnits) :=
      hpg ▸ block_mem_objects ho'
    have hone := covers_le_cover hmem u
    rw [covers_eq_one (b := c.block o') hlo' hhi'] at hone
    have htiles := hpart.tiles u
    have hle := covers_le_one (o.1 / c.pageUnits * c.pageUnits, c.pageUnits) u
    rw [cover_append, cover_perm (objects_erase_self ho), cover_cons] at htiles
    omega
  · obtain ⟨-, hfirst, hlast⟩ := hinv.object (mem_of_mem_erase ho')
    have hout : u < _ ∨ _ ≤ u := outside_of_ne (c := c) hpg (by omega) (by omega)
    have hapart : u < o.1 ∨ o.1 + c.slobUnits o.2 ≤ u := by omega
    exact Library.covers_eq_zero hapart

/-- **`slob_free`** of a live object returns, and writes to no other live object. -/
theorem Inv.free (hinv : Inv c s) (ho : o ∈ s.live) :
    ∃ h', (∀ turns, c.pageUnits ≤ turns → slobFree c turns s.heap o.1 o.2 = some h') ∧
      Inv c ⟨h', s.live.erase o⟩ ∧
      ∀ u, Held c (s.live.erase o) u → h'.mem u = s.heap.mem u := by
  obtain ⟨hslob, hlo, hhi⟩ := hinv.object ho
  have hpos := hinv.live o ho
  obtain ⟨bs, hpart⟩ := (hinv.pages (o.1 / c.pageUnits)).partition hslob
  have hobjects := objects_erase_self (c := c) ho
  have hsize := hpart.size
  rw [size_perm hobjects, size_cons] at hsize
  have hunits := hpart.units
  have hidx : c.slobidx (c.slobUnits o.2) = c.slobUnits o.2 := by
    have hstop : c.stop (o.1 / c.pageUnits) = o.1 / c.pageUnits * c.pageUnits + c.pageUnits := rfl
    exact c.slobidx_eq (by omega) (by omega)
  by_cases hlast : objects c (s.live.erase o) (o.1 / c.pageUnits) = []
  · -- the page goes back to the page allocator
    have hr := returnPage_spec s.heap (o.1 / c.pageUnits)
    refine ⟨_, fun turns _ => ?_, hinv.returned ho hr hlast, fun u _ => congrFun hr.mem u⟩
    rw [hlast] at hsize
    have hfull : (s.heap.pages (o.1 / c.pageUnits)).units + c.slobUnits o.2 = c.pageUnits := by
      simp only [size_nil, Config.block] at hsize
      omega
    simp only [slobFree, hidx]
    rw [if_neg hpos.ne', if_pos hfull]
  · have hmem := block_mem_objects (c := c) ho
    have hroom : size bs + c.slobUnits o.2 < c.pageUnits := by
      obtain ⟨b, hb⟩ := exists_mem_of_ne_nil _ hlast
      obtain ⟨o', ho', rfl⟩ := exists_of_mem_objects hb
      have hk' : 0 < c.slobUnits o'.2 := c.slobUnits_pos (hinv.live o' (mem_of_mem_erase ho'))
      have hle : c.slobUnits o'.2 ≤ _ := le_size hb
      simp only [Config.block] at hsize
      omega
    have hapart : ∀ x ∈ bs, x.1 + x.2 ≤ o.1 ∨ o.1 + c.slobUnits o.2 ≤ x.1 := fun x hx =>
      hpart.tiles.apart hx hmem (hpart.ordered.of_mem hx).2.1 (c.slobUnits_pos hpos)
    obtain ⟨h', bs', hout, hfreed⟩ := slobFree_spec hpos hpart.points hpart.ordered hunits
      hpart.onList hlo hhi hapart hroom
    refine ⟨h', hout, hinv.freed ho hpart hfreed hlast, fun u hu => ?_⟩
    have hheld : Held c s.live u := by
      obtain ⟨o', ho', hu⟩ := hu
      exact ⟨o', mem_of_mem_erase ho', hu⟩
    exact hfreed.mem u (hheld.cover_eq_zero hinv hpart) (hu.covers_eq_zero_of_erase hinv ho)

/-! ## Writes -/

/-- A unit that is not free: in a live object, or in a page that is not one of the allocator. -/
def Owned (c : Config) (s : State) (a : ℕ) : Prop :=
  (s.heap.pages (a / c.pageUnits)).slob = false ∨ Held c s.live a

/-- A write to a unit that is not free. -/
theorem Inv.store {a : ℕ} (hinv : Inv c s) (ha : Owned c s a) (v : ℤ) :
    Inv c ⟨{ s.heap with mem := Function.update s.heap.mem a v }, s.live⟩ := by
  refine ⟨hinv.nodup, hinv.mem_list, fun pg => ?_, hinv.live⟩
  refine ⟨(hinv.pages pg).slob, (hinv.pages pg).off, fun hslob => ?_⟩
  obtain ⟨bs, hpart⟩ := (hinv.pages pg).partition hslob
  have hfree : cover bs a = 0 := by
    rcases ha with hoff | hheld
    · by_contra hne
      rw [page_eq fun hout => hne (hpart.ordered.cover_eq_zero hout)] at hoff
      simp [hoff] at hslob
    · exact hheld.cover_eq_zero hinv hpart
  refine ⟨bs, ⟨hpart.points.free, hpart.points.encoded.congr_of_cover fun u hu => ?_⟩,
    hpart.ordered,
    hpart.units, hpart.tiles, hpart.size, hpart.onList⟩
  refine Function.update_of_ne ?_ _ _
  rintro rfl
  omega

end

/-! ## Runs -/

/-- What can happen: an allocation, with the page that the page allocator has, if any; the release
of an object; and a write of a user of memory. -/
inductive Event
  | alloc (onNode : ℕ → Bool) (page : Option ℕ) (size align : ℕ)
  | free (o : ℕ × ℕ)
  | store (a : ℕ) (v : ℤ)

/-- Sizes are positive and alignments powers of two, or zero; a page that the page allocator has is
not in use, and has room for the object.  Only live objects are freed, and no free unit is written
to. -/
def Allowed (c : Config) (s : State) : Event → Prop
  | .alloc _ page size align => 0 < size ∧ Alignment align ∧
      ∀ pg, page = some pg → (s.heap.pages pg).slob = false ∧
        c.slobUnits size + waste c (pg * c.pageUnits) align ≤ c.pageUnits
  | .free o => o ∈ s.live
  | .store a _ => Owned c s a

/-- What an event does. -/
def Step (c : Config) (s : State) : Event → State → Prop
  | .alloc onNode page size align, s' => ∃ out,
      Returns (fun turns => slobAlloc c turns s.heap onNode page size align) out ∧
      s' = ⟨out.2, (out.1.map (·, size)).toList ++ s.live⟩
  | .free o, s' => ∃ h', Returns (fun turns => slobFree c turns s.heap o.1 o.2) h' ∧
      s' = ⟨h', s.live.erase o⟩
  | .store a v, s' => s' = ⟨{ s.heap with mem := Function.update s.heap.mem a v }, s.live⟩

/-- The runs of the allocator; at first no page is one of its pages. -/
def system (c : Config) : System State Event where
  init s := s.live = [] ∧ s.heap.freeSlobPages = [] ∧
    ∀ pg, (s.heap.pages pg).slob = false ∧ (s.heap.pages pg).onList = false
  step _ s e s' := Allowed c s e ∧ Step c s e s'

variable {s s1 s2 : State} {e : Event}

theorem Step.unique (h1 : Step c s e s1) (h2 : Step c s e s2) : s1 = s2 := by
  cases e with
  | alloc onNode page size align =>
    obtain ⟨out1, hrun1, rfl⟩ := h1
    obtain ⟨out2, hrun2, rfl⟩ := h2
    rw [hrun1.unique hrun2]
  | free o =>
    obtain ⟨h1', hrun1, rfl⟩ := h1
    obtain ⟨h2', hrun2, rfl⟩ := h2
    rw [hrun1.unique hrun2]
  | store a v => exact h1.trans h2.symm

/-- **One event.**  It comes to an end, and keeps the invariant. -/
theorem Inv.step (hinv : Inv c s) (he : Allowed c s e) : ∃ s', Step c s e s' ∧ Inv c s' := by
  cases e with
  | alloc onNode page size align =>
    obtain ⟨hsize, ha, hpage⟩ := he
    obtain ⟨out, hrun, hout⟩ := hinv.alloc hsize ha onNode hpage
    exact ⟨_, ⟨out, ⟨c.pageUnits, hrun⟩, rfl⟩, hout.inv⟩
  | free o =>
    obtain ⟨h', hrun, hinv', -⟩ := hinv.free he
    exact ⟨_, ⟨h', ⟨c.pageUnits, hrun⟩, rfl⟩, hinv'⟩
  | store a v => exact ⟨_, rfl, hinv.store he v⟩

theorem inv_of_reach {tr : List Event} (h : (system c).Reach tr s) : Inv c s := by
  refine h.invariant (P := fun _ s => Inv c s) (fun s hinit => ?_) ?_
  · obtain ⟨hlive, hlist, hpages⟩ := hinit
    refine ⟨by rw [hlist]; exact nodup_nil, fun pg => ?_, fun pg => ?_, ?_⟩
    · rw [hlist, (hpages pg).2]
      exact iff_of_false not_mem_nil Bool.false_ne_true
    · have hoff := (hpages pg).1
      refine ⟨?_, fun _ => (hpages pg).2, fun hslob => ?_⟩
      · rw [hoff, hlive]
        exact iff_of_false Bool.false_ne_true fun hne => hne rfl
      · simp [hoff] at hslob
    · rw [hlive]
      exact fun o ho => absurd ho not_mem_nil
  · rintro tr s e s' hinv ⟨hallowed, hstep⟩
    obtain ⟨s'', hstep', hinv'⟩ := hinv.step hallowed
    rw [hstep.unique hstep']
    exact hinv'

/-- What holds of the heap in a state, and of what can be done in it. -/
structure Sound (c : Config) (s : State) : Prop where
  /-- The free list of a page has its free blocks, without overlap and in the order of their
  addresses, up to the end of the page; the page counts their units; and they and the live objects
  make up the page. -/
  partition : ∀ pg, (s.heap.pages pg).slob = true → ∃ bs,
    Points c s.heap pg bs (pg * c.pageUnits + c.pageUnits) ∧
    Ordered (pg * c.pageUnits) (pg * c.pageUnits + c.pageUnits) bs ∧
    (s.heap.pages pg).units = size bs ∧
    Tiles (bs ++ objects c s.live pg) (pg * c.pageUnits, c.pageUnits)
  /-- A page is one of the allocator exactly while it has live objects. -/
  slob : ∀ pg, (s.heap.pages pg).slob = true ↔ objects c s.live pg ≠ []
  /-- The pages with free units are on the list, once. -/
  list : s.heap.freeSlobPages.Nodup ∧ ∀ pg, pg ∈ s.heap.freeSlobPages ↔
    (s.heap.pages pg).slob = true ∧ (s.heap.pages pg).units ≠ 0
  /-- An allocation returns a block with the alignment, or there was no page; it writes to no live
  object. -/
  alloc : ∀ onNode page size align, Allowed c s (.alloc onNode page size align) → ∃ out,
    Returns (fun turns => slobAlloc c turns s.heap onNode page size align) out ∧
    (∀ b, out.1 = some b → Aligned c b align) ∧ (out.1 = none → page = none) ∧
    ∀ u, Held c s.live u → out.2.mem u = s.heap.mem u
  /-- A release returns the page exactly if the object was the last; it writes to no other live
  object. -/
  free : ∀ o ∈ s.live, ∃ h', Returns (fun turns => slobFree c turns s.heap o.1 o.2) h' ∧
    ((h'.pages (o.1 / c.pageUnits)).slob = false ↔
      objects c (s.live.erase o) (o.1 / c.pageUnits) = []) ∧
    ∀ u, Held c (s.live.erase o) u → h'.mem u = s.heap.mem u
  /-- Every event that is allowed comes to an end. -/
  step : ∀ e, Allowed c s e → ∃ s', Step c s e s'

/-- **Main theorem.**  In every state of every run, the live objects and the free blocks make up the
pages. -/
theorem heap_sound {tr : List Event} (h : (system c).Reach tr s) : Sound c s := by
  have hinv := inv_of_reach h
  refine ⟨fun pg hslob => ?_, fun pg => (hinv.pages pg).slob, ⟨hinv.nodup, fun pg => ?_⟩, ?_,
    ?_, ?_⟩
  · obtain ⟨bs, hpart⟩ := (hinv.pages pg).partition hslob
    exact ⟨bs, hpart.points, hpart.ordered, hpart.units, hpart.tiles⟩
  · rw [hinv.mem_list]
    by_cases hslob : (s.heap.pages pg).slob = true
    · obtain ⟨bs, hpart⟩ := (hinv.pages pg).partition hslob
      rw [hpart.onList, hpart.ordered.ne_nil_iff, hpart.units]
      simp [hslob]
    · rw [(hinv.pages pg).off (by simpa using hslob)]
      exact iff_of_false Bool.false_ne_true fun hand => hslob hand.1
  · rintro onNode page size align ⟨hsize, ha, hpage⟩
    obtain ⟨out, hrun, hout⟩ := hinv.alloc hsize ha onNode hpage
    exact ⟨out, ⟨c.pageUnits, hrun⟩, hout.aligned, hout.none, hout.mem⟩
  · intro o ho
    obtain ⟨h', hrun, hinv', hmem⟩ := hinv.free ho
    refine ⟨h', ⟨c.pageUnits, hrun⟩, ?_, hmem⟩
    rw [← Bool.not_eq_true, not_iff_comm]
    exact (hinv'.pages (o.1 / c.pageUnits)).slob.symm
  · intro e he
    obtain ⟨s', hstep, -⟩ := hinv.step he
    exact ⟨s', hstep⟩

/-- Pages of 4096 bytes. -/
def config4k : Config := ⟨12, by decide, by decide⟩

/-- A heap without pages. -/
def emptyHeap : State := ⟨⟨fun _ => 0, fun _ => ⟨false, false, 0, 0⟩, []⟩, []⟩

/-- The theorem applies after an object of 10 bytes, aligned to 8, was allocated in page 3. -/
theorem heap_sound_ten : ∃ s, (system config4k).Reach
    [.alloc (fun _ => true) (some 3) 10 8] s ∧ Sound config4k s := by
  have hinit : (system config4k).Reach [] emptyHeap := .init ⟨rfl, rfl, fun _ => ⟨rfl, rfl⟩⟩
  have hallowed : Allowed config4k emptyHeap (.alloc (fun _ => true) (some 3) 10 8) := by
    refine ⟨by decide, Or.inr ⟨3, rfl⟩, ?_⟩
    rintro pg hpg
    obtain rfl := some.inj hpg
    exact ⟨rfl, by decide⟩
  obtain ⟨s, hstep, -⟩ := (inv_of_reach hinit).step hallowed
  have hreach : (system config4k).Reach [.alloc (fun _ => true) (some 3) 10 8] s :=
    .step hinit ⟨hallowed, hstep⟩
  exact ⟨s, hreach, heap_sound hreach⟩

end Gp2xKernel.Slob
