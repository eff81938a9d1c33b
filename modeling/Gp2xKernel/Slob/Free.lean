import Gp2xKernel.Slob.Alloc

/-!
# Release to a page

`slob_free` puts a block back in the list of the free blocks of its page: in front of them, or
behind the last free block before it, where it is joined with the neighbours it touches.  It writes
to no unit that is neither free nor in the block.

## Main definitions

* `Freed`: a block was put back among the free blocks of a page

## Main results

* `freeLoop_spec`: the search for the free block before the block
* `insertBehind_spec`: the block is put behind it
* `slobFree_spec`: release of a block while the page has others
-/

namespace Gp2xKernel.Slob

open Library Nat Function Heap

variable {c : Config} {mem : ℕ → ℤ} {h : Heap} {pg : ℕ} {pre post : List Block} {b k p n : ℕ}

/-! ## The place of a block -/

/-- **The loop of `slob_free`** finds the last free block before `b`. -/
theorem freeLoop_spec (henc : Encoded mem (pg * c.pageUnits) ((p, n) :: post) (c.stop pg))
    (ho : Ordered (pg * c.pageUnits) (c.stop pg) ((p, n) :: post)) (hp : p ≤ b)
    (hb : b < c.stop pg) :
    ∃ xs p' n' ys, (p, n) :: post = xs ++ (p', n') :: ys ∧ p' ≤ b ∧ b ≤ first ys (c.stop pg) ∧
      ∀ turns, post.length ≤ turns → freeLoop c mem b turns p = some p' := by
  induction post generalizing p n with
  | nil =>
    have hblock : Encoded mem _ ([] ++ (p, n) :: []) _ := henc
    have hnext : slobNext c mem p = c.stop pg := (hblock.block ho).2.1
    refine ⟨[], p, n, [], rfl, hp, hb.le, fun turns _ => ?_⟩
    rw [freeLoop.eq_def, if_neg (by rw [hnext]; omega)]
  | cons d post ih =>
    obtain ⟨q, m⟩ := d
    have hblock : Encoded mem _ ([] ++ (p, n) :: (q, m) :: post) _ := henc
    have hnext : slobNext c mem p = q := (hblock.block ho).2.1
    obtain ⟨hlo, hn, hq, hm, hpost⟩ := ho
    rcases lt_or_ge q b with hlt | hge
    · obtain ⟨xs, p', n', ys, hsplit, hp', hb', hloop⟩ :=
        ih henc.2 ⟨by show _ ≤ q; omega, hm, hpost⟩ hlt.le
      refine ⟨(p, n) :: xs, p', n', ys, by rw [hsplit]; rfl, hp', hb', fun turns hturns => ?_⟩
      obtain ⟨t, rfl⟩ : ∃ t, turns = t + 1 := ⟨turns - 1, by rw [List.length_cons] at hturns; omega⟩
      rw [freeLoop.eq_def, if_pos (by rw [hnext]; exact hlt), hnext]
      exact hloop t (by rw [List.length_cons] at hturns; omega)
    · refine ⟨[], p, n, (q, m) :: post, rfl, hp, hge, fun turns _ => ?_⟩
      rw [freeLoop.eq_def, if_neg (by rw [hnext]; omega)]

/-- The block `b` was made a free block before the blocks `post`, and joined with the first. -/
structure JoinedNext (c : Config) (mem : ℕ → ℤ) (pg : ℕ) (post : List Block) (b k : ℕ)
    (mem' : ℕ → ℤ) (k' : ℕ) (post' : List Block) : Prop where
  encoded : Encoded mem' (pg * c.pageUnits) ((b, k') :: post') (c.stop pg)
  ordered : Ordered b (c.stop pg) ((b, k') :: post')
  cover : ∀ u, cover ((b, k') :: post') u = covers (b, k) u + cover post u
  size : size ((b, k') :: post') = k + size post
  mem : ∀ u, covers (b, k) u = 0 → Library.cover post u = 0 → mem' u = mem u

/-- The block is written before the blocks that follow it. -/
theorem joinedNext_setSlob (henc : Encoded mem (pg * c.pageUnits) post (c.stop pg)) (hk : 0 < k)
    (hlo : pg * c.pageUnits ≤ b) (ho : Ordered (b + k) (c.stop pg) post) :
    JoinedNext c mem pg post b k (setSlob c mem b k (first post (c.stop pg))) k post := by
  obtain ⟨hflo, hfhi⟩ := ho.first_le
  have hstop := c.stop_eq pg
  refine ⟨⟨?_, ?_⟩, ⟨le_rfl, hk, ho⟩, cover_cons _ _, size_cons _ _, fun u hu _ => ?_⟩
  · exact cell_setSlob hk hlo (by omega) (by omega) hfhi (by omega)
  · exact henc.congr ho fun u hu _ => setSlob_of_not_mem (by omega) hk
  · refine setSlob_of_not_mem (fun hmem => ?_) hk
    rw [covers_eq_one hmem.1 hmem.2] at hu
    exact one_ne_zero hu

/-- **The block is joined with the next.** -/
theorem joinNext_spec (hcell : Cell mem (pg * c.pageUnits) p n (first post (c.stop pg)))
    (henc : Encoded mem (pg * c.pageUnits) post (c.stop pg)) (hn : 0 < n)
    (hlo : pg * c.pageUnits ≤ p) (hpb : p + n ≤ b) (hk : 0 < k)
    (ho : Ordered (b + k) (c.stop pg) post) :
    ∃ k' post', JoinedNext c mem pg post b k (joinNext c mem p b k) k' post' := by
  obtain ⟨hflo, hfhi⟩ := ho.first_le
  have hstop := c.stop_eq pg
  have hnext : slobNext c mem p = first post (c.stop pg) :=
    slobNext_eq hn hlo (by omega) (by omega) hcell
  have hlast : slobLast c mem p = true ↔ first post (c.stop pg) = c.stop pg :=
    slobLast_eq hn hlo (by omega) (by omega) hfhi hcell
  rw [joinNext, hnext]
  cases post with
  | nil =>
    -- there is no next block
    have htrue : slobLast c mem p = true := hlast.mpr rfl
    rw [if_neg (by rw [htrue]; simp)]
    exact ⟨k, [], joinedNext_setSlob henc hk (by omega) ho⟩
  | cons d post =>
    obtain ⟨q, m⟩ := d
    by_cases htouch : slobLast c mem p = false ∧ (b : ℤ) + k = first ((q, m) :: post) (c.stop pg)
    · obtain rfl : b + k = q := by exact_mod_cast htouch.2
      obtain ⟨-, hm, hpost⟩ := ho
      obtain ⟨hglo, hghi⟩ := hpost.first_le
      have hqm : slobUnits mem (b + k) = m := slobUnits_eq henc.1 hm (by omega)
      have hqnext : slobNext c mem (b + k) = first post (c.stop pg) :=
        slobNext_eq hm (by omega) (by omega) (by omega) henc.1
      have hsum : c.slobidx ((k : ℤ) + m) = (k + m : ℕ) := by
        rw [c.slobidx_eq (by omega) (by omega), cast_add]
      rw [if_pos htouch, first, hqm, hqnext, hsum]
      have hjoin := joinedNext_setSlob (b := b) (k := k + m) henc.2 (by omega) (by omega)
        (by rwa [← add_assoc])
      refine ⟨k + m, post, hjoin.encoded, hjoin.ordered, fun u => ?_, ?_, fun u hu hu' => ?_⟩
      · rw [hjoin.cover, covers_split, cover_cons, add_assoc]
      · rw [hjoin.size, size_cons, add_assoc]
      · rw [cover_cons] at hu'
        refine hjoin.mem u ?_ (by omega)
        rw [covers_split]
        omega
    · rw [if_neg htouch]
      exact ⟨k, (q, m) :: post, joinedNext_setSlob henc hk (by omega) ho⟩

/-- The block `b` was put behind the free block `(p, n)`: the free blocks are now `bs'`. -/
structure Inserted (c : Config) (mem : ℕ → ℤ) (pg : ℕ) (bs : List Block) (b k : ℕ)
    (mem' : ℕ → ℤ) (bs' : List Block) : Prop where
  first : first bs' (c.stop pg) = first bs (c.stop pg)
  encoded : Encoded mem' (pg * c.pageUnits) bs' (c.stop pg)
  ordered : Ordered (pg * c.pageUnits) (c.stop pg) bs'
  cover : ∀ u, cover bs' u = cover bs u + covers (b, k) u
  size : size bs' = size bs + k
  mem : ∀ u, Library.cover bs u = 0 → covers (b, k) u = 0 → mem' u = mem u

/-- **The block is put behind the free block before it.** -/
theorem insertBehind_spec
    (henc : Encoded mem (pg * c.pageUnits) (pre ++ (p, n) :: post) (c.stop pg))
    (ho : Ordered (pg * c.pageUnits) (c.stop pg) (pre ++ (p, n) :: post)) (hk : 0 < k)
    (hpb : p + n ≤ b) (hbk : Ordered (b + k) (c.stop pg) post) :
    ∃ bs', Inserted c mem pg (pre ++ (p, n) :: post) b k (insertBehind c mem p b k) bs' := by
  obtain ⟨hpre, hn, hpost⟩ := ordered_append.mp ho
  obtain ⟨hencpre, hcell, hencpost⟩ := encoded_append.mp henc
  have hlo := hpre.le
  obtain ⟨hflo, hfhi⟩ := hbk.first_le
  have hstop := c.stop_eq pg
  simp only at hpre hn hpost hlo hcell
  obtain ⟨k', post', hjoin⟩ := joinNext_spec hcell hencpost hn hlo hpb hk hbk
  obtain ⟨-, hk', hpost'⟩ := hjoin.ordered
  obtain ⟨hglo, hghi⟩ := hpost'.first_le
  -- the blocks before are as they were
  have hbefore : ∀ u, u < b → joinNext c mem p b k u = mem u := by
    intro u hu
    exact hjoin.mem u (covers_eq_zero (by omega)) (hbk.cover_eq_zero (Or.inl (by omega)))
  have hpcell : Cell (joinNext c mem p b k) (pg * c.pageUnits) p n (first post (c.stop pg)) :=
    hcell.congr fun u _ hu => hbefore u (by omega)
  have hpn : slobUnits (joinNext c mem p b k) p = n := slobUnits_eq hpcell hn (by omega)
  have hbk' : slobUnits (joinNext c mem p b k) b = k' := slobUnits_eq hjoin.encoded.1 hk' (by omega)
  have hbnext : slobNext c (joinNext c mem p b k) b = first post' (c.stop pg) :=
    slobNext_eq hk' (by omega) (by omega) (by omega) hjoin.encoded.1
  -- the block joined with the one before it, or behind it
  obtain ⟨w, rest, hw, hrest, hord, hwcover, hwsize, hwrite⟩ : ∃ w rest, 0 < w ∧
      Encoded (joinNext c mem p b k) (pg * c.pageUnits) rest (c.stop pg) ∧
      Ordered (p + w) (c.stop pg) rest ∧
      (∀ u, covers (p, w) u + cover rest u = covers (p, n) u + cover ((b, k') :: post') u) ∧
      w + size rest = n + size ((b, k') :: post') ∧
      insertBehind c mem p b k = setSlob c (joinNext c mem p b k) p w (first rest (c.stop pg)) := by
    rw [insertBehind, hpn, hbk', hbnext]
    by_cases htouch : (p : ℤ) + n = b
    · obtain rfl : p + n = b := by exact_mod_cast htouch
      have hsum : c.slobidx ((k' : ℤ) + n) = (n + k' : ℕ) := by
        rw [c.slobidx_eq (by omega) (by omega), cast_add, Int.add_comm]
      refine ⟨n + k', post', by omega, hjoin.encoded.2, by rwa [← add_assoc], fun u => ?_, ?_, ?_⟩
      · rw [covers_split, cover_cons, add_assoc]
      · rw [size_cons, add_assoc]
      · rw [if_pos htouch, hsum]
    · refine ⟨n, (b, k') :: post', hn, hjoin.encoded, ⟨hpb, hk', hpost'⟩, fun u => rfl, rfl, ?_⟩
      rw [if_neg htouch]
      rfl
  have hjoined := joinedNext_setSlob hrest hw hlo hord
  rw [← hwrite] at hjoined
  have hcover : ∀ u, cover (pre ++ (p, w) :: rest) u =
      cover (pre ++ (p, n) :: post) u + covers (b, k) u := by
    intro u
    have := hwcover u
    have := hjoin.cover u
    simp only [cover_append, cover_cons] at *
    omega
  refine ⟨pre ++ (p, w) :: rest, by rw [first_append, first_append]; rfl,
    encoded_append.mpr ⟨?_, hjoined.encoded⟩,
    ordered_append.mpr ⟨hpre, hw, hord⟩, hcover, ?_, fun u hu hu' => ?_⟩
  · refine hencpre.congr hpre fun u _ hu => ?_
    rw [hwrite, setSlob_of_not_mem (by omega) hw]
    exact hbefore u (by omega)
  · have := hjoin.size
    simp only [size_append, size_cons] at *
    omega
  · have hzero := hcover u
    simp only [cover_append, cover_cons] at hzero hu
    exact (hjoined.mem u (by omega) (by omega)).trans (hjoin.mem u hu' (by omega))

/-! ## Release -/

/-- A block was put back among the free blocks of a page: these are now `bs'`. -/
structure Freed (c : Config) (h : Heap) (pg : ℕ) (bs : List Block) (b k : ℕ) (h' : Heap)
    (bs' : List Block) : Prop where
  points : Points c h' pg bs' (c.stop pg)
  ordered : Ordered (pg * c.pageUnits) (c.stop pg) bs'
  cover : ∀ u, cover bs' u = cover bs u + covers (b, k) u
  size : size bs' = size bs + k
  slob : (h'.pages pg).slob = (h.pages pg).slob
  units : (h'.pages pg).units = (h.pages pg).units + k
  onList : (h'.pages pg).onList = true
  list : h'.freeSlobPages = if (h.pages pg).onList then h.freeSlobPages else pg :: h.freeSlobPages
  others : ∀ pg', pg' ≠ pg → h'.pages pg' = h.pages pg'
  mem : ∀ u, Library.cover bs u = 0 → covers (b, k) u = 0 → h'.mem u = h.mem u

/-- A block that does not overlap the blocks that start behind it ends before them. -/
theorem ordered_behind {lo hi : ℕ} {ys : List Block} (ho : Ordered lo hi ys)
    (hfirst : b ≤ first ys hi)
    (hbk : b + k ≤ hi) (hapart : ∀ x ∈ ys, x.1 + x.2 ≤ b ∨ b + k ≤ x.1) :
      Ordered (b + k) hi ys := by
  cases ys with
  | nil => exact hbk
  | cons x ys =>
    obtain ⟨-, hpos, hys⟩ := ho
    have hb : b ≤ x.1 := hfirst
    rcases hapart x (List.mem_cons_self ..) with hle | hle
    · omega
    · exact ⟨hle, hpos, hys⟩

section

variable {bs : List Block}

theorem freeOnly_spec (hk : 0 < k) (hunits : (h.pages pg).units = 0)
    (honList : (h.pages pg).onList = false) (hlo : pg * c.pageUnits ≤ b) (hhi : b + k ≤ c.stop pg) :
    Freed c h pg [] b k (freeOnly c h pg b k) [(b, k)] := by
  have hstop := c.stop_eq pg
  have hend : c.base (b + c.pageUnits) = c.stop pg := by
    have hlo' : (pg + 1) * c.pageUnits ≤ b + c.pageUnits := by
      rw [succ_mul]
      omega
    rw [c.base_eq hlo' (by rw [succ_mul]; omega), succ_mul, hstop]
  have henc : Encoded h.mem (pg * c.pageUnits) [] (c.stop pg) := trivial
  have hjoined := joinedNext_setSlob henc hk hlo hhi
  have hpage : (freeOnly c h pg b k).pages pg =
      { h.pages pg with onList := true, units := k, free := b } := by
    show update (update h.pages pg _) pg _ pg = _
    rw [update_self]
    show { update h.pages pg _ pg with onList := true } = _
    rw [update_self]
  have hmem : (freeOnly c h pg b k).mem = setSlob c h.mem b k (c.stop pg) := by
    rw [← hend]
    rfl
  refine ⟨⟨by rw [hpage]; rfl, by rw [hmem]; exact hjoined.encoded⟩,
    hjoined.ordered.mono hlo le_rfl,
    fun u => by rw [hjoined.cover, add_comm], by rw [hjoined.size, add_comm], by rw [hpage], ?_,
    by rw [hpage], by rw [honList]; rfl, fun pg' hne => ?_, fun u hu hu' => ?_⟩
  · rw [hpage, hunits, Int.zero_add]
  · exact (setPage_of_ne _ _ hne).trans (h.setPage_of_ne _ hne)
  · rw [hmem]
    exact hjoined.mem u hu' hu

/-- **The block goes to its place among the free blocks.** -/
theorem reinsert_spec (hk : 0 < k) (hp : Points c h pg bs (c.stop pg))
    (ho : Ordered (pg * c.pageUnits) (c.stop pg) bs) (hunits : (h.pages pg).units = size bs)
    (honList : (h.pages pg).onList = true) (hne : bs ≠ []) (hlo : pg * c.pageUnits ≤ b)
    (hhi : b + k ≤ c.stop pg) (hapart : ∀ x ∈ bs, x.1 + x.2 ≤ b ∨ b + k ≤ x.1)
    (hroom : size bs + k ≤ c.pageUnits) :
    ∃ h' bs', (∀ turns, c.pageUnits ≤ turns → reinsert c turns h pg b k = some h') ∧
      Freed c h pg bs b k h' bs' := by
  have hidx : c.slobidx ((h.pages pg).units + k) = (h.pages pg).units + k :=
    c.slobidx_eq (by omega) (by omega)
  have hpage : (h.setPage pg { h.pages pg with units := (h.pages pg).units + k }).pages pg =
      { h.pages pg with units := (h.pages pg).units + k } := update_self ..
  have hturn : ∀ turns, reinsert c turns h pg b k = if b < (h.pages pg).free then
        some ({ h.setPage pg { h.pages pg with units := (h.pages pg).units + k } with
          mem := setSlob c h.mem b k (h.pages pg).free }.setPage pg
          { h.pages pg with units := (h.pages pg).units + k, free := b })
      else (freeLoop c h.mem b turns (h.pages pg).free).map fun prev =>
        { h.setPage pg { h.pages pg with units := (h.pages pg).units + k } with
          mem := insertBehind c h.mem prev b k } := by
    intro turns
    simp only [reinsert, hidx, hpage]
    rfl
  rw [hp.free] at hturn
  by_cases hfront : b < first bs (c.stop pg)
  · have hord := ordered_behind ho hfront.le hhi hapart
    have hjoined := joinedNext_setSlob hp.encoded hk hlo hord
    refine ⟨_, (b, k) :: bs, fun turns _ => (hturn turns).trans (if_pos hfront),
      ⟨?_, hjoined.encoded⟩, hjoined.ordered.mono hlo le_rfl,
      fun u => by rw [hjoined.cover, add_comm], by rw [hjoined.size, add_comm],
      ?_, ?_, ?_, by rw [honList]; rfl, fun pg' hne => ?_, fun u hu hu' => hjoined.mem u hu' hu⟩
    · rw [setPage_self]
      rfl
    · rw [setPage_self]
    · rw [setPage_self]
    · rw [setPage_self]
      exact honList
    · exact (setPage_of_ne _ _ hne).trans (h.setPage_of_ne _ hne)
  · obtain ⟨⟨p, n⟩, post, rfl⟩ := List.exists_cons_of_ne_nil hne
    obtain ⟨xs, p', n', ys, hsplit, hp', hb', hloop⟩ :=
      freeLoop_spec hp.encoded ho (not_lt.mp hfront) (by omega)
    have hlen : post.length ≤ c.pageUnits := by
      have hlen := ho.length_le
      rw [List.length_cons] at hlen
      omega
    have hturn' : ∀ turns, c.pageUnits ≤ turns → reinsert c turns h pg b k =
        some { h.setPage pg { h.pages pg with units := (h.pages pg).units + k } with
          mem := insertBehind c h.mem p' b k } := by
      intro turns hturns
      rw [hturn, if_neg hfront]
      show (freeLoop c h.mem b turns p).map _ = _
      rw [hloop turns (hlen.trans hturns)]
      rfl
    rw [hsplit] at hp ho hapart ⊢
    obtain ⟨-, -, hys⟩ := ordered_append.mp ho
    have hpb : p' + n' ≤ b := by
      rcases hapart (p', n') (by simp) with hle | hle
      · exact hle
      · exact absurd hle (by show ¬b + k ≤ p'; omega)
    have hord : Ordered (b + k) (c.stop pg) ys :=
      ordered_behind hys hb' hhi fun x hx => hapart x (by simp [hx])
    obtain ⟨bs', hins⟩ := insertBehind_spec hp.encoded ho hk hpb hord
    refine ⟨_, bs', hturn', ⟨?_, hins.encoded⟩, hins.ordered, hins.cover, hins.size, ?_, ?_, ?_,
      by rw [honList]; rfl, fun pg' hne => h.setPage_of_ne _ hne, hins.mem⟩
    · show ((h.setPage pg _).pages pg).free = _
      rw [setPage_self, hins.first]
      exact hp.free
    · show ((h.setPage pg _).pages pg).slob = _
      rw [setPage_self]
    · show ((h.setPage pg _).pages pg).units = _
      rw [setPage_self]
    · show ((h.setPage pg _).pages pg).onList = true
      rw [setPage_self]
      exact honList

end

/-- **`slob_free`** of a block of a page that has other live blocks. -/
theorem slobFree_spec {bs : List Block} {size : ℕ} (hsize : 0 < size)
    (hp : Points c h pg bs (c.stop pg)) (ho : Ordered (pg * c.pageUnits) (c.stop pg) bs)
    (hunits : (h.pages pg).units = Library.size bs)
    (honList : (h.pages pg).onList = true ↔ bs ≠ []) (hlo : pg * c.pageUnits ≤ b)
    (hhi : b + c.slobUnits size ≤ c.stop pg)
    (hapart : ∀ x ∈ bs, x.1 + x.2 ≤ b ∨ b + c.slobUnits size ≤ x.1)
    (hroom : Library.size bs + c.slobUnits size < c.pageUnits) :
    ∃ h' bs', (∀ turns, c.pageUnits ≤ turns → slobFree c turns h b size = some h') ∧
      Freed c h pg bs b (c.slobUnits size) h' bs' := by
  have hk : 0 < c.slobUnits size := c.slobUnits_pos hsize
  have hstop := c.stop_eq pg
  have hpg : b / c.pageUnits = pg := Nat.div_eq_of_lt_le hlo (by rw [Nat.succ_mul]; omega)
  have hidx : c.slobidx (c.slobUnits size) = c.slobUnits size := c.slobidx_eq (by omega) (by omega)
  have hturn : ∀ turns, slobFree c turns h b size =
      if (h.pages pg).onList = false then some (freeOnly c h pg b (c.slobUnits size))
      else reinsert c turns h pg b (c.slobUnits size) := by
    intro turns
    simp only [slobFree, hpg, hidx]
    rw [if_neg hsize.ne', if_neg (by omega)]
  by_cases hnil : bs = []
  · subst hnil
    have hoff : (h.pages pg).onList = false := by
      rw [← Bool.not_eq_true, honList]
      exact fun hne => hne rfl
    exact ⟨_, _, fun turns _ => (hturn turns).trans (if_pos hoff),
      freeOnly_spec hk hunits hoff hlo hhi⟩
  · have hon : (h.pages pg).onList = true := honList.mpr hnil
    obtain ⟨h', bs', hout, hfreed⟩ :=
      reinsert_spec hk hp ho hunits hon hnil hlo hhi hapart hroom.le
    refine ⟨h', bs', fun turns hturns => ?_, hfreed⟩
    rw [hturn, if_neg (by rw [hon]; simp)]
    exact hout turns hturns

end Gp2xKernel.Slob
