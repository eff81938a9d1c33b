import Gp2xKernel.Filter.Safety

/-!
# The scratch memory is not initialised

`sk_run_filter` does not initialise its scratch memory, and `sk_chk_filter` only checks that
the words a filter uses exist.  Two runs of a filter on one packet go the same way as long as
every word that is loaded was stored before; the first load of a word that was not makes
their registers differ.

## Main definitions

* `Loads`, `Stores`: the word that the next instruction reads or writes.
* `Initialised`: every load of a run reads a word that the run has stored.
* `SameRun`: the runs from two contents of the scratch memory.

## Main results

* `step_agree`: one instruction on states that agree on the words stored so far.
* `skRunFilter_sameRun_iff`: when a run does not depend on the scratch memory.
* `loadFilter_depends`: an accepted filter whose result does.
-/

namespace Gp2xKernel.Filter

open Function

variable {hw : Shifter} {filter : List SockFilter} {flen : ℤ} {skb : SkBuff}
  {mem mem₁ mem₂ : Fin bpfMemwords → BitVec 32} {s s₁ s₂ : State} {n : ℕ}
  {word : Fin bpfMemwords} {known : Set (Fin bpfMemwords)}

/-- The next instruction loads the word. -/
def Loads (filter : List SockFilter) (s : State) (word : Fin bpfMemwords) : Prop :=
  ∃ f, fetch filter s.pc = some f ∧
    (decode f.code = some .ldMem ∨ decode f.code = some .ldxMem) ∧ f.k.toNat = word

/-- The next instruction stores to the word. -/
def Stores (filter : List SockFilter) (s : State) (word : Fin bpfMemwords) : Prop :=
  ∃ f, fetch filter s.pc = some f ∧
    (decode f.code = some .st ∨ decode f.code = some .stx) ∧ f.k.toNat = word

/-- The words that a run has stored within its first `n` instructions. -/
def storedWords (hw : Shifter) (filter : List SockFilter) (flen : ℤ) (skb : SkBuff)
    (mem : Fin bpfMemwords → BitVec 32) (n : ℕ) : Set (Fin bpfMemwords) :=
  { word | ∃ i s, i < n ∧ After hw filter flen skb mem i s ∧ Stores filter s word }

/-- Every load of the run reads a word that the run has stored before. -/
def Initialised (hw : Shifter) (filter : List SockFilter) (flen : ℤ) (skb : SkBuff)
    (mem : Fin bpfMemwords → BitVec 32) : Prop :=
  ∀ n s word, After hw filter flen skb mem n s → Loads filter s word →
    word ∈ storedWords hw filter flen skb mem n

/-- The runs from two contents of the scratch memory return the same, and have the same
registers all the way. -/
structure SameRun (hw : Shifter) (filter : List SockFilter) (flen : ℤ) (skb : SkBuff)
    (mem₁ mem₂ : Fin bpfMemwords → BitVec 32) : Prop where
  result : ∀ turns, skRunFilter hw turns skb filter flen mem₁ =
    skRunFilter hw turns skb filter flen mem₂
  registers : ∀ n s₁ s₂, After hw filter flen skb mem₁ n s₁ → After hw filter flen skb mem₂ n s₂ →
    s₁.pc = s₂.pc ∧ s₁.A = s₂.A ∧ s₁.X = s₂.X

/-! ## One instruction -/

/-- The states agree on the registers and on the known words. -/
structure Agree (known : Set (Fin bpfMemwords)) (s₁ s₂ : State) : Prop where
  pc : s₁.pc = s₂.pc
  A : s₁.A = s₂.A
  X : s₁.X = s₂.X
  mem : ∀ word ∈ known, s₁.mem word = s₂.mem word

/-- The effects are the same, up to words that are not known. -/
inductive AgreeEffect (known : Set (Fin bpfMemwords)) : Effect → Effect → Prop
  | next {s₁ s₂ : State} : Agree known s₁ s₂ → AgreeEffect known (.next s₁) (.next s₂)
  | exit (why : Exit) (value : BitVec 32) : AgreeEffect known (.exit why value) (.exit why value)
  | fault (what : Fault) : AgreeEffect known (.fault what) (.fault what)

section

variable (h : Agree known s₁ s₂)
include h

theorem Agree.continue : AgreeEffect known s₁.continue s₂.continue :=
  .next ⟨congrArg (· + 1) h.pc, h.A, h.X, h.mem⟩

theorem Agree.jump (offset : ℕ) : AgreeEffect known (s₁.jump offset) (s₂.jump offset) := by
  refine Agree.continue ⟨?_, h.A, h.X, h.mem⟩
  rw [h.pc]

theorem Agree.setA (a : BitVec 32) :
    AgreeEffect known (State.continue { s₁ with A := a }) (State.continue { s₂ with A := a }) :=
  Agree.continue ⟨h.pc, rfl, h.X, h.mem⟩

theorem Agree.setX (x : BitVec 32) :
    AgreeEffect known (State.continue { s₁ with X := x }) (State.continue { s₂ with X := x }) :=
  Agree.continue ⟨h.pc, h.A, rfl, h.mem⟩

omit h in
/-- A store makes its word known. -/
theorem Agree.store {a1 a2 : BitVec 32} (h : Agree known s₁ s₂) (ha : a1 = a2)
    (word : Fin bpfMemwords) : AgreeEffect (insert word known)
      (State.continue { s₁ with mem := Function.update s₁.mem word a1 })
      (State.continue { s₂ with mem := Function.update s₂.mem word a2 }) := by
  subst ha
  refine Agree.continue ⟨h.pc, h.A, h.X, fun i hi => ?_⟩
  show update s₁.mem word a1 i = update s₂.mem word a1 i
  by_cases hword : i = word
  · rw [hword, update_self, update_self]
  · rw [update_of_ne hword, update_of_ne hword]
    exact h.mem i (Set.mem_of_mem_insert_of_ne hi hword)

theorem Agree.load (size : Size) (k : BitVec 32) :
    AgreeEffect known (load skb s₁ size k) (load skb s₂ size k) := by
  rw [Filter.load, Filter.load]
  split
  · exact h.setA _
  · rw [ancillary, ancillary]
    split
    · exact h.setA _
    · split
      · exact h.setA _
      · split
        · cases skb.dev with
          | some dev => exact h.setA _
          | none => exact .fault _
        · exact .exit _ _

end

variable {e1 e2 : Effect} {f : SockFilter} {l : Label}

theorem AgreeEffect.mono {known' : Set (Fin bpfMemwords)} (h : AgreeEffect known e1 e2)
    (hsub : known' ⊆ known) : AgreeEffect known' e1 e2 := by
  cases h with
  | next h => exact .next ⟨h.pc, h.A, h.X, fun word hword => h.mem word (hsub hword)⟩
  | exit why value => exact .exit why value
  | fault what => exact .fault what

theorem AgreeEffect.elim (h : AgreeEffect known e1 e2) :
    (∃ t1 t2, e1 = .next t1 ∧ e2 = .next t2 ∧ Agree known t1 t2) ∨
      ((∀ t, e1 ≠ .next t) ∧ e2 = e1) := by
  cases h with
  | next h => exact .inl ⟨_, _, rfl, rfl, h⟩
  | exit | fault => exact .inr ⟨fun _ h => (nomatch h), rfl⟩

/-- The words known after an instruction: a store adds one. -/
def knownAfter (f : SockFilter) (l : Label) (known : Set (Fin bpfMemwords)) :
    Set (Fin bpfMemwords) :=
  match l with
  | .st | .stx => { word | word ∈ known ∨ f.k.toNat = word }
  | _ => known

theorem Agree.operand (h : Agree known s₁ s₂) (src : Src) (f : SockFilter) :
    src.operand f s₁ = src.operand f s₂ := by
  cases src with
  | k => rfl
  | x => exact h.X

theorem exec_agree (h : Agree known s₁ s₂)
    (hload : (l = .ldMem ∨ l = .ldxMem) → ∀ word : Fin bpfMemwords, f.k.toNat = word →
      word ∈ known) :
    AgreeEffect (knownAfter f l known) (exec hw skb f s₁ l) (exec hw skb f s₂ l) := by
  have hsub : ∀ hk : f.k.toNat < bpfMemwords, { word : Fin bpfMemwords |
      word ∈ known ∨ f.k.toNat = word } ⊆ insert ⟨f.k.toNat, hk⟩ known := by
    rintro hk word (hword | hword)
    · exact Set.mem_insert_of_mem _ hword
    · exact Set.mem_insert_iff.mpr (.inl (Fin.ext hword.symm))
  cases l with
  | alu | neg =>
    simp only [exec, h.operand, h.A]
    exact h.setA _
  | div src =>
    cases src with
    | k =>
      simp only [exec, h.A]
      split
      · exact .fault _
      · exact h.setA _
    | x =>
      simp only [exec, h.A, h.X]
      split
      · exact .exit _ _
      · exact Agree.continue ⟨h.pc, rfl, rfl, h.mem⟩
  | ja => exact h.jump _
  | jmp op src =>
    simp only [exec, h.operand, h.A]
    exact h.jump _
  | ldAbs size => exact h.load size _
  | ldInd size =>
    simp only [exec, h.X]
    exact h.load size _
  | ldLen | ldImm => exact h.setA _
  | ldxLen | ldxImm => exact h.setX _
  | ldxMsh =>
    simp only [exec]
    split
    · exact h.setX _
    · exact .exit _ _
  | ldMem =>
    simp only [exec]
    split
    · rw [h.mem _ (hload (.inl rfl) _ rfl)]
      exact h.setA _
    · exact .fault _
  | ldxMem =>
    simp only [exec]
    split
    · rw [h.mem _ (hload (.inr rfl) _ rfl)]
      exact h.setX _
    · exact .fault _
  | tax | txa =>
    simp only [exec, h.A, h.X]
    exact Agree.continue ⟨h.pc, rfl, rfl, h.mem⟩
  | retK => exact .exit _ _
  | retA =>
    simp only [exec, h.A]
    exact .exit _ _
  | st =>
    simp only [exec]
    split
    · rename_i hk
      exact (h.store h.A _).mono (hsub hk)
    · exact .fault _
  | stx =>
    simp only [exec]
    split
    · rename_i hk
      exact (h.store h.X _).mono (hsub hk)
    · exact .fault _

/-- **One instruction** on states that agree, if it loads only words that are known: the words
it stores become known. -/
theorem step_agree (hw : Shifter) (skb : SkBuff) (h : Agree known s₁ s₂)
    (hload : ∀ word, Loads filter s₁ word → word ∈ known) :
    AgreeEffect (known ∪ { word | Stores filter s₁ word }) (step hw filter skb s₁)
      (step hw filter skb s₂) := by
  rw [step, step, ← h.pc]
  cases hf : fetch filter s₁.pc with
  | none => exact .fault _
  | some f =>
    cases hl : decode f.code with
    | none =>
      simp only [hl]
      exact .exit _ _
    | some l =>
      simp only [hl]
      refine (exec_agree h ?_).mono ?_
      · rintro (rfl | rfl) word hword
        · exact hload word ⟨f, hf, .inl hl, hword⟩
        · exact hload word ⟨f, hf, .inr hl, hword⟩
      · rintro word (hword | ⟨f', hf', hl', hk⟩)
        · cases l <;> first | exact hword | exact .inl hword
        · obtain rfl := Option.some.inj (hf.symm.trans hf')
          rw [hl, Option.some.injEq, Option.some.injEq] at hl'
          rcases hl' with rfl | rfl
          · exact .inr hk
          · exact .inr hk

/-- The loop does not go on, or goes on with the same content of the word. -/
def Keeps (word : Fin bpfMemwords) (s : State) : Effect → Prop
  | .next s' => s'.mem word = s.mem word
  | _ => True

theorem keeps_load (size : Size) (k : BitVec 32) : Keeps word s (load skb s size k) := by
  rw [load]
  split
  · rfl
  · rw [ancillary]
    split
    · rfl
    · split
      · rfl
      · split
        · cases skb.dev with
          | some dev => rfl
          | none => trivial
        · trivial

theorem exec_keeps
    (hword : (l = .st ∨ l = .stx) → f.k.toNat ≠ word) : Keeps word s (exec hw skb f s l) := by
  have hupdate : ∀ (hk : f.k.toNat < bpfMemwords) (a : BitVec 32), (l = .st ∨ l = .stx) →
      update s.mem ⟨f.k.toNat, hk⟩ a word = s.mem word := by
    intro hk a hl
    refine update_of_ne ?_ _ _
    rintro rfl
    exact hword hl rfl
  cases l with
  | div src =>
    cases src with
    | k | x =>
      rw [exec]
      split
      · trivial
      · rfl
  | ldAbs size | ldInd size => exact keeps_load size _
  | ldxMsh | ldMem | ldxMem =>
    rw [exec]
    split
    · rfl
    · trivial
  | st =>
    rw [exec]
    split
    · exact hupdate _ _ (.inl rfl)
    · trivial
  | stx =>
    rw [exec]
    split
    · exact hupdate _ _ (.inr rfl)
    · trivial
  | retK | retA => trivial
  | _ => rfl

/-- An instruction leaves the words alone that it does not store to. -/
theorem step_keeps (hw : Shifter) (skb : SkBuff) (hword : ¬ Stores filter s word) :
    Keeps word s (step hw filter skb s) := by
  rw [step]
  cases hf : fetch filter s.pc with
  | none => trivial
  | some f =>
    cases hl : decode f.code with
    | none =>
      simp only [hl]
      trivial
    | some l =>
      simp only [hl]
      refine exec_keeps ?_
      rintro (rfl | rfl) hk
      · exact hword ⟨f, hf, .inl hl, hk⟩
      · exact hword ⟨f, hf, .inr hl, hk⟩

/-! ## Whole runs -/

theorem Agree.afterStep {t1 t2 : State} (hs : After hw filter flen skb mem₁ n s₁)
    (h : Agree (storedWords hw filter flen skb mem₁ n ∪ { word | Stores filter s₁ word }) t1 t2) :
    Agree (storedWords hw filter flen skb mem₁ (n + 1)) t1 t2 := by
  refine ⟨h.pc, h.A, h.X, ?_⟩
  rintro word ⟨i, t, hi, ht, hstore⟩
  refine h.mem word ?_
  rcases Nat.lt_succ_iff_lt_or_eq.mp hi with hi | rfl
  · exact .inl ⟨i, t, hi, ht, hstore⟩
  · exact .inr (ht.unique hs ▸ hstore)

/-- As long as every load is of a word stored before, the run from another content of the
scratch memory goes the same way. -/
theorem After.agree (h : After hw filter flen skb mem₁ n s₁)
    (hinit : ∀ i s word, i < n → After hw filter flen skb mem₁ i s → Loads filter s word →
      word ∈ storedWords hw filter flen skb mem₁ i) (mem₂ : Fin bpfMemwords → BitVec 32) :
    ∃ s₂, After hw filter flen skb mem₂ n s₂ ∧
      Agree (storedWords hw filter flen skb mem₁ n) s₁ s₂ := by
  induction h with
  | start =>
    refine ⟨.start mem₂, .start, rfl, rfl, rfl, ?_⟩
    rintro word ⟨i, s, hi, -⟩
    exact absurd hi (Nat.not_lt_zero i)
  | @step n s s' hs hlt hstep ih =>
    obtain ⟨s₂, hs2, hagree⟩ := ih fun i s word hi => hinit i s word (by omega)
    rcases (step_agree hw skb hagree fun word => hinit n s word (by omega) hs).elim with
      ⟨t1, t2, h1, h2, hnext⟩ | ⟨hno, -⟩
    · obtain rfl := Effect.next.inj (hstep.symm.trans h1)
      exact ⟨t2, hs2.step (hagree.pc ▸ hlt) h2, hnext.afterStep hs⟩
    · exact absurd hstep (hno s')

/-- A word that was not stored holds what it held at the start. -/
theorem After.mem_eq (h : After hw filter flen skb mem n s)
    (hword : word ∉ storedWords hw filter flen skb mem n) : s.mem word = mem word := by
  induction h with
  | start => rfl
  | @step n s s' hs hlt hstep ih =>
    rw [← ih fun ⟨i, t, hi, ht⟩ => hword ⟨i, t, by omega, ht⟩]
    have hkeep := step_keeps hw skb fun hstore => hword ⟨n, s, by omega, hs, hstore⟩
    rw [hstep] at hkeep
    exact hkeep

/-- The results of two runs that go the same way are the same. -/
theorem runLoop_agree (turns : ℕ) (hinit : Initialised hw filter flen skb mem₁)
    (hs : After hw filter flen skb mem₁ n s₁)
    (h : Agree (storedWords hw filter flen skb mem₁ n) s₁ s₂) :
    runLoop hw filter flen skb turns s₁ = runLoop hw filter flen skb turns s₂ := by
  induction turns generalizing n s₁ s₂ with
  | zero => rw [runLoop, runLoop, h.pc]
  | succ turns ih =>
    rw [runLoop, runLoop, ← h.pc]
    by_cases hlt : s₁.pc < flen
    · rw [if_pos hlt, if_pos hlt]
      rcases (step_agree hw skb h fun word => hinit n s₁ word hs).elim with
        ⟨t1, t2, h1, h2, hnext⟩ | ⟨-, heq⟩
      · rw [h1, h2]
        exact ih (hs.step hlt h1) (hnext.afterStep hs)
      · rw [heq]
    · rw [if_neg hlt, if_neg hlt]

theorem After.earlier (h : After hw filter flen skb mem n s) {i : ℕ} (hi : i ≤ n) :
    ∃ t, After hw filter flen skb mem i t := by
  induction h with
  | start =>
    obtain rfl := Nat.le_zero.mp hi
    exact ⟨_, .start⟩
  | step hs hlt hstep ih =>
    rcases Nat.le_succ_iff.mp hi with hi | rfl
    · exact ih hi
    · exact ⟨_, hs.step hlt hstep⟩

/-- A load puts the word into a register. -/
theorem step_loads (hw : Shifter) (skb : SkBuff) (h : Loads filter s word) :
    (∀ t : State, t.pc = s.pc →
      step hw filter skb t = State.continue { t with A := t.mem word }) ∨
    ∀ t : State, t.pc = s.pc →
      step hw filter skb t = State.continue { t with X := t.mem word } := by
  obtain ⟨f, hf, hl, hk⟩ := h
  have hlt : f.k.toNat < bpfMemwords := hk ▸ word.isLt
  obtain rfl : ⟨f.k.toNat, hlt⟩ = word := Fin.ext hk
  refine hl.imp ?_ ?_ <;>
  · intro hl t ht
    rw [← ht] at hf
    rw [step, hf]
    simp only [hl, exec]
    rw [dif_pos hlt]

/-- Runs that do not depend on the scratch memory load only words they have stored. -/
theorem initialised_of_sameRun (hsame : ∀ mem₁ mem₂, SameRun hw filter flen skb mem₁ mem₂)
    (H : Accepted filter flen) : Initialised hw filter flen skb mem := by
  intro n
  induction n using Nat.strong_induction_on with
  | _ n ih =>
    intro s word hs hload
    by_contra hword
    -- a run from a memory that differs in this word
    set mem' := update mem word (mem word + 1) with hmem'
    obtain ⟨s', hs', hagree⟩ := hs.agree (fun i s word hi => ih i hi s word) mem'
    have hword' : word ∉ storedWords hw filter flen skb mem' n := by
      rintro ⟨i, t', hi, ht', f, hf, hstore⟩
      obtain ⟨t, ht⟩ := hs.earlier hi.le
      refine hword ⟨i, t, hi, ht, f, ?_, hstore⟩
      rw [((hsame mem mem').registers i t t' ht ht').1]
      exact hf
    have hne : s.mem word ≠ s'.mem word := by
      rw [hs.mem_eq hword, hs'.mem_eq hword', hmem', update_self]
      bv_omega
    -- the load makes a register differ
    have hlt := (hs.bounds H).2
    rcases step_loads hw skb hload with hstep | hstep
    · have hregs := (hsame mem mem').registers _ _ _ (hs.step hlt (hstep s rfl))
        (hs'.step (hagree.pc ▸ hlt) (hstep s' hagree.pc.symm))
      exact hne hregs.2.1
    · have hregs := (hsame mem mem').registers _ _ _ (hs.step hlt (hstep s rfl))
        (hs'.step (hagree.pc ▸ hlt) (hstep s' hagree.pc.symm))
      exact hne hregs.2.2

/-- Runs that load only words they have stored do not depend on the scratch memory. -/
theorem sameRun_of_initialised (hinit : Initialised hw filter flen skb mem₁)
    (mem₂ : Fin bpfMemwords → BitVec 32) : SameRun hw filter flen skb mem₁ mem₂ := by
  refine ⟨fun turns => ?_, fun n s₁ s₂ h1 h2 => ?_⟩
  · have hstart : After hw filter flen skb mem₁ 0 (.start mem₁) := .start
    obtain ⟨s₂, hs2, hagree⟩ := hstart.agree (fun i _ _ hi => absurd hi (Nat.not_lt_zero i)) mem₂
    obtain rfl := hs2.unique .start
    exact runLoop_agree turns hinit hstart hagree
  · obtain ⟨t2, ht2, hagree⟩ := h1.agree (fun i s word _ => hinit i s word) mem₂
    obtain rfl := ht2.unique h2
    exact ⟨hagree.pc, hagree.A, hagree.X⟩

/-- **When a run depends on the scratch memory.**  The runs of an accepted filter on a packet
return the same and have the same registers all the way, whatever the scratch memory holds at
the start, if and only if they load no word before they store to it. -/
theorem skRunFilter_sameRun_iff (h : skChkFilter filter flen = some .ok) :
    (∀ mem₁ mem₂, SameRun hw filter flen skb mem₁ mem₂) ↔
      ∀ mem, Initialised hw filter flen skb mem := by
  constructor
  · intro hsame mem
    exact initialised_of_sameRun hsame (accepted_of_skChkFilter h)
  · intro hinit mem₁ mem₂
    exact sameRun_of_initialised (hinit mem₁) mem₂

/-- Store the length of the packet, load it again and return it. -/
def storeFilter : List SockFilter :=
  [⟨0x80, 0, 0, 0⟩, ⟨0x02, 0, 0, 3⟩, ⟨0x60, 0, 0, 3⟩, ⟨0x16, 0, 0, 0⟩]

/-- A filter that stores before it loads does not depend on the scratch memory. -/
theorem skRunFilter_sameRun_iff_store :
    SameRun armShifter storeFilter 4 emptySkb (fun _ => 0) fun _ => 1 := by
  refine (skRunFilter_sameRun_iff (by decide)).mpr (fun mem n s word hs hload => ?_) _ _
  obtain ⟨f, hf, hl, hk⟩ := hload
  have h0 : After armShifter storeFilter 4 emptySkb mem 0 ⟨0, 0, 0, mem⟩ := .start
  have h1 : After armShifter storeFilter 4 emptySkb mem 1 ⟨1, 0, 0, mem⟩ := .step h0
    (show (0 : ℤ) < 4 by decide) rfl
  rcases n with _ | _ | n
  · obtain rfl := hs.unique h0
    obtain rfl := Option.some.inj hf
    exact absurd hl (by decide)
  · obtain rfl := hs.unique h1
    obtain rfl := Option.some.inj hf
    exact absurd hl (by decide)
  · -- the second instruction has stored to the only word that is loaded
    refine ⟨1, _, by omega, h1, ⟨0x02, 0, 0, 3⟩, rfl, .inl (by decide), ?_⟩
    have hmem := mem_of_fetch hf
    simp only [storeFilter, List.mem_cons, List.not_mem_nil, or_false] at hmem
    rcases hmem with rfl | rfl | rfl | rfl
    · exact absurd hl (by decide)
    · exact absurd hl (by decide)
    · exact hk
    · exact absurd hl (by decide)

/-- Load a word of the scratch memory and return it. -/
def loadFilter : List SockFilter := [⟨0x60, 0, 0, 0⟩, ⟨0x16, 0, 0, 0⟩]

/-- **A result that depends on the scratch memory.**  The filter is accepted, and returns what
its first word of scratch memory happens to hold. -/
theorem loadFilter_depends :
    skChkFilter loadFilter 2 = some .ok ∧
      skRunFilter armShifter 2 emptySkb loadFilter 2 (fun _ => 0) = some (.exit .ret 0) ∧
      skRunFilter armShifter 2 emptySkb loadFilter 2 (fun _ => 1) = some (.exit .ret 1) :=
  ⟨by decide, rfl, rfl⟩

end Gp2xKernel.Filter
