import Gp2xKernel.Library.Run
import Gp2xKernel.Rwsem.Basic

/-!
# Runs of a reader/writer semaphore

Any number of tasks call the operations in any order; a task that sleeps calls nothing, and a task
releases only what it holds.  The requests are numbered in the order in which they come, and it is
noted which of them are granted at a time.

The semaphore counts its readers in 32 bits with a sign.  As long as the count does not overflow, it
is a fair lock that loses no waiter.

## Main definitions

* `State`, `rwsemSystem`: the semaphore with its holders and the requests granted so far
* `Fair`: what the semaphore promises, `Roomy`: the bound on holders and waiters

## Main results

* `fair_of_reach`: the semaphore keeps its promise
-/

namespace Gp2xKernel.Rwsem

open Library BitVec List

variable {Task : Type}

/-- The semaphore, the tasks that hold it, the requests that were granted, in groups that were
granted by one step, and the number of requests. -/
structure State (Task : Type) where
  sem : RwSemaphore Task
  holders : List (Task × Mode)
  granted : List (List (Waiter Task))
  tickets : ℕ

/-- The calls of a task. -/
inductive Call
  | downRead
  | downReadTrylock
  | downWrite
  | downWriteTrylock
  | upRead
  | upWrite
  | downgradeWrite

namespace State

/-- The semaphore is granted to waiters. -/
def grant (s : State Task) (woken : List (Waiter Task)) (sem : RwSemaphore Task) : State Task :=
  { s with
    sem := sem
    holders := woken.map (fun waiter => (waiter.task, waiter.mode)) ++ s.holders
    granted := s.granted ++ [woken] }

/-- A request is granted at once or has to wait. -/
def request (s : State Task) (waiter : Waiter Task) (r : Bool × RwSemaphore Task) : State Task :=
  if r.1 then { s.grant [waiter] r.2 with tickets := s.tickets + 1 }
  else { s with sem := r.2, tickets := s.tickets + 1 }

/-- A request is granted at once or refused. -/
def attempt (s : State Task) (waiter : Waiter Task) (r : Bool × RwSemaphore Task) : State Task :=
  if r.1 then { s.grant [waiter] r.2 with tickets := s.tickets + 1 } else s

variable [DecidableEq Task]

/-- A task gives up what it holds, and waiters get the semaphore. -/
def release (s : State Task) (held : Task × Mode) (r : List (Waiter Task) × RwSemaphore Task) :
    State Task :=
  { s with holders := s.holders.erase held }.grant r.1 r.2

/-- A call of a task. -/
def call (s : State Task) (t : Task) : Call → State Task
  | .downRead => s.request ⟨t, .read, s.tickets⟩ (downRead s.sem ⟨t, .read, s.tickets⟩)
  | .downReadTrylock => s.attempt ⟨t, .read, s.tickets⟩ (downReadTrylock s.sem)
  | .downWrite => s.request ⟨t, .write, s.tickets⟩ (downWriteNested s.sem ⟨t, .write, s.tickets⟩)
  | .downWriteTrylock => s.attempt ⟨t, .write, s.tickets⟩ (downWriteTrylock s.sem)
  | .upRead => s.release (t, .read) (upRead s.sem)
  | .upWrite => s.release (t, .write) (upWrite s.sem)
  | .downgradeWrite =>
    { s with holders := (t, .read) :: s.holders }.release (t, .write) (downgradeWrite s.sem)

/-- What a task may call: it is not asleep, and it releases what it holds. -/
def May (s : State Task) (t : Task) (c : Call) : Prop :=
  t ∉ s.sem.waitList.map Waiter.task ∧
    match c with
    | .upRead => (t, .read) ∈ s.holders
    | .upWrite | .downgradeWrite => (t, .write) ∈ s.holders
    | _ => True

end State

/-- The runs from a free semaphore, with a condition on the states in which calls are made. -/
def rwsemSystem (Task : Type) [DecidableEq Task] (ok : State Task → Prop) :
    System (State Task) (Task × Call) where
  init s := s = ⟨⟨0, []⟩, [], [], 0⟩
  step _ s e s' := ok s ∧ s.May e.1 e.2 ∧ s' = s.call e.1 e.2

/-- **What the semaphore promises.** -/
structure Fair (s : State Task) : Prop where
  /-- There is one writer and nobody else, and `activity` is -1; or there are readers only, and
  `activity` is their number. -/
  held : (∃ t, s.holders = [(t, .write)] ∧ s.sem.activity.toInt = -1) ∨
    (∀ h ∈ s.holders, h.2 = .read) ∧ s.sem.activity.toInt = s.holders.length
  /-- Nobody waits for a free semaphore. -/
  awake : s.sem.activity.toInt = 0 → s.sem.waitList = []
  /-- Behind readers, a writer waits first. -/
  head : 0 < s.sem.activity.toInt → ∀ w ∈ s.sem.waitList.head?, w.mode = .write
  /-- Every request is granted once or waits, and the requests are granted in the order in which
  they came. -/
  order : (s.granted.flatten ++ s.sem.waitList).map Waiter.ticket = List.range s.tickets
  /-- Only readers are granted together. -/
  together : ∀ group ∈ s.granted, group.length ≤ 1 ∨ ∀ w ∈ group, w.mode = .read

/-- The kernel's bound on holders and waiters, by which the count of the readers cannot overflow in
the next step: there are at most `PID_MAX_LIMIT` tasks, which is far below, and no task requests the
semaphore while it holds it or waits for it. -/
def Roomy (s : State Task) : Prop :=
  s.holders.length + s.sem.waitList.length < 2 ^ 31 - 1

instance (s : State Task) : Decidable (Roomy s) := Nat.decLt _ _

/-! ## The steps -/

variable {s : State Task} {t : Task} {a : BitVec 32}

theorem toInt_add_ofNat {k : ℕ} (hlo : 0 ≤ a.toInt) (hhi : a.toInt + k < 2 ^ 31) :
    (a + BitVec.ofNat 32 k).toInt = a.toInt + k := by
  have hk : (BitVec.ofNat 32 k).toInt = k := by
    rw [toInt_ofNat', Int.bmod_eq_of_le] <;> omega
  rw [toInt_add, Int.bmod_eq_of_le] <;> omega

theorem grantReaders_spec (l : List (Waiter Task)) :
    (grantReaders l).1 ++ (grantReaders l).2 = l ∧ (∀ w ∈ (grantReaders l).1, w.mode = .read) ∧
      ∀ w ∈ (grantReaders l).2.head?, w.mode = .write := by
  induction l with
  | nil => simp [grantReaders]
  | cons waiter rest ih =>
    obtain ⟨happend, hread, hhead⟩ := ih
    rw [grantReaders]
    cases hmode : waiter.mode with
    | read =>
      exact ⟨by simp [happend], by simpa [hmode] using hread, hhead⟩
    | write => simp [hmode]

namespace Fair

theorem init : Fair (⟨⟨0, []⟩, [], [], 0⟩ : State Task) :=
  ⟨Or.inr (by simp), fun _ => rfl, by simp, rfl, by simp⟩

/-- With a count that is not negative, there are readers only. -/
theorem readers (h : Fair s) (hactivity : 0 ≤ s.sem.activity.toInt) :
    (∀ h ∈ s.holders, h.2 = .read) ∧ s.sem.activity.toInt = s.holders.length := by
  rcases h.held with ⟨t, -, hneg⟩ | hread
  · omega
  · exact hread

variable {woken rest : List (Waiter Task)} {w : Waiter Task} {holders : List (Task × Mode)}

section

variable (h : Fair s)
include h

/-- The requests stay in order when the first ones of the list are granted. -/
theorem order_of_split (hlist : woken ++ rest = s.sem.waitList) :
    (((s.granted ++ [woken]).flatten) ++ rest).map Waiter.ticket = List.range s.tickets := by
  rw [← h.order, ← hlist]
  simp

theorem together_of_group (hwoken : woken.length ≤ 1 ∨ ∀ w ∈ woken, w.mode = .read) :
    ∀ group ∈ s.granted ++ [woken], group.length ≤ 1 ∨ ∀ w ∈ group, w.mode = .read := by
  intro group hgroup
  rcases mem_append.mp hgroup with hold | hnew
  · exact h.together group hold
  · rw [mem_singleton.mp hnew]
    exact hwoken

/-- A request is granted at once, when nobody waits. -/
theorem grant_now (hempty : s.sem.waitList = []) {mode : Mode}
    (hheld : (mode = .write ∧ s.holders = [] ∧ a.toInt = -1) ∨
      mode = .read ∧ (∀ h ∈ s.holders, h.2 = .read) ∧ a.toInt = s.holders.length + 1) :
    Fair { s.grant [⟨t, mode, s.tickets⟩] { s.sem with activity := a } with
      tickets := s.tickets + 1 } := by
  have hactivity : a.toInt ≠ 0 := by
    rcases hheld with ⟨-, -, hneg⟩ | ⟨-, -, hpos⟩ <;> omega
  refine ⟨?_, fun hzero => absurd hzero hactivity, ?_, ?_, h.together_of_group (Or.inl (by simp))⟩
  · rcases hheld with ⟨rfl, hnone, hneg⟩ | ⟨rfl, hread, hcount⟩
    · exact Or.inl ⟨t, by simp [State.grant, hnone], hneg⟩
    · refine Or.inr ⟨?_, by simp [State.grant, hcount]⟩
      simpa [State.grant] using hread
  · simp [State.grant, hempty]
  · have horder := h.order
    rw [hempty, append_nil] at horder
    simp [State.grant, hempty, range_succ, horder]

theorem enqueue (hticket : w.ticket = s.tickets)
    (hbusy : s.sem.waitList = [] → s.sem.activity.toInt ≠ 0 ∧
      (0 < s.sem.activity.toInt → w.mode = .write)) :
    Fair { s with
      sem := { s.sem with waitList := s.sem.waitList ++ [w] }, tickets := s.tickets + 1 } := by
  refine ⟨h.held, ?_, ?_, ?_, h.together⟩
  · intro hzero
    exact absurd hzero (hbusy (h.awake hzero)).1
  · intro hpos w' hw'
    cases hlist : s.sem.waitList with
    | nil =>
      rw [hlist] at hw'
      obtain rfl : w = w' := by simpa using hw'
      exact (hbusy hlist).2 hpos
    | cons first rest =>
      have hhead := h.head hpos
      rw [hlist] at hhead hw'
      exact hhead w' (by simpa using hw')
  · rw [← List.append_assoc, List.map_append, h.order, List.range_succ]
    simp [hticket]

theorem wake_readers (hread : ∀ h ∈ holders, h.2 = .read) (hcount : a.toInt = holders.length)
    (hsome : holders = [] → ∃ w rest, s.sem.waitList = w :: rest ∧ w.mode = .read)
    (hroom : holders.length + s.sem.waitList.length < 2 ^ 31) :
    Fair ({ s with holders := holders }.grant (grantReaders s.sem.waitList).1
      ⟨a + BitVec.ofNat 32 (grantReaders s.sem.waitList).1.length,
        (grantReaders s.sem.waitList).2⟩) := by
  obtain ⟨happend, hwoken, hhead⟩ := grantReaders_spec s.sem.waitList
  have hlength := congrArg length happend
  rw [length_append] at hlength
  have hactivity := toInt_add_ofNat (a := a) (k := (grantReaders s.sem.waitList).1.length)
    (by omega) (by omega)
  have hpos : a.toInt + (grantReaders s.sem.waitList).1.length ≠ 0 := by
    rcases eq_nil_or_concat holders with hnil | ⟨rest, last, hconcat⟩
    · obtain ⟨w, rest, hlist, hmode⟩ := hsome hnil
      rw [hlist, grantReaders, if_pos hmode, length_cons]
      omega
    · rw [hconcat, length_concat] at hcount
      omega
  refine ⟨Or.inr ⟨?_, ?_⟩, fun hzero => absurd (hactivity.symm.trans hzero) hpos, fun _ => hhead,
    h.order_of_split happend, h.together_of_group (Or.inr hwoken)⟩
  · intro held hheld
    rcases mem_append.mp hheld with hnew | hold
    · obtain ⟨w, hw, rfl⟩ := mem_map.mp hnew
      exact hwoken w hw
    · exact hread held hold
  · refine hactivity.trans ?_
    simp [State.grant]
    omega

/-- A writer at the front of the list gets the semaphore. -/
theorem wake_writer (hlist : s.sem.waitList = w :: rest) (hmode : w.mode = .write) :
    Fair ({ s with holders := [] }.grant [w] ⟨-1, rest⟩) := by
  have hneg : (-1 : BitVec 32).toInt = -1 := by decide
  refine ⟨Or.inl ⟨w.task, by simp [State.grant, hmode], hneg⟩, ?_, ?_,
    h.order_of_split hlist.symm, h.together_of_group (Or.inl (by simp))⟩
  · exact fun hzero => absurd (hneg.symm.trans hzero) (by decide)
  · exact fun hpos => absurd (hpos.trans_eq hneg) (by decide)

/-- Nobody is woken. -/
theorem release_only (a : BitVec 32) (holders : List (Task × Mode))
    (hread : ∀ h ∈ holders, h.2 = .read) (hcount : a.toInt = holders.length) (hawake : a.toInt = 0 →
    s.sem.waitList = [])
    (hhead : 0 < a.toInt → ∀ w ∈ s.sem.waitList.head?, w.mode = .write) :
    Fair ({ s with holders := holders }.grant [] { s.sem with activity := a }) :=
  ⟨Or.inr ⟨hread, hcount⟩, hawake, hhead, h.order_of_split (nil_append _),
    h.together_of_group (Or.inl (Nat.zero_le _))⟩

/-- `__rwsem_do_wake` with readers as holders: all that remains for a writer is a free semaphore. -/
theorem doWake {wakewrite : Bool} (hread : ∀ h ∈ holders, h.2 = .read)
    (hcount : a.toInt = holders.length) (hwrite : wakewrite = true ↔ holders = [])
    (hsome : s.sem.waitList ≠ []) (hroom : holders.length + s.sem.waitList.length < 2 ^ 31) :
    Fair ({ s with holders := holders }.grant
      (Rwsem.doWake { s.sem with activity := a } wakewrite).1
      (Rwsem.doWake { s.sem with activity := a } wakewrite).2) := by
  obtain ⟨w, rest, hlist⟩ := exists_cons_of_ne_nil hsome
  simp only [Rwsem.doWake, hlist]
  cases hmode : w.mode with
  | write =>
    cases wakewrite with
    | true =>
      obtain rfl := hwrite.mp rfl
      exact h.wake_writer hlist hmode
    | false =>
      have hne : a.toInt ≠ 0 := by
        intro hzero
        have hnil : holders = [] := length_eq_zero_iff.mp (by omega)
        exact Bool.false_ne_true (hwrite.mpr hnil)
      have hkeep := h.release_only a holders hread hcount (fun hzero => absurd hzero hne)
        (by simp [hlist, hmode])
      simpa [hlist] using hkeep
  | read =>
    have hwake := h.wake_readers hread hcount (fun _ => ⟨w, rest, hlist, hmode⟩) hroom
    simpa [hlist] using hwake

end

variable [DecidableEq Task]

section

variable (h : Fair s)
include h

theorem request_read (hroom : Roomy s) :
    Fair (s.call t .downRead) ∧ Fair (s.call t .downReadTrylock) := by
  simp only [State.call, downRead, downReadTrylock, List.isEmpty_iff]
  by_cases hnow : 0 ≤ s.sem.activity.toInt ∧ s.sem.waitList = []
  · obtain ⟨hread, hcount⟩ := h.readers hnow.1
    have hroom' : s.holders.length + s.sem.waitList.length < 2 ^ 31 - 1 := hroom
    have hone := toInt_add_ofNat (k := 1) hnow.1 (by omega)
    have hgrant := h.grant_now (t := t) hnow.2 (Or.inr ⟨rfl, hread, by rw [← hcount]; exact hone⟩)
    simp only [if_pos hnow]
    exact ⟨hgrant, hgrant⟩
  · simp only [if_neg hnow]
    refine ⟨h.enqueue rfl fun hempty => ?_, h⟩
    have hneg : ¬ 0 ≤ s.sem.activity.toInt := fun hle => hnow ⟨hle, hempty⟩
    exact ⟨by omega, fun hpos => absurd hpos.le hneg⟩

theorem request_write : Fair (s.call t .downWrite) ∧ Fair (s.call t .downWriteTrylock) := by
  simp only [State.call, downWriteNested, downWriteTrylock, List.isEmpty_iff]
  by_cases hnow : s.sem.activity = 0 ∧ s.sem.waitList = []
  · have hzero : s.sem.activity.toInt = 0 := by rw [hnow.1]; rfl
    have hnone : s.holders = [] := by
      have hcount := (h.readers hzero.ge).2
      exact length_eq_zero_iff.mp (by omega)
    have hgrant := h.grant_now (t := t) (a := -1) hnow.2 (Or.inl ⟨rfl, hnone, by decide⟩)
    simp only [if_pos hnow]
    exact ⟨hgrant, hgrant⟩
  · simp only [if_neg hnow]
    refine ⟨h.enqueue rfl fun hempty => ⟨fun hzero => hnow ⟨?_, hempty⟩, fun _ => rfl⟩, h⟩
    exact eq_of_toInt_eq hzero

theorem upRead (hheld : (t, .read) ∈ s.holders) : Fair (s.call t .upRead) := by
  obtain ⟨hread, hcount⟩ : (∀ h ∈ s.holders, h.2 = .read) ∧
      s.sem.activity.toInt = s.holders.length := by
    rcases h.held with ⟨t', hwriter, -⟩ | hread
    · simp [hwriter] at hheld
    · exact hread
  have hpos := length_pos_of_mem hheld
  have herase := length_erase_of_mem hheld
  have hread' : ∀ h ∈ s.holders.erase (t, .read), h.2 = .read :=
    fun h hh => hread h (mem_of_mem_erase hh)
  have hone : (s.sem.activity - 1).toInt = s.sem.activity.toInt - 1 := by
    have hlt := s.sem.activity.toInt_lt
    have h1 : (1 : BitVec 32).toInt = 1 := by decide
    rw [toInt_sub, Int.bmod_eq_of_le] <;> omega
  simp only [State.call, State.release, Rwsem.upRead, List.isEmpty_iff]
  split_ifs with hlast
  · -- the last reader: the first waiter is a writer, so it may be woken as one
    obtain ⟨w, rest, hlist⟩ := List.exists_cons_of_ne_nil hlast.2
    have hzero : (s.sem.activity - 1).toInt = 0 := by rw [hlast.1]; rfl
    have hnil : s.holders.erase (t, .read) = [] := length_eq_zero_iff.mp (by omega)
    have hmode := h.head (by omega) w (by rw [hlist]; rfl)
    simp only [hlist, hnil]
    exact h.wake_writer hlist hmode
  · refine h.release_only _ _ hread' (by omega) ?_ (fun hlt => h.head (by omega))
    intro hzero
    by_contra hne
    exact hlast ⟨eq_of_toInt_eq hzero, hne⟩

theorem upWrite (hroom : Roomy s) (hheld : (t, .write) ∈ s.holders) :
    Fair (s.call t .upWrite) ∧ Fair (s.call t .downgradeWrite) := by
  obtain ⟨hwriter, hlen⟩ : s.holders = [(t, .write)] ∧ s.holders.length = 1 := by
    rcases h.held with ⟨t', hwriter, -⟩ | ⟨hread, -⟩
    · rw [hwriter, mem_singleton] at hheld
      rw [hwriter, hheld]
      exact ⟨rfl, rfl⟩
    · exact absurd (hread _ hheld) (by simp)
  have hroom' : s.holders.length + s.sem.waitList.length < 2 ^ 31 - 1 := hroom
  have herase : s.holders.erase (t, .write) = [] := by simp [hwriter]
  have herase' : ((t, .read) :: s.holders).erase (t, .write) = [(t, .read)] := by simp [hwriter]
  simp only [State.call, State.release, Rwsem.upWrite, Rwsem.downgradeWrite, herase, herase',
    List.isEmpty_iff]
  by_cases hempty : s.sem.waitList = []
  · have hfree := h.release_only 0 [] (by simp) rfl (fun _ => hempty) (by simp)
    have hread := h.release_only 1 [(t, .read)] (by simp) rfl (fun _ => hempty) (by simp [hempty])
    exact ⟨by simpa [hempty] using hfree, by simpa [hempty] using hread⟩
  · simp only [hempty]
    exact ⟨h.doWake (by simp) rfl (by simp) hempty (by simp; omega),
      h.doWake (by simp) rfl (by simp) hempty (by simp; omega)⟩

theorem call (hroom : Roomy s) {c : Call} (hmay : s.May t c) : Fair (s.call t c) := by
  cases c with
  | downRead => exact (h.request_read hroom).1
  | downReadTrylock => exact (h.request_read hroom).2
  | downWrite => exact h.request_write.1
  | downWriteTrylock => exact h.request_write.2
  | upRead => exact h.upRead hmay.2
  | upWrite => exact (h.upWrite hroom hmay.2).1
  | downgradeWrite => exact (h.upWrite hroom hmay.2).2

end

end Fair

/-! ## Runs -/

variable [DecidableEq Task]

/-- **The semaphore is fair**, in every run within the kernel's bound on holders and waiters. -/
theorem fair_of_reach {tr : List (Task × Call)} (h : (rwsemSystem Task Roomy).Reach tr s) :
    Fair s := by
  refine System.Reach.invariant (P := fun _ s => Fair s) ?_ ?_ h
  · rintro s rfl
    exact Fair.init
  · rintro tr s e s' hfair ⟨hroom, hmay, rfl⟩
    exact hfair.call hroom hmay

theorem fair_of_reach_writer_waits :
    ∃ s, (rwsemSystem ℕ Roomy).Reach [(1, .downWrite), (0, .downRead)] s ∧
      s.sem.waitList.length = 1 ∧ Fair s := by
  have hread : (rwsemSystem ℕ Roomy).Reach [(0, .downRead)] _ :=
    .step (.init rfl) ⟨by decide, ⟨not_mem_nil, trivial⟩, rfl⟩
  have hwrite := System.Reach.step (e := (1, .downWrite)) hread
    ⟨by decide, ⟨not_mem_nil, trivial⟩, rfl⟩
  exact ⟨_, hwrite, rfl, fair_of_reach hwrite⟩

end Gp2xKernel.Rwsem
