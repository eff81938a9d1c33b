import Gp2xKernel.Library.Run
import Gp2xKernel.Library.Turns
import Gp2xKernel.ResourceTree.Operations

/-!
# Runs of the resource tree

The users of a tree prepare descriptors outside of it and call the seven operations in any
order.  `adjust_resource` is the one operation that does not refuse a reversed range, and no
operation looks at the children that a new descriptor brings along: in a run that is careful
about these two things the tree stays in order.

## Main definitions

* `Call`, `perform`: the calls and their effect.
* `InTree`, `WellFormed`: the resources of the tree, and what is required of them.
* `Legal`, `Careful`: valid descriptors, and ranges that keep the order.

## Main results

* `resourceTree_wellFormed`: a careful run keeps the tree well formed, and a call that fails
  leaves it as it was.
* `adjustResource_reversed`: a call of `adjust_resource` with size 0 does not.
-/

namespace Gp2xKernel.ResourceTree

open Library List LinkedTree

variable {α : Type} {w : ℕ} [DecidableEq α]

variable {p : Option α} {s : Resources α w}

/-! ## Calls -/

/-- The calls of the users of the tree.  `write` stands for everything that happens to the
descriptors outside of the tree, where the users fill them in. -/
inductive Call (α : Type) (w : ℕ)
  | write (a : α) (r : Option (Resource α w))
  | requestResource (root new : α)
  | insertResource (parent new : α)
  | allocateResource (root new : α) (size min max alignment : BitVec w)
      (alignf : Option (AlignFn α w))
  | releaseResource (old : α)
  | adjustResource (res : α) (start size : BitVec w)
  | requestRegion (parent : α) (start n : BitVec w) (alloc : Option α)
  | releaseRegion (parent : α) (start n : BitVec w)

/-- The effect of a call, and whether it reports success. -/
def perform (turns : ℕ) (m : Mem α w) : Call α w → Option (Mem α w × Bool)
  | .write a r => some (m.set a r, true)
  | .requestResource root new =>
    (requestResource turns m root new).map fun out => (out.1, decide (out.2 = .ok))
  | .insertResource parent new =>
    (insertResource turns m parent new).map fun out => (out.1, decide (out.2 = .ok))
  | .allocateResource root new size min max alignment alignf =>
    (allocateResource turns m root new size min max alignment alignf).map fun out =>
      (out.1, decide (out.2 = .ok))
  | .releaseResource old =>
    (releaseResource turns m old).map fun out => (out.1, decide (out.2 = .ok))
  | .adjustResource res start size =>
    (adjustResource turns m res start size).map fun out => (out.1, decide (out.2 = .ok))
  | .requestRegion parent start n alloc =>
    (requestRegion turns m parent start n alloc).map fun out => (out.1, out.2.isSome)
  | .releaseRegion parent start n => releaseRegion turns m parent start n

/-! ## The system -/

/-- The resources of the tree: those that pointers lead to from the root. -/
inductive InTree (m : Mem α w) (root : α) : α → Prop
  | root : InTree m root root
  | child {a b : α} {r : Resource α w} :
      InTree m root a → m a = some r → r.child = some b → InTree m root b
  | sibling {a b : α} {r : Resource α w} :
      InTree m root a → m a = some r → r.sibling = some b → InTree m root b

/-- Memory holds the descriptor `new` with its children. -/
def Brings (m : Mem α w) (new : α) (n : Attr w) (c : Resources α w) : Prop :=
  (∃ p s, m new = some (n.cell p c.addr? s)) ∧ Holds m (some new) c

/-- The descriptor `new` and its children are outside of the tree. -/
def Detached (m : Mem α w) (root new : α) : Prop :=
  ∃ n c, Brings m new n c ∧ (new :: c.addrs).Nodup ∧ ∀ b ∈ new :: c.addrs, ¬ InTree m root b

/-- The descriptors that the call is given are what they should be: the new ones are outside
of the tree, all others are in it, only the root is never released or adjusted, and
`kzalloc` returns memory that is not in use. -/
def Legal (m : Mem α w) (root : α) : Call α w → Prop
  | .write a _ => ¬ InTree m root a
  | .requestResource parent new => InTree m root parent ∧ Detached m root new
  | .insertResource parent new => InTree m root parent ∧ Detached m root new
  | .allocateResource parent new .. => InTree m root parent ∧ Detached m root new
  | .releaseResource old => InTree m root old ∧ old ≠ root
  | .adjustResource res .. => InTree m root res ∧ res ≠ root
  | .requestRegion parent _ _ alloc => InTree m root parent ∧ ∀ a ∈ alloc, m a = none
  | .releaseRegion parent .. => InTree m root parent

/-- The range given to `adjust_resource` is not reversed, and a new descriptor brings no
children along, or children in order inside its range. -/
def Careful (m : Mem α w) : Call α w → Prop
  | .requestResource _ new => ∀ n c, Brings m new n c → Ordered n.start.toNat n.stop.toNat c
  | .insertResource _ new => ∀ n c, Brings m new n c → Ordered n.start.toNat n.stop.toNat c
  | .allocateResource _ new .. => ∀ r, m new = some r → r.child = none
  | .adjustResource _ start size => start ≤ start + size - 1
  | _ => True

/-- A tree that starts as a root without children, and its users, who make calls that are
legal and allowed. -/
def system (root : α) (Allowed : Mem α w → Call α w → Prop) : System (Mem α w) (Call α w) where
  init m := ∃ v : Attr w, m root = some (v.cell none none none) ∧ v.start ≤ v.stop
  step _ m call m' := Legal m root call ∧ Allowed m call ∧
    ∃ ok, Returns (fun turns => perform turns m call) (m', ok)

/-- The list of siblings that starts at a pointer. -/
def Siblings (m : Mem α w) : Option α → List (α × Resource α w) → Prop
  | none, l => l = []
  | some _, [] => False
  | some a, (b, r) :: l => a = b ∧ m a = some r ∧ Siblings m r.sibling l

/-- What is required of the tree. -/
structure WellFormed (m : Mem α w) (root : α) : Prop where
  range : ∀ a, InTree m root a → ∃ r, m a = some r ∧ r.start ≤ r.stop
  inside : ∀ a r, InTree m root a → m a = some r → a ≠ root →
    ∃ p q, r.parent = some p ∧ InTree m root p ∧ m p = some q ∧ q.start ≤ r.start ∧ r.stop ≤ q.stop
  children : ∀ a r, InTree m root a → m a = some r →
    ∃ l, Siblings m r.child l ∧ (∀ x ∈ l, x.2.parent = some a) ∧
      l.Pairwise fun x y => x.2.stop < y.2.start

/-! ## The tree in memory -/

variable {m m' : Mem α w} {root a : α} {v : Attr w} {c : Resources α w} {lo hi : ℕ}

omit [DecidableEq α] in
theorem mem_tree_of_inTree (H : Tree m (.node c root v .nil)) (h : InTree m root a) :
    a ∈ (LinkedTree.node c root v .nil).addrs := by
  induction h with
  | root => simp
  | child _ hr hb ih | sibling _ hr hb ih =>
    obtain ⟨k, l, u, s, heq⟩ := exists_plug_of_mem ih
    have hcell := Tree.cell (heq ▸ H)
    obtain rfl := Option.some.inj (hr.symm.trans hcell)
    rw [heq, mem_addrs_plug]
    exact .inl (by simp [addr?_mem hb])

omit [DecidableEq α] in
theorem inTree_of_holds (hs : Holds m p s) (hfirst : ∀ b, s.addr? = some b → InTree m root b)
    (ha : a ∈ s.addrs) : InTree m root a := by
  induction s generalizing p with
  | nil => simp at ha
  | node c b u s ihc ihs =>
    obtain ⟨hb, hc, hs⟩ := hs
    have hin := hfirst b rfl
    rcases (mem_addrs_join .left c s b a u).mp ha with rfl | ha | ha
    · exact hin
    · exact ihc hc (fun d hd => .child hin hb hd) ha
    · exact ihs hs (fun d hd => .sibling hin hb hd) ha

omit [DecidableEq α] in
/-- The resources of the tree in memory are those of the model. -/
theorem inTree_iff (H : Tree m (.node c root v .nil)) :
    InTree m root a ↔ a ∈ (LinkedTree.node c root v .nil).addrs := by
  refine ⟨mem_tree_of_inTree H, inTree_of_holds H.holds fun b hb => ?_⟩
  obtain rfl : root = b := by simpa using hb
  exact .root

omit [DecidableEq α] in
/-- A position in the tree is the root, or its outermost frame is that of the root. -/
theorem bottom_of_plug {k : List (Frame α (Attr w))} {c0 s0 : Resources α w} {u : Attr w}
    (h : .node c root v .nil = plug k (.node c0 a u s0)) :
    (k = [] ∧ a = root ∧ u = v ∧ s0 = .nil) ∨ k.getLast? = some ⟨.left, root, v, .nil⟩ := by
  rcases eq_nil_or_concat k with rfl | ⟨l, f, rfl⟩
  · obtain ⟨-, rfl, rfl, rfl⟩ := node.inj h
    exact .inl ⟨rfl, rfl, rfl, rfl⟩
  · refine .inr ?_
    rw [concat_eq_append, plug_append] at h
    rw [concat_eq_append, getLast?_concat]
    rcases f with ⟨_ | _, b, u', s'⟩
    · obtain ⟨-, rfl, rfl, rfl⟩ := node.inj h
      rfl
    · -- the root has no siblings
      obtain ⟨-, -, -, hnil⟩ := node.inj h
      have hlen := congrArg (fun t => t.addrs.length) hnil
      simp only [length_addrs_plug, addrs_nil, addrs_node, length_nil,
        length_append, length_cons] at hlen
      omega

/-- A tree in order with the given root. -/
abbrev Kept (root : α) (v : Attr w) (m : Mem α w) : Prop :=
  Outcome ⟨.left, root, v, .nil⟩ 0 (2 ^ w) True m

section Positions

omit [DecidableEq α]

section

variable (H : Tree m (.node c root v .nil))
include H

theorem InTree.position (h : InTree m root a) :
    ∃ k c0 u s0, .node c root v .nil = plug k (.node c0 a u s0) ∧
      (⟨.left, a, u, s0⟩ :: k).getLast? = some ⟨.left, root, v, .nil⟩ := by
  obtain ⟨k, c0, u, s0, heq⟩ := exists_plug_of_mem ((inTree_iff H).mp h)
  refine ⟨k, c0, u, s0, heq, ?_⟩
  rcases bottom_of_plug heq with ⟨rfl, rfl, rfl, rfl⟩ | hk
  · rfl
  · obtain ⟨f, k', rfl⟩ := exists_cons_of_ne_nil (l := k) (by rintro rfl; simp at hk)
    exact hk

theorem InTree.position_below (h : InTree m root a)
    (hne : a ≠ root) : ∃ k c0 u s0, .node c root v .nil = plug k (.node c0 a u s0) ∧
      k.getLast? = some ⟨.left, root, v, .nil⟩ := by
  obtain ⟨k, c0, u, s0, heq, -⟩ := h.position H
  refine ⟨k, c0, u, s0, heq, ?_⟩
  rcases bottom_of_plug heq with ⟨-, rfl, -⟩ | hk
  · exact absurd rfl hne
  · exact hk

theorem Detached.spare (h : Detached m root a) :
    ∃ n c', Brings m a n c' ∧ Spare m (.node c root v .nil) a n c' := by
  obtain ⟨n, c', hbrings, hnd, hout⟩ := h
  obtain ⟨hnot, hnd⟩ := nodup_cons.mp hnd
  refine ⟨n, c', hbrings, hbrings.1, hbrings.2, hnd, hnot, ?_, fun b hb => ?_⟩
  · rw [← inTree_iff H]
    exact hout a (mem_cons_self ..)
  · rw [← inTree_iff H]
    exact hout b (mem_cons_of_mem _ hb)

end

end Positions

/-! ## Every run -/

omit [DecidableEq α] in
/-- The end of a call that returns a status. -/
theorem Outcome.finish {care : Prop} {status : Status} (hcare : care)
    (h : Outcome ⟨.left, root, v, .nil⟩ 0 (2 ^ w) care m') (hfail : status ≠ .ok → m' = m) :
    Kept root v m' ∧ (decide (status = .ok) = false → ∀ b, InTree m root b → m' b = m b) := by
  obtain ⟨c, H, hord⟩ := h
  exact ⟨⟨c, H, fun _ => hord hcare⟩, fun hst b _ => congrFun (hfail (of_decide_eq_false hst)) b⟩

/-- **The step lemma.**  A legal and careful call returns, keeps the tree in order, and
leaves it as it was if the call fails. -/
theorem perform_spec {call : Call α w} (h : Kept root v m) (hlegal : Legal m root call)
    (hcare : Careful m call) :
    ∃ m' ok, Returns (fun turns => perform turns m call) (m', ok) ∧ Kept root v m' ∧
      (ok = false → ∀ b, InTree m root b → m' b = m b) := by
  obtain ⟨c, H, hord⟩ := h
  replace hord := hord trivial
  cases call with
  | write a r =>
    refine ⟨m.set a r, true, ⟨0, fun _ _ => rfl⟩, ⟨c, H.set ?_ r, fun _ => hord⟩,
      fun h => by cases h⟩
    exact fun ha => hlegal ((inTree_iff H).mpr ha)
  | requestResource parent new =>
    obtain ⟨k, c0, u, s0, hT, hbottom⟩ := hlegal.1.position H
    obtain ⟨n, c', hbrings, hs⟩ := hlegal.2.spare H
    obtain ⟨m', status, hrun, hout, hfail⟩ := requestResource_spec ⟨H, hT, hbottom, hord⟩ hs
    exact ⟨m', _, hrun.returns_map _, hout.finish (hcare n c' hbrings) hfail⟩
  | insertResource parent new =>
    obtain ⟨k, c0, u, s0, hT, hbottom⟩ := hlegal.1.position H
    obtain ⟨n, c', hbrings, hs⟩ := hlegal.2.spare H
    obtain ⟨m', status, hrun, hout, hfail⟩ := insertResource_spec ⟨H, hT, hbottom, hord⟩ hs
    exact ⟨m', _, hrun.returns_map _, hout.finish (hcare n c' hbrings) hfail⟩
  | allocateResource parent new size min max alignment alignf =>
    obtain ⟨k, c0, u, s0, hT, hbottom⟩ := hlegal.1.position H
    obtain ⟨n, c', ⟨⟨p, q, hnew⟩, -⟩, hs⟩ := hlegal.2.spare H
    -- the new resource has no children
    obtain rfl := addr?_eq_none (hcare _ hnew)
    obtain ⟨m', status, hrun, hout, hfail⟩ := allocateResource_spec size min max alignment alignf
      ⟨H, hT, hbottom, hord⟩ hs
    refine ⟨m', decide (status = .ok), hrun.returns_map _, hout, fun hst b hb => ?_⟩
    refine hfail (of_decide_eq_false hst) b ?_
    rintro rfl
    exact hs.fresh ((inTree_iff H).mp hb)
  | releaseResource old =>
    obtain ⟨k, c0, u, s0, hT, hbottom⟩ := hlegal.1.position_below H hlegal.2
    obtain ⟨m', hrun, hout⟩ := releaseResource_spec H hT hbottom rfl hord
    exact ⟨m', true, hrun.returns_map _, hout, fun h => by cases h⟩
  | adjustResource res start size =>
    obtain ⟨k, c0, u, s0, hT, hbottom⟩ := hlegal.1.position_below H hlegal.2
    obtain ⟨m', status, hrun, hout, hfail⟩ := adjustResource_spec start size H hT hbottom rfl hord
    exact ⟨m', _, hrun.returns_map _, hout.finish hcare hfail⟩
  | requestRegion parent start size alloc =>
    obtain ⟨k, c0, u, s0, hT, hbottom⟩ := hlegal.1.position H
    obtain ⟨m', region, hrun, hout, hfail⟩ := requestRegion_spec start size alloc
      ⟨H, hT, hbottom, hord⟩ hlegal.2
    refine ⟨m', region.isSome, hrun.returns_map _, hout, fun hst b _ => ?_⟩
    rw [hfail (Option.isSome_eq_false_iff.mp hst |> Option.isNone_iff_eq_none.mp)]
  | releaseRegion parent start size =>
    obtain ⟨k, c0, u, s0, hT, hbottom⟩ := InTree.position H hlegal
    obtain ⟨m', found, hrun, hout, hfail⟩ :=
      releaseRegion_spec start size ⟨H, hT, hbottom, hord⟩
    refine ⟨m', found, ⟨_, hrun⟩, hout, fun hst b _ => ?_⟩
    rw [hfail hst]

variable {tr : List (Call α w)}

/-- **The run lemma.**  A careful run keeps the tree in order. -/
theorem reach_kept (h : (system root Careful).Reach tr m) : ∃ v, Kept root v m := by
  refine h.invariant (P := fun _ m => ∃ v, Kept root v m) ?_ ?_
  · rintro m ⟨v, hroot, hle⟩
    have hlt := v.stop.isLt
    refine ⟨v, .nil, ⟨⟨hroot, trivial, trivial⟩, ?_⟩, fun _ => ⟨Nat.zero_le _, hle, ?_, trivial,
      trivial⟩⟩
    · simp [join]
    · exact hlt.le
  · rintro tr m call m' ⟨v, hkept⟩ ⟨hlegal, hcare, ok, hrun⟩
    obtain ⟨m1, ok1, hrun1, hkept1, -⟩ := perform_spec hkept hlegal hcare
    obtain ⟨rfl, rfl⟩ := Prod.mk.inj (hrun.unique hrun1)
    exact ⟨v, hkept1⟩

omit [DecidableEq α] in
/-- A list in order is sorted in memory, and its resources have the given parent. -/
theorem siblings_of_holds (hs : Holds m p s)
    (hord : Ordered lo hi s) : ∃ l, Siblings m s.addr? l ∧ (∀ x ∈ l, x.2.parent = p) ∧
      (∀ x ∈ l, lo ≤ x.2.start.toNat ∧ x.2.start.toNat ≤ x.2.stop.toNat) ∧
      l.Pairwise fun x y => x.2.stop < y.2.start := by
  induction s generalizing lo with
  | nil => exact ⟨[], rfl, by simp, by simp, .nil⟩
  | node c a v s _ ih =>
    obtain ⟨ha, -, hs⟩ := hs
    obtain ⟨hlow, hv, -, -, hord⟩ := hord
    obtain ⟨l, hl, hparent, hbounds, hsorted⟩ := ih hs hord
    refine ⟨(a, v.cell p c.addr? s.addr?) :: l, ⟨rfl, ha, hl⟩, ?_, ?_,
      .cons (fun y hy => ?_) hsorted⟩
    · intro x hx
      rcases mem_cons.mp hx with rfl | hx
      · rfl
      · exact hparent x hx
    · intro x hx
      rcases mem_cons.mp hx with rfl | hx
      · exact ⟨hlow, hv⟩
      · have := hbounds x hx
        exact ⟨by omega, this.2⟩
    · have := hbounds y hy
      show v.stop.toNat < _
      omega

omit [DecidableEq α] in
theorem Kept.wellFormed (h : Kept root v m) : WellFormed m root := by
  obtain ⟨c, H, hord⟩ := h
  replace hord := hord trivial
  have H : Tree m (.node c root v .nil) := H
  have hord : Ordered 0 (2 ^ w) (.node c root v .nil) := hord
  constructor
  · intro a ha
    obtain ⟨k, c0, u, s0, hT, -⟩ := ha.position H
    obtain ⟨-, -, hle, -⟩ := (ordered_plug _ _).mp (hT ▸ hord)
    exact ⟨_, Tree.cell (hT ▸ H), BitVec.le_def.mpr hle⟩
  · intro a r ha hr hne
    obtain ⟨k, c0, u, s0, hT, hbottom⟩ := ha.position_below H hne
    have hcell := Tree.cell (hT ▸ H)
    obtain rfl := Option.some.inj (hr.symm.trans hcell)
    obtain ⟨p, hp⟩ := exists_parentAt hbottom rfl
    obtain ⟨passed, u', s', k0, rfl, hright⟩ := exists_passed hp
    have hT' : .node c root v .nil = plug k0 (.node (plug passed (.node c0 a u s0)) p u' s') := by
      rw [hT, plug_append]
      rfl
    refine ⟨p, _, hp, (inTree_iff H).mpr ?_, Tree.cell (hT' ▸ H), ?_⟩
    · rw [hT', mem_addrs_plug]
      exact .inl (by simp)
    · -- the bounds at the position of a child are those of the parent
      obtain ⟨-, -, -, -, hc, -⟩ := (ordered_plug _ _).mp (hT' ▸ hord)
      obtain ⟨hctx, hlow, -, hhigh, -⟩ := (ordered_plug _ _).mp hc
      rw [← append_nil passed, highAt_append hright] at hhigh
      exact ⟨BitVec.le_def.mpr ((hctx.low_le hright).trans hlow), BitVec.le_def.mpr hhigh⟩
  · intro a r ha hr
    obtain ⟨k, c0, u, s0, hT, -⟩ := ha.position H
    have hcell := Tree.cell (hT ▸ H)
    obtain rfl := Option.some.inj (hr.symm.trans hcell)
    obtain ⟨-, -, -, -, hc, -⟩ := (ordered_plug _ _).mp (hT ▸ hord)
    have hlist : Holds m _ (.node c0 a u s0) := Tree.list (hT ▸ H)
    obtain ⟨l, hl, hparent, -, hsorted⟩ := siblings_of_holds hlist.2.1 hc
    exact ⟨l, hl, hparent, hsorted⟩

/-- **The resource tree stays well formed.**  In every run of legal calls that are careful
about the ranges they ask for, each resource has a range that is not reversed and lies inside
its parent, and the children of each resource are sorted and disjoint.  Every further such
call returns, and a call that reports a failure leaves the tree as it was. -/
theorem resourceTree_wellFormed (h : (system root Careful).Reach tr m) :
    WellFormed m root ∧
    ∀ call, Legal m root call → Careful m call →
      ∃ m' ok, Returns (fun turns => perform turns m call) (m', ok) ∧
        (system root Careful).Reach (call :: tr) m' ∧
        (ok = false → ∀ a, (InTree m' root a ↔ InTree m root a) ∧
        (InTree m root a → m' a = m a)) := by
  obtain ⟨v, hkept⟩ := reach_kept h
  refine ⟨hkept.wellFormed, fun call hlegal hcare => ?_⟩
  obtain ⟨m', ok, hrun, -, hfail⟩ := perform_spec hkept hlegal hcare
  refine ⟨m', ok, hrun, .step h ⟨hlegal, hcare, ok, hrun⟩, fun hok a => ⟨?_, hfail hok a⟩⟩
  obtain ⟨c, H, -⟩ := hkept
  have H' : Tree m' (.node c root v .nil) :=
    H.congr fun b hb => hfail hok b ((inTree_iff H).mpr hb)
  rw [inTree_iff H, inTree_iff H']

/-- Memory with a root from 0 to 100. -/
def root100 : Mem ℕ 32 := fun a => if a = 0 then some ⟨0, 100, 0, none, none, none⟩ else none

/-- A descriptor of the range from 10 to 19. -/
def region10to19 : Resource ℕ 32 := ⟨10, 19, 0, none, none, none⟩

theorem reach_region10to19 (Allowed : Mem ℕ 32 → Call ℕ 32 → Prop)
    (h1 : Allowed root100 (.write 1 (some region10to19)))
    (h2 : Allowed (root100.set 1 (some region10to19)) (.requestResource 0 1)) :
    ∃ m, (system 0 Allowed).Reach [.requestResource 0 1, .write 1 (some region10to19)] m ∧
      m 1 = some ⟨10, 19, 0, some 0, none, none⟩ ∧ m 0 = some ⟨0, 100, 0, none, none, some 1⟩ := by
  have hout : ∀ m : Mem ℕ 32, m 0 = some ⟨0, 100, 0, none, none, none⟩ → ¬ InTree m 0 1 := by
    intro m hm h
    have H : Tree m (.node .nil 0 ⟨0, 100, 0⟩ .nil) := ⟨⟨hm, trivial, trivial⟩, by simp⟩
    simpa using (inTree_iff H).mp h
  refine ⟨_, .step (.step (.init ⟨⟨0, 100, 0⟩, rfl, by decide⟩) ⟨hout _ rfl, h1, true,
    0, fun _ _ => rfl⟩) ⟨⟨.root, ⟨10, 19, 0⟩, .nil, ⟨⟨none, none, rfl⟩, trivial⟩, by simp, ?_⟩, h2,
      true, 1, after_iff.mpr fun _ _ => rfl⟩, rfl, rfl⟩
  intro b hb
  obtain rfl : b = 1 := by simpa using hb
  exact hout _ rfl

theorem resourceTree_wellFormed_request :
    ∃ m, (system (0 : ℕ) Careful).Reach
        [.requestResource 0 1, .write 1 (some region10to19)] m ∧ WellFormed m 0 := by
  obtain ⟨m, hreach, -⟩ := reach_region10to19 Careful trivial (by
    rintro n c ⟨⟨p, s, hcell⟩, -⟩
    have hchild := congrArg (fun r => r.bind Resource.child) hcell
    obtain rfl := addr?_eq_none hchild.symm
    trivial)
  exact ⟨m, hreach, (resourceTree_wellFormed hreach).1⟩

/-- **A reversed range.**  A resource from 10 to 19 is in the tree.  `adjust_resource` with
start 30 and size 0 reports success, and the resource reaches from 30 to 29. -/
theorem adjustResource_reversed :
    ∃ m, (system (0 : ℕ) fun _ _ => True).Reach [.adjustResource 1 30 0, .requestResource 0 1,
      .write 1 (some region10to19)] m ∧ ¬ WellFormed m 0 := by
  obtain ⟨m, hreach, h1, h0⟩ := reach_region10to19 (fun _ _ => True) trivial trivial
  have hin : InTree m 0 1 := .child .root h0 rfl
  have hrun : After 0 (perform · m (.adjustResource 1 30 0))
      (some (m.set 1 (some ⟨30, 29, 0, some 0, none, none⟩), true)) := by
    refine after_iff.mpr fun turns _ => ?_
    simp [perform, adjustResource, h1, h0, childrenFit, overlapsNext, overlapsPrevious, Mem.assign]
  refine ⟨_, .step hreach ⟨⟨hin, by decide⟩, trivial, true, _, hrun⟩, fun hwf => ?_⟩
  have hin' : InTree (m.set 1 (some ⟨30, 29, 0, some 0, none, none⟩)) 0 1 :=
    .child .root (by rw [Mem.set_of_ne _ _ (by decide), h0]) rfl
  obtain ⟨r, hr, hle⟩ := hwf.range 1 hin'
  obtain rfl := Option.some.inj hr
  exact absurd hle (by decide)

end Gp2xKernel.ResourceTree
