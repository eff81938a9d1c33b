import Gp2xKernel.RbTree.Links

/-!
# The red-black invariant

`RedBlack t` is the invariant of a whole tree.  The fix-up loops work at one position of
the tree while the invariant is broken there, so it is also stated for the two halves of a
tree cut at a position: `Sound n s` for the subtree and `ContextSound n k` for the frames
around it, with `n` the black height at the cut.

## Main definitions

* `RedBlack`: the root is black, no red node has a red child, all paths have the same
  number of black nodes.
* `Sound`, `ContextSound`: the invariant of a subtree and of a context.

## Main results

* `redBlack_plug`: a tree is red-black when its halves are sound and a red subtree does
  not hang below a red node, nor at the root.
-/

namespace Gp2xKernel.RbTree

open Library

variable {α : Type*}

/-- The number of black nodes a node adds to the paths through it. -/
def Color.weight : Color → ℕ
  | .red => 0
  | .black => 1

@[simp] theorem Color.weight_red : Color.red.weight = 0 := rfl
@[simp] theorem Color.weight_black : Color.black.weight = 1 := rfl

variable {c : Color} {n : ℕ} {d : Side} {x y t s : LinkedTree α Color} {a : α}
  {k : List (Frame α Color)}

theorem Color.ne_red_iff : c ≠ .red ↔ c = .black := by
  cases c <;> decide

/-- The colour of the root; an empty tree counts as black. -/
def color : LinkedTree α Color → Color
  | .nil => .black
  | .node _ _ c _ => c

/-- No red node has a red child. -/
def NoRedRed : LinkedTree α Color → Prop
  | .nil => True
  | .node l _ c r =>
    (c = .red → color l = .black ∧ color r = .black) ∧ NoRedRed l ∧ NoRedRed r

/-- Every path down to an empty subtree meets `n` black nodes. -/
def HasBlackHeight : ℕ → LinkedTree α Color → Prop
  | n, .nil => n = 0
  | n, .node l _ c r => ∃ m, HasBlackHeight m l ∧ HasBlackHeight m r ∧ n = m + c.weight

/-- The red-black invariant of a tree. -/
structure RedBlack (t : LinkedTree α Color) : Prop where
  root_black : color t = .black
  no_red_red : NoRedRed t
  black_height : ∃ n, HasBlackHeight n t

/-- A subtree of black height `n` with no two red nodes in a row. -/
def Sound (n : ℕ) (t : LinkedTree α Color) : Prop := NoRedRed t ∧ HasBlackHeight n t

/-- The colour above the hole.  Above the root it counts as red: the root may not be red. -/
def topColor : List (Frame α Color) → Color
  | [] => .red
  | f :: _ => f.data

/-- The invariant of a context whose hole has black height `n`. -/
def ContextSound : ℕ → List (Frame α Color) → Prop
  | _, [] => True
  | n, f :: k =>
    Sound n f.sibling ∧ (f.data = .red → color f.sibling = .black ∧ topColor k = .black) ∧
      ContextSound (n + f.data.weight) k

@[simp] theorem color_nil : color (.nil : LinkedTree α Color) = .black := rfl

@[simp] theorem color_join (d : Side) (x y : LinkedTree α Color) (a : α) (c : Color) :
    color (.join d x a c y) = c := by
  cases d <;> rfl

@[simp] theorem topColor_nil : topColor ([] : List (Frame α Color)) = .red := rfl

@[simp] theorem topColor_cons (f : Frame α Color) (k : List (Frame α Color)) :
    topColor (f :: k) = f.data := rfl

@[simp] theorem sound_nil : Sound n (.nil : LinkedTree α Color) ↔ n = 0 := by
  simp [Sound, NoRedRed, HasBlackHeight]

/-- A node is sound when both subtrees are, at the same black height. -/
theorem sound_join :
    Sound n (.join d x a c y) ↔
      ∃ m, Sound m x ∧ Sound m y ∧ n = m + c.weight ∧
        (c = .red → color x = .black ∧ color y = .black) := by
  cases d <;> simp only [Sound, LinkedTree.join, NoRedRed, HasBlackHeight] <;> grind

theorem sound_red :
    Sound n (.join d x a .red y) ↔ Sound n x ∧ Sound n y ∧ color x = .black ∧ color y = .black := by
  rw [sound_join]
  simp

theorem sound_black : Sound (n + 1) (.join d x a .black y) ↔ Sound n x ∧ Sound n y := by
  rw [sound_join]
  simp

/-- A subtree of positive black height is not empty. -/
theorem Sound.ne_nil (h : Sound (n + 1) t) : t ≠ .nil := by
  rintro rfl
  simp at h

/-- A red subtree is a node over black subtrees of the same black height. -/
theorem Sound.exists_red (h : Sound n t) (hc : color t = .red)
    (d : Side) : ∃ x a y, t = .join d x a .red y ∧ Sound n x ∧ Sound n y ∧
      color x = .black ∧ color y = .black := by
  cases t with
  | nil => simp at hc
  | node l a c r =>
    obtain rfl : c = .red := hc
    obtain ⟨x, y, hxy⟩ := LinkedTree.exists_join d l r a Color.red
    rw [hxy] at h
    exact ⟨x, a, y, hxy, sound_red.mp h⟩

/-- A black subtree of positive black height is a node over subtrees one lower. -/
theorem Sound.exists_black (h : Sound (n + 1) t) (hc : color t = .black) (d : Side) :
    ∃ x a y, t = .join d x a .black y ∧ Sound n x ∧ Sound n y := by
  cases t with
  | nil => exact absurd rfl h.ne_nil
  | node l a c r =>
    obtain rfl : c = .black := hc
    obtain ⟨x, y, hxy⟩ := LinkedTree.exists_join d l r a Color.black
    rw [hxy] at h
    exact ⟨x, a, y, hxy, sound_black.mp h⟩

/-- A red node above the hole is not the root, and hangs below a black node. -/
theorem ContextSound.exists_red (h : ContextSound n k) (hne : k ≠ []) (hc : topColor k = .red) :
    ∃ e p S d g U k', k = ⟨e, p, .red, S⟩ :: ⟨d, g, .black, U⟩ :: k' ∧ Sound n S ∧
      color S = .black ∧ Sound n U ∧ ContextSound (n + 1) k' := by
  match k, h with
  | [], _ => exact absurd rfl hne
  | [f], ⟨_, hred, _⟩ => exact absurd (hred hc).2 (by simp)
  | ⟨e, p, c, S⟩ :: ⟨d, g, b, U⟩ :: k', ⟨hS, hred, hU, _, hk⟩ =>
    obtain rfl : c = .red := hc
    obtain ⟨hSc, rfl : b = .black⟩ := hred rfl
    exact ⟨e, p, S, d, g, U, k', rfl, hS, hSc, hU, hk⟩

/-- Two sound halves make a sound tree, unless a red subtree hangs below a red node. -/
theorem Sound.plug (hs : Sound n s) (hk : ContextSound n k)
    (hc : color s = .red → k = [] ∨ topColor k = .black) :
    ∃ n', Sound n' (plug k s) := by
  induction k generalizing n s with
  | nil => exact ⟨n, hs⟩
  | cons f k ih =>
    obtain ⟨hsib, hred, hk⟩ := hk
    refine ih (sound_join.mpr ⟨n, hs, hsib, rfl, fun hf => ⟨?_, (hred hf).1⟩⟩) hk ?_
    · -- the hole is below a red node, so the subtree is black
      by_contra hs'
      rcases hc (by cases h : color s <;> simp_all) with h | h
      · exact List.cons_ne_nil _ _ h
      · exact absurd (hf.symm.trans h) (by decide)
    · rw [color_join]
      exact fun hf => .inr (hred hf).2

/-- **The invariant at a position.** -/
theorem redBlack_plug :
    RedBlack (plug k s) ↔
      ∃ n, ContextSound n k ∧ Sound n s ∧ (color s = .red → topColor k = .black) := by
  induction k generalizing s with
  | nil =>
    constructor
    · rintro ⟨hroot, hred, n, hn⟩
      exact ⟨n, trivial, ⟨hred, hn⟩, fun h => absurd (hroot.symm.trans h) (by decide)⟩
    · rintro ⟨n, -, ⟨hred, hn⟩, hc⟩
      refine ⟨?_, hred, n, hn⟩
      rw [← Color.ne_red_iff]
      exact fun h => absurd (hc h) (by simp)
  | cons f k ih =>
    rw [plug_cons, ih]
    simp only [sound_join, color_join, topColor_cons, ContextSound]
    constructor
    · rintro ⟨-, hk, ⟨m, hs, hsib, rfl, hcol⟩, htop⟩
      refine ⟨m, ⟨hsib, fun hf => ⟨(hcol hf).2, htop hf⟩, hk⟩, hs, fun hc => ?_⟩
      rw [← Color.ne_red_iff]
      exact fun hf => absurd (hc.symm.trans (hcol hf).1) (by decide)
    · rintro ⟨n, ⟨hsib, hred, hk⟩, hs, hc⟩
      refine ⟨_, hk, ⟨n, hs, hsib, rfl, fun hf => ⟨?_, (hred hf).1⟩⟩, fun hf => (hred hf).2⟩
      rw [← Color.ne_red_iff]
      exact fun h => absurd (hf.symm.trans (hc h)) (by decide)

/-- Painting the root black makes a sound tree red-black. -/
theorem redBlack_of_sound (h : Sound n (.join d x a c y)) : RedBlack (.join d x a .black y) := by
  obtain ⟨m, hx, hy, -⟩ := sound_join.mp h
  have hs : Sound (m + 1) (.join d x a .black y) := sound_black.mpr ⟨hx, hy⟩
  exact ⟨color_join .., hs.1, _, hs.2⟩

end Gp2xKernel.RbTree
