import Mathlib.Data.List.Infix

/-!
# Occurrences of a pattern in a text

Where a pattern occurs in a text, and the borders of a text: the beginnings of the pattern with
which the text ends.  The longest border is all that a search needs to remember of the text that
it has read.

## Main definitions

* `Occurs`, `IsFirst`: an occurrence, and the first one from a position on
* `Leftmost`: the occurrences that are found by searching on behind the last one
* `Border`, `IsLongest`: beginnings of the pattern that end a text
* `Candidate`: a bound for the borders that the next letter extends

## Main results

* `Leftmost.unique`: the leftmost occurrences are determined
* `border_snoc_iff`: borders of a text with one more letter
* `Candidate.next`, `Candidate.isLongest_succ`, `Candidate.isLongest_zero`: how a search finds
  the longest border of a text with one more letter
-/

namespace Gp2xKernel.Library

open List

variable {α : Type*}

/-! ## Occurrences -/

/-- The pattern occurs at position `p` of the text. -/
def Occurs (pat text : List α) (p : ℕ) : Prop := pat <+: text.drop p

instance [DecidableEq α] (pat text : List α) (p : ℕ) : Decidable (Occurs pat text p) :=
  inferInstanceAs (Decidable (pat <+: text.drop p))

variable {pat text x : List α} {p off k q : ℕ} {c : α}

theorem Occurs.add_length_le (h : Occurs pat text p)
    (hpat : pat ≠ []) : p + pat.length ≤ text.length := by
  have hlen := List.IsPrefix.length_le h
  have hpos := length_pos_iff.mpr hpat
  rw [length_drop] at hlen
  omega

/-- Position `p` is the first one from `off` on at which the pattern occurs. -/
structure IsFirst (pat text : List α) (off p : ℕ) : Prop where
  le : off ≤ p
  occurs : Occurs pat text p
  not_occurs : ∀ k, off ≤ k → k < p → ¬Occurs pat text k

theorem IsFirst.unique {p' : ℕ} (h : IsFirst pat text off p)
    (h' : IsFirst pat text off p') : p = p' := by
  rcases Nat.lt_trichotomy p p' with hlt | heq | hlt
  · exact absurd h.occurs (h'.not_occurs p h.le hlt)
  · exact heq
  · exact absurd h'.occurs (h.not_occurs p' h'.le hlt)

/-- The list of the leftmost occurrences from `off` on that do not overlap: each is the first one
behind the end of the one before. -/
inductive Leftmost (pat text : List α) : ℕ → List ℕ → Prop
  | nil {off : ℕ} (h : ∀ p, off ≤ p → ¬Occurs pat text p) : Leftmost pat text off []
  | cons {off p : ℕ} {ps : List ℕ} (h : IsFirst pat text off p)
      (rest : Leftmost pat text (p + pat.length) ps) : Leftmost pat text off (p :: ps)

/-- With one more letter, the pattern may also occur at the very end. -/
theorem occurs_snoc (h : Occurs pat (x ++ [c]) p) (hpat : pat ≠ []) :
    Occurs pat x p ∨ pat <:+ x ++ [c] ∧ p + pat.length = x.length + 1 := by
  have hle := h.add_length_le hpat
  rw [length_append, length_singleton] at hle
  have hpos := length_pos_iff.mpr hpat
  have hdrop : (x ++ [c]).drop p = x.drop p ++ [c] := drop_append_of_le_length (by omega)
  rw [Occurs, hdrop] at h
  rcases prefix_concat_iff.mp h with heq | hpre
  · right
    refine ⟨⟨x.take p, ?_⟩, ?_⟩
    · rw [heq, ← append_assoc, take_append_drop]
    · rw [heq, length_append, length_drop, length_singleton]
      omega
  · exact Or.inl hpre

theorem occurs_drop_iff : Occurs pat (text.drop off) p ↔ Occurs pat text (off + p) := by
  rw [Occurs, Occurs, drop_drop]

/-! ## Borders -/

/-- The text `x` ends with the first `k` letters of the pattern. -/
structure Border (pat x : List α) (k : ℕ) : Prop where
  le : k ≤ pat.length
  suffix : pat.take k <:+ x

theorem Border.le_length (h : Border pat x k) : k ≤ x.length := by
  have hlen := h.suffix.length_le
  rwa [length_take, Nat.min_eq_left h.le] at hlen

theorem border_zero (pat x : List α) : Border pat x 0 := ⟨Nat.zero_le _, by simp⟩

/-- A border of a text with one more letter is a border that this letter extends. -/
theorem border_snoc_iff : Border pat (x ++ [c]) (k + 1) ↔ Border pat x k ∧ pat[k]? = some c := by
  constructor
  · rintro ⟨hle, hsuf⟩
    have hk : k < pat.length := hle
    rw [take_add_one, List.getElem?_eq_getElem hk] at hsuf
    obtain ⟨s, hs⟩ := hsuf
    rw [← append_assoc] at hs
    obtain ⟨hx, hc⟩ := append_inj' hs rfl
    exact ⟨⟨hk.le, s, hx⟩, by rw [List.getElem?_eq_getElem hk, singleton_inj.mp hc]⟩
  · rintro ⟨⟨-, hsuf⟩, hc⟩
    have hk : k < pat.length := (List.getElem?_eq_some_iff.mp hc).1
    refine ⟨hk, ?_⟩
    obtain ⟨s, rfl⟩ := hsuf
    rw [take_add_one, hc]
    exact ⟨s, by simp⟩

theorem Border.trans (hq : Border pat x q) (hk : Border pat (pat.take q) k) : Border pat x k :=
  ⟨hk.le, hk.suffix.trans hq.suffix⟩

/-- Of two borders, the shorter one is a border of the longer one. -/
theorem Border.of_le (hk : Border pat x k) (hq : Border pat x q)
    (hkq : k ≤ q) : Border pat (pat.take q) k := by
  refine ⟨hk.le, suffix_of_suffix_length_le hk.suffix hq.suffix ?_⟩
  rw [length_take, length_take]
  omega

theorem Border.tail (h : Border pat x k) (hk : k < x.length) : Border pat x.tail k := by
  refine ⟨h.le, ?_⟩
  cases x with
  | nil => exact absurd hk (Nat.not_lt_zero _)
  | cons a x =>
    rcases suffix_cons_iff.mp h.suffix with heq | hsuf
    · have hlen := congrArg List.length heq
      rw [length_take] at hlen
      omega
    · exact hsuf

theorem Border.of_tail (h : Border pat x.tail k) : Border pat x k :=
  ⟨h.le, h.suffix.trans (tail_suffix x)⟩

/-- The whole pattern is a border of a text exactly if the text ends with it. -/
theorem border_length_iff : Border pat x pat.length ↔ pat <:+ x := by
  constructor
  · intro h
    simpa using h.suffix
  · intro h
    exact ⟨le_rfl, by simpa using h⟩

/-- The longest border of a text. -/
structure IsLongest (pat x : List α) (q : ℕ) : Prop where
  border : Border pat x q
  longest : ∀ k, Border pat x k → k ≤ q

theorem isLongest_nil (pat : List α) : IsLongest pat [] 0 :=
  ⟨border_zero pat [], fun _ h => h.le_length⟩

/-- Of the borders that the next letter extends, `q` is at least as long as every one, and it is
a border itself. -/
structure Candidate (pat x : List α) (c : α) (q : ℕ) : Prop where
  border : Border pat x q
  le : ∀ k, Border pat x k → pat[k]? = some c → k ≤ q

theorem IsLongest.candidate (h : IsLongest pat x q) (c : α) :
    Candidate pat x c q := ⟨h.border, fun k hk _ => h.longest k hk⟩

/-- If the next letter does not extend a candidate, the longest border of the candidate is the
next one. -/
theorem Candidate.next {pat x : List α} {c : α} {q k : ℕ} (h : Candidate pat x c q)
    (hc : pat[q]? ≠ some c) (hk : IsLongest pat (pat.take q).tail k) :
    Candidate pat x c k := by
  refine ⟨h.border.trans hk.border.of_tail, fun j hj hcj => hk.longest j ?_⟩
  have hjq : j < q := lt_of_le_of_ne (h.le j hj hcj) fun heq => hc (heq ▸ hcj)
  refine (hj.of_le h.border hjq.le).tail ?_
  rw [length_take, Nat.min_eq_left h.border.le]
  exact hjq

/-- **One more letter**: a candidate that the letter extends gives the longest border. -/
theorem Candidate.isLongest_succ (h : Candidate pat x c q)
    (hc : pat[q]? = some c) : IsLongest pat (x ++ [c]) (q + 1) := by
  refine ⟨border_snoc_iff.mpr ⟨h.border, hc⟩, fun k hk => ?_⟩
  cases k with
  | zero => exact Nat.zero_le _
  | succ k =>
    obtain ⟨hborder, hck⟩ := border_snoc_iff.mp hk
    exact Nat.succ_le_succ (h.le k hborder hck)

/-- If the letter extends no border, the longest border is empty. -/
theorem Candidate.isLongest_zero (h : Candidate pat x c 0)
    (hc : pat[0]? ≠ some c) : IsLongest pat (x ++ [c]) 0 := by
  refine ⟨border_zero pat _, fun k hk => ?_⟩
  cases k with
  | zero => exact le_rfl
  | succ k =>
    obtain ⟨hborder, hck⟩ := border_snoc_iff.mp hk
    obtain rfl := Nat.le_zero.mp (h.le k hborder hck)
    exact absurd hck hc

end Gp2xKernel.Library
