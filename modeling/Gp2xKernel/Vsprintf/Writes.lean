import Gp2xKernel.Vsprintf.Basic

/-!
# The text of a format

Every conversion puts out a text that does not depend on what becomes of its characters.  Hence a
format and its arguments have one text, and the output to a buffer is that of the characters of this
text, one after the other.

## Main definitions

* `numberText`: the text of a number

## Main results

* `number_writes`: `number` writes this text
* `exists_convert_eq`: a conversion writes a text of its own
* `formatLoop_eq`: the output is that of the text without a limit
-/

namespace Gp2xKernel.Vsprintf

open Library List Nat

section Padding

variable {σ : Type} (sink : Sink Char σ)

/-- The value of `size` behind a loop that decrements it while `low <= size`. -/
def padEnd (low size : ℤ) : ℤ := if low ≤ size then low - 1 else size

/-- The number of turns of such a loop. -/
def padTurns (low size : ℤ) : ℕ := (size + 1 - low).toNat

variable (c : Char)

theorem padLoop_eq (low size : ℤ) (s : σ) :
    padLoop sink c low size s =
      (padEnd low size, sink.putAll (replicate (padTurns low size) c) s) := by
  -- by induction on the number of turns
  induction hn : padTurns low size generalizing size s with
  | zero =>
    rw [padTurns] at hn
    rw [padLoop, padEnd, if_neg (by omega), if_neg (by omega)]
    rfl
  | succ n ih =>
    rw [padTurns] at hn
    have hle : low ≤ size := by omega
    rw [padLoop, if_pos hle, ih (size - 1) _ (by rw [padTurns]; omega), replicate_succ,
      Sink.putAll_cons, padEnd, padEnd]
    split
    · rfl
    · rw [show size - 1 = low - 1 by omega]

/-- What a loop `while (low <= --size)` puts out. -/
def padText (c : Char) (low size : ℤ) : List Char :=
  List.replicate (padTurns low (int (size - 1))) c

theorem pad_eq (low size : ℤ) (s : σ) :
    pad sink c low size s = (padEnd low (int (size - 1)), sink.putAll (padText c low size) s) :=
  padLoop_eq sink c low _ s

/-- What a loop `while (len < size--)` puts out. -/
def padAfterText (c : Char) (len size : ℤ) : List Char :=
  List.replicate (padTurns (len + 1) size) c

theorem padAfter_eq (len size : ℤ) (s : σ) :
    padAfter sink c len size s =
      (int (padEnd (len + 1) size - 1), sink.putAll (padAfterText c len size) s) := by
  rw [padAfter, padLoop_eq]
  rfl

/-- A loop that is entered only under a condition. -/
theorem ite_eq_putAll {p : Prop} [Decidable p] {z z' : ℤ} {t : List Char} (s : σ) {r : ℤ × σ}
    (h : r = (z', sink.putAll t s)) :
    (if p then r else (z, s)) = (if p then z' else z, sink.putAll (if p then t else []) s) := by
  rw [h]
  by_cases hp : p
  · rw [if_pos hp, if_pos hp, if_pos hp]
  · rw [if_neg hp, if_neg hp, if_neg hp, Sink.putAll_nil]

end Padding

/-! ## The conversions -/

/-- The text of a number: padding, the sign, the prefix, more padding, the digits, and padding. -/
def numberText (num : BitVec 64) (base : Base) (size precision : ℤ) (type : Flags) : List Char :=
  let needPfx := type.special ∧ base ≠ .dec
  let digits := if type.large then largeDigits else smallDigits
  let zeropad := type.zeropad ∧ ¬type.left
  let (sign, num, size) := numberSign num size type
  let size := if needPfx then int (size - 1) else size
  let size := if needPfx ∧ base = .hex then int (size - 1) else size
  let tmp := numberDigits num base digits
  let precision := if (tmp.length : ℤ) > precision then (tmp.length : ℤ) else precision
  let size := int (size - precision)
  let lead := if ¬zeropad ∧ ¬type.left then padText ' ' 0 size else []
  let size := if ¬zeropad ∧ ¬type.left then padEnd 0 (int (size - 1)) else size
  let pfx := if needPfx then '0' :: if base = .hex then [digits.getD 16 'x'] else [] else []
  let middle := if ¬type.left then padText (if zeropad then '0' else ' ') 0 size else []
  let size := if ¬type.left then padEnd 0 (int (size - 1)) else size
  lead ++ sign.toList ++ pfx ++ middle ++ padText '0' tmp.length precision ++ tmp.reverse ++
    padText ' ' 0 size

section Writes

variable {σ : Type} {sink : Sink Char σ}

theorem putPrefix_eq (base : Base) (digits : List Char) (s : σ) :
    putPrefix sink base digits s =
      sink.putAll ('0' :: if base = .hex then [digits.getD 16 'x'] else []) s := by
  rw [putPrefix]
  split <;> rfl

/-- A step that is taken only under a condition. -/
theorem ite_putAll {p : Prop} [Decidable p] {t : List Char} {s s' : σ} (h : s' = sink.putAll t s) :
    (if p then s' else s) = sink.putAll (if p then t else []) s := by
  rw [h]
  by_cases hp : p
  · rw [if_pos hp, if_pos hp]
  · rw [if_neg hp, if_neg hp, Sink.putAll_nil]

theorem elim_put_eq (sign : Option Char) (s : σ) :
    (sign.elim s fun c => sink.put c s) = sink.putAll sign.toList s := by
  cases sign <;> rfl

variable (sink : Sink Char σ)

/-- **`number` writes its text.** -/
theorem number_writes (num : BitVec 64) (base : Base) (size precision : ℤ) (type : Flags) :
    sink.Writes (number sink num base size precision type)
      (numberText num base size precision type) := by
  intro s
  rw [number, numberText]
  dsimp only
  rw [ite_eq_putAll sink s (pad_eq sink _ _ _ _)]
  rw [elim_put_eq, ite_putAll (putPrefix_eq base _ _), ite_eq_putAll sink _ (pad_eq sink _ _ _ _)]
  rw [pad_eq, Sink.foldr_put, pad_eq]
  simp only [Sink.putAll_append]

/-- The text of the conversion `c`. -/
def putCharText (c : Char) (fieldWidth : ℤ) (flags : Flags) : List Char :=
  (if ¬flags.left then padText ' ' 1 fieldWidth else []) ++ [c] ++
    padText ' ' 1 (if ¬flags.left then padEnd 1 (int (fieldWidth - 1)) else fieldWidth)

theorem putChar_writes (c : Char) (fieldWidth : ℤ) (flags : Flags) :
    sink.Writes (putChar sink c fieldWidth flags) (putCharText c fieldWidth flags) := by
  intro s
  rw [putChar, putCharText, ite_eq_putAll sink s (pad_eq sink _ _ _ _)]
  dsimp only
  rw [pad_eq, Sink.putAll_append, Sink.putAll_append]
  rfl

/-- The text of the conversion `s`. -/
def putStringText (str : List Char) (len fieldWidth : ℤ) (flags : Flags) : List Char :=
  (if ¬flags.left then padAfterText ' ' len fieldWidth else []) ++ str.take len.toNat ++
    padAfterText ' ' len
      (if ¬flags.left then int (padEnd (len + 1) fieldWidth - 1) else fieldWidth)

theorem putString_writes (str : List Char) (len fieldWidth : ℤ) (flags : Flags) :
    sink.Writes (putString sink str len fieldWidth flags)
      (putStringText str len fieldWidth flags) := by
  intro s
  rw [putString, putStringText, ite_eq_putAll sink s (padAfter_eq sink _ _ _ _)]
  dsimp only
  rw [padAfter_eq, Sink.putAll_append, Sink.putAll_append]

end Writes

/-! ## The format -/

section Format

variable {W : ℕ}

/-- The steps of the loop over the format, for any output. -/
abbrev Step (W : ℕ) := ∀ {σ : Type}, Sink Char σ → (Option Char → BitVec W → σ → σ) → σ →
  Option (List (Arg W) × σ)

/-- The step leaves the same arguments and writes the same text, wherever its output goes. -/
def Uniform (step : Step W) : Prop :=
  ∃ r : Option (List (Arg W) × List Char), ∀ {σ : Type} (sink : Sink Char σ)
    (count : Option Char → BitVec W → σ → σ) (s : σ),
    step sink count s = r.map fun x => (x.1, sink.putAll x.2 s)

theorem Uniform.congr {step step' : Step W} (h : Uniform step')
    (heq : ∀ {σ : Type} (sink : Sink Char σ) count s, step sink count s = step' sink count s) :
    Uniform step := by
  obtain ⟨r, hr⟩ := h
  exact ⟨r, fun sink count s => (heq sink count s).trans (hr sink count s)⟩

theorem uniform_some (args : List (Arg W)) {f : ∀ {σ : Type}, Sink Char σ → σ → σ} {t : List Char}
    (hf : ∀ {σ : Type} (sink : Sink Char σ), sink.Writes (f sink) t) :
    Uniform fun sink _ s => some (args, f sink s) :=
  ⟨some (args, t), fun sink _ s => congrArg (fun s => some (args, s)) (hf sink s)⟩

/-- A step that first takes an argument. -/
theorem uniform_bind {β : Type} (x : Option β) {f : β → Step W}
    (hf : ∀ b, Uniform (W := W) (f b)) :
    Uniform fun sink count s => x.bind fun b => f b sink count s := by
  cases x with
  | none => exact ⟨none, fun _ _ _ => rfl⟩
  | some b => exact hf b

variable {d : Directive}

/-- The switch over the conversions other than `n` is uniform. -/
theorem uniform_convertArg (hd : d.conv ≠ some 'n') (fieldWidth : ℤ) (flags : Flags) (precision : ℤ)
    (args : List (Arg W)) :
    Uniform fun sink count s => convertArg sink count d fieldWidth flags precision args s := by
  unfold convertArg
  cases hconv : d.conv with
  | none => exact uniform_some args fun sink => sink.writes_put '%'
  | some c =>
    by_cases hc : c = 'c'
    · subst hc
      exact uniform_bind (vaInt args) fun x => uniform_some x.2 fun sink =>
        putChar_writes sink (Char.ofNat (x.1.toNat % 2 ^ 8)) fieldWidth flags
    by_cases hs : c = 's'
    · subst hs
      exact uniform_bind (vaPtr args) fun x => uniform_some x.2.2 fun sink =>
        putString_writes sink (if x.1.toNat < pageSize then nullText else x.2.1)
          (strnlen W (if x.1.toNat < pageSize then nullText else x.2.1) precision) fieldWidth flags
    by_cases hp : c = 'p'
    · subst hp
      refine uniform_bind (vaPtr args) fun x => ?_
      by_cases hwidth : fieldWidth = -1
      · simp only [if_pos hwidth]
        exact uniform_some x.2.2 fun sink => number_writes sink (x.1.setWidth 64) .hex
          (2 * (W / 8) : ℕ) precision { flags with zeropad := true }
      · simp only [if_neg hwidth]
        exact uniform_some x.2.2 fun sink =>
          number_writes sink (x.1.setWidth 64) .hex fieldWidth precision flags
    by_cases hpercent : c = '%'
    · subst hpercent
      exact uniform_some args fun sink => sink.writes_put '%'
    cases hformat : numberFormat flags c with
    | some x =>
      refine (uniform_bind (vaNum d.qualifier x.2.sign args) fun y => uniform_some y.2 fun sink =>
        number_writes sink y.1 x.1 fieldWidth precision x.2).congr fun sink count s => ?_
      unfold numberFormat at hformat
      split at hformat
      case h_7 => cases hformat
      all_goals
        obtain rfl := Option.some.inj hformat
        rfl
    | none =>
      refine (uniform_some args fun sink => (sink.writes_put c).comp (sink.writes_put '%')).congr
        fun sink count s => ?_
      split <;> simp_all

/-- **A conversion** other than `n` is uniform. -/
theorem uniform_convert (hd : d.conv ≠ some 'n') (args : List (Arg W)) :
    Uniform fun sink count s => convert sink count d args s :=
  uniform_bind _ fun _ => uniform_bind _ fun _ => uniform_convertArg hd _ _ _ _

/-- The loop over a format without the conversion `n` writes one text, wherever its output goes. -/
theorem exists_formatLoop_eq (items : List Item)
    (h : ∀ d, .directive d ∈ items → d.conv ≠ some 'n') (args : List (Arg W)) :
    ∃ r : Option (List Char), ∀ {σ : Type} (sink : Sink Char σ)
      (count : Option Char → BitVec W → σ → σ) (s : σ),
      formatLoop sink count items args s = r.map fun t => sink.putAll t s := by
  induction items generalizing args with
  | nil => exact ⟨some [], fun _ _ _ => rfl⟩
  | cons item items ih =>
    have hrest : ∀ d, .directive d ∈ items → d.conv ≠ some 'n' :=
      fun d hd => h d (mem_cons_of_mem _ hd)
    cases item with
    | char c =>
      obtain ⟨r, hr⟩ := ih hrest args
      refine ⟨r.map fun t => c :: t, fun sink count s => ?_⟩
      rw [formatLoop, hr, Option.map_map]
      rfl
    | directive d =>
      obtain ⟨x, hx⟩ := uniform_convert (h d mem_cons_self) args
      dsimp only at hx
      cases x with
      | none => exact ⟨none, fun sink count s => by rw [formatLoop, hx]; rfl⟩
      | some x =>
        obtain ⟨r, hr⟩ := ih hrest x.1
        refine ⟨r.map fun t => x.2 ++ t, fun sink count s => ?_⟩
        rw [formatLoop, hx, Option.map_map]
        show formatLoop sink count items x.1 (sink.putAll x.2 s) = _
        rw [hr]
        congr 1
        funext t
        exact (sink.putAll_append _ _ _).symm

/-- The conversion `n`. -/
def Item.IsCount : Item → Prop
  | .char _ => False
  | .directive d => d.conv = some 'n'

instance : DecidablePred Item.IsCount
  | .char _ => inferInstanceAs (Decidable False)
  | .directive d => inferInstanceAs (Decidable (d.conv = some 'n'))

/-- The format has no conversion `n`. -/
def NoCount (fmt : List Char) : Prop := ∀ item ∈ parse fmt, ¬item.IsCount

instance (fmt : List Char) : Decidable (NoCount fmt) :=
  inferInstanceAs (Decidable (∀ item ∈ parse fmt, ¬item.IsCount))

/-- **The output of a format** is that of its text without a limit. -/
theorem formatLoop_eq {fmt : List Char} (h : NoCount fmt) (args : List (Arg W)) {σ : Type}
    (sink : Sink Char σ) (count : Option Char → BitVec W → σ → σ) (s : σ) :
    formatLoop sink count (parse fmt) args s = (text fmt args).map fun t => sink.putAll t s := by
  obtain ⟨r, hr⟩ := exists_formatLoop_eq (parse fmt) (fun d hd => h _ hd) args
  have htext : text fmt args = r := by
    rw [text, hr]
    cases r with
    | none => rfl
    | some t => rw [Option.map_some, Sink.putAll_collect, nil_append]
  rw [htext, hr]

end Format

end Gp2xKernel.Vsprintf
