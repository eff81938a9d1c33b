import Mathlib.Data.BitVec
import Gp2xKernel.Library.Sink

/-!
# Formatted output

`vsnprintf` and `vscnprintf` of `lib/vsprintf.c`, with `number` and the routines for decimal digits.
Pointers and the types `long` and `size_t` have `W` bits.  Values of type `int` are integers, and
sums of them are taken modulo `2 ^ 32`.

All output goes through `*str = c` under the condition `str < end`, followed by `++str`.  The
routines are written for any way of putting out a character, so that they also say which text there
is without a limit.  A format does not depend on the arguments, and is read in advance.

## Main definitions

* `Directive`, `parse`: the conversions of a format
* `number`, `convert`: the text of a conversion
* `Out`, `guarded`: the output to a buffer
* `vsnprintf`, `vscnprintf`
* `text`: the text without a limit
-/

namespace Gp2xKernel.Vsprintf

open Library

/-- The value of a sum of type `int`. -/
def int (z : ℤ) : ℤ := Int.bmod z (2 ^ 32)

/-- The bits `ZEROPAD`, `SIGN`, `PLUS`, `SPACE`, `LEFT`, `SPECIAL` and `LARGE` of the flags. -/
structure Flags where
  zeropad : Bool := false
  sign : Bool := false
  plus : Bool := false
  space : Bool := false
  left : Bool := false
  special : Bool := false
  large : Bool := false
  deriving DecidableEq

/-! ## Formats -/

/-- A field width or a precision: absent, digits in the format, or the next argument. -/
inductive Amount
  | absent
  | digits (i : ℤ)
  | star
  deriving DecidableEq

/-- A conversion: the parts of the format from a percent sign to the character that names the
conversion, which is missing at the end of the format.  The precision is `none` without a dot. -/
structure Directive where
  flags : Flags
  width : Amount
  precision : Option Amount
  qualifier : Option Char
  conv : Option Char
  deriving DecidableEq

/-- What a format consists of. -/
inductive Item
  | char (c : Char)
  | directive (d : Directive)
  deriving DecidableEq

/-- The loop at `repeat` -/
def getFlags : List Char → Flags → Flags × List Char
  | '-' :: fmt, flags => getFlags fmt { flags with left := true }
  | '+' :: fmt, flags => getFlags fmt { flags with plus := true }
  | ' ' :: fmt, flags => getFlags fmt { flags with space := true }
  | '#' :: fmt, flags => getFlags fmt { flags with special := true }
  | '0' :: fmt, flags => getFlags fmt { flags with zeropad := true }
  | fmt, flags => (flags, fmt)

def isdigit (c : Char) : Bool := '0' ≤ c && c ≤ '9'

/-- `skip_atoi`, with the value so far -/
def skipAtoi : List Char → ℤ → ℤ × List Char
  | c :: fmt, i =>
    if isdigit c then skipAtoi fmt (int (int (int (i * 10) + c.toNat) - '0'.toNat))
    else (i, c :: fmt)
  | [], i => (i, [])

/-- Digits, a star, or neither. -/
def getAmount : List Char → Amount × List Char
  | '*' :: fmt => (.star, fmt)
  | c :: fmt =>
    if isdigit c then
      let (i, fmt) := skipAtoi (c :: fmt) 0
      (.digits i, fmt)
    else (.absent, c :: fmt)
  | [] => (.absent, [])

def getPrecision : List Char → Option Amount × List Char
  | '.' :: fmt =>
    let (amount, fmt) := getAmount fmt
    (some amount, fmt)
  | fmt => (none, fmt)

def getQualifier : List Char → Option Char × List Char
  | 'l' :: 'l' :: fmt => (some 'L', fmt)
  | c :: fmt =>
    if c = 'h' ∨ c = 'l' ∨ c = 'L' ∨ c = 'Z' ∨ c = 'z' ∨ c = 't' then (some c, fmt)
    else (none, c :: fmt)
  | [] => (none, [])

/-- The conversion behind a percent sign, and the rest of the format. -/
def getDirective (fmt : List Char) : Directive × List Char :=
  let (flags, fmt) := getFlags fmt {}
  let (width, fmt) := getAmount fmt
  let (precision, fmt) := getPrecision fmt
  let (qualifier, fmt) := getQualifier fmt
  (⟨flags, width, precision, qualifier, fmt.head?⟩, fmt.tail)

/-- The loop over the format, which has at most as many turns as the format has characters. -/
def parseLoop : ℕ → List Char → List Item
  | 0, _ => []
  | _, [] => []
  | turns + 1, c :: fmt =>
    if c ≠ '%' then .char c :: parseLoop turns fmt
    else
      let (d, fmt) := getDirective fmt
      .directive d :: parseLoop turns fmt

def parse (fmt : List Char) : List Item := parseLoop fmt.length fmt

/-! ## Numbers -/

/-- `d + '0'` -/
def decDigit (d : ℕ) : Char := Char.ofNat (d + '0'.toNat)

/-- `put_dec_trunc` for values below `100000`: the least significant digit comes first. -/
def putDecTrunc (q : ℕ) : List Char :=
  let d1 := (q >>> 4) &&& 0xf
  let d2 := (q >>> 8) &&& 0xf
  let d3 := q >>> 12
  let d0 := 6 * (d3 + d2 + d1) + (q &&& 0xf)
  let q := (d0 * 0xcd) >>> 11
  let d0 := d0 - 10 * q
  let d1 := q + 9 * d3 + 5 * d2 + d1
  decDigit d0 :: if d1 ≠ 0 then
    let q := (d1 * 0xcd) >>> 11
    let d1 := d1 - 10 * q
    let d2 := q + 2 * d2
    decDigit d1 :: if d2 ≠ 0 ∨ d3 ≠ 0 then
      let q := (d2 * 0xd) >>> 7
      let d2 := d2 - 10 * q
      let d3 := q + 4 * d3
      decDigit d2 :: if d3 ≠ 0 then
        let q := (d3 * 0xcd) >>> 11
        let d3 := d3 - 10 * q
        decDigit d3 :: if q ≠ 0 then [decDigit q] else []
      else []
    else []
  else []

/-- `put_dec_full` for values below `100000`: always five digits. -/
def putDecFull (q : ℕ) : List Char :=
  let d1 := (q >>> 4) &&& 0xf
  let d2 := (q >>> 8) &&& 0xf
  let d3 := q >>> 12
  let d0 := 6 * (d3 + d2 + d1) + (q &&& 0xf)
  let q := (d0 * 0xcd) >>> 11
  let d0 := d0 - 10 * q
  let d1 := q + 9 * d3 + 5 * d2 + d1
  let q := (d1 * 0xcd) >>> 11
  let d1 := d1 - 10 * q
  let d2 := q + 2 * d2
  let q := (d2 * 0xd) >>> 7
  let d2 := d2 - 10 * q
  let d3 := q + 4 * d3
  let q := (d3 * 0xcd) >>> 11
  let d3 := d3 - 10 * q
  [decDigit d0, decDigit d1, decDigit d2, decDigit d3, decDigit q]

/-- `put_dec`.  A value of 64 bits takes at most four turns. -/
def putDec : ℕ → ℕ → List Char
  | 0, _ => []
  | turns + 1, num =>
    if num < 100000 then putDecTrunc num
    else putDecFull (num % 100000) ++ putDec turns (num / 100000)

def smallDigits : List Char :=
  ['0', '1', '2', '3', '4', '5', '6', '7', '8', '9', 'a', 'b', 'c', 'd', 'e', 'f', 'x']

def largeDigits : List Char :=
  ['0', '1', '2', '3', '4', '5', '6', '7', '8', '9', 'A', 'B', 'C', 'D', 'E', 'F', 'X']

/-- The loop for bases that are powers of two.  A value of 64 bits takes at most 64 turns. -/
def maskDigits (digits : List Char) (mask shift : ℕ) : ℕ → ℕ → List Char
  | 0, _ => []
  | turns + 1, num =>
    digits.getD (num % 2 ^ 8 &&& mask) '0' ::
      if num >>> shift ≠ 0 then maskDigits digits mask shift turns (num >>> shift) else []

/-- The bases that `number` is called with. -/
inductive Base
  | oct
  | dec
  | hex
  deriving DecidableEq

/-- The digits in `tmp`, the least significant one first. -/
def numberDigits (num : BitVec 64) (base : Base) (digits : List Char) : List Char :=
  if num = 0 then ['0']
  else match base with
    | .oct => maskDigits digits 7 3 64 num.toNat
    | .hex => maskDigits digits 15 4 64 num.toNat
    | .dec => putDec 4 num.toNat

/-- The character `sign`, what is left of the number, and of the width. -/
def numberSign (num : BitVec 64) (size : ℤ) (type : Flags) : Option Char × BitVec 64 × ℤ :=
  if type.sign then
    if num.toInt < 0 then (some '-', -num, int (size - 1))
    else if type.plus then (some '+', num, int (size - 1))
    else if type.space then (some ' ', num, int (size - 1))
    else (none, num, size)
  else (none, num, size)

variable {σ : Type} (sink : Sink Char σ)

/-- A loop that puts out `c` and decrements `size` while `low <= size`: the value of `size` behind
the loop. -/
def padLoop (c : Char) (low size : ℤ) (s : σ) : ℤ × σ :=
  if low ≤ size then padLoop c low (size - 1) (sink.put c s) else (size, s)
termination_by (size + 1 - low).toNat

/-- `while (low <= --size)`, for `low` at least zero: only the first decrement can overflow. -/
def pad (c : Char) (low size : ℤ) (s : σ) : ℤ × σ := padLoop sink c low (int (size - 1)) s

/-- `while (len < size--)`: only the last decrement can overflow. -/
def padAfter (c : Char) (len size : ℤ) (s : σ) : ℤ × σ :=
  let (size, s) := padLoop sink c (len + 1) size s
  (int (size - 1), s)

/-- The prefix `0` or `0x`. -/
def putPrefix (base : Base) (digits : List Char) (s : σ) : σ :=
  let s := sink.put '0' s
  if base = .hex then sink.put (digits.getD 16 'x') s else s

def number (num : BitVec 64) (base : Base) (size precision : ℤ) (type : Flags) (s : σ) : σ :=
  let needPfx := type.special ∧ base ≠ .dec
  let digits := if type.large then largeDigits else smallDigits
  let zeropad := type.zeropad ∧ ¬type.left
  let (sign, num, size) := numberSign num size type
  let size := if needPfx then int (size - 1) else size
  let size := if needPfx ∧ base = .hex then int (size - 1) else size
  let tmp := numberDigits num base digits
  let precision := if (tmp.length : ℤ) > precision then (tmp.length : ℤ) else precision
  let size := int (size - precision)
  -- leading space padding
  let (size, s) := if ¬zeropad ∧ ¬type.left then pad sink ' ' 0 size s else (size, s)
  let s := sign.elim s fun c => sink.put c s
  let s := if needPfx then putPrefix sink base digits s else s
  -- zero or space padding
  let (size, s) :=
    if ¬type.left then pad sink (if zeropad then '0' else ' ') 0 size s else (size, s)
  let (_, s) := pad sink '0' tmp.length precision s
  let s := tmp.foldr sink.put s
  -- trailing space padding
  (pad sink ' ' 0 size s).2

/-! ## Conversions -/

/-- An argument: an `int`, a `long`, a `long long`, or a pointer.  A pointer that is printed as a
string comes with the characters that it points to, up to the NUL. -/
inductive Arg (W : ℕ)
  | int (v : BitVec 32)
  | long (v : BitVec W)
  | longLong (v : BitVec 64)
  | ptr (p : BitVec W) (s : List Char)

variable {W : ℕ}

/-- `va_arg (args, int)`, and with it the arguments that are left. -/
def vaInt : List (Arg W) → Option (BitVec 32 × List (Arg W))
  | .int v :: args => some (v, args)
  | _ => none

def vaLong : List (Arg W) → Option (BitVec W × List (Arg W))
  | .long v :: args => some (v, args)
  | _ => none

def vaLongLong : List (Arg W) → Option (BitVec 64 × List (Arg W))
  | .longLong v :: args => some (v, args)
  | _ => none

def vaPtr : List (Arg W) → Option (BitVec W × List Char × List (Arg W))
  | .ptr p s :: args => some (p, s, args)
  | _ => none

/-- The field width; a negative argument stands for `LEFT`. -/
def fieldWidth (d : Directive) (args : List (Arg W)) : Option (ℤ × Flags × List (Arg W)) :=
  match d.width with
  | .absent => some (-1, d.flags, args)
  | .digits i => some (i, d.flags, args)
  | .star => (vaInt args).map fun (v, args) =>
    if v.toInt < 0 then (int (-v.toInt), { d.flags with left := true }, args)
    else (v.toInt, d.flags, args)

/-- The precision; it is not negative if there is a dot. -/
def precision (d : Directive) (args : List (Arg W)) : Option (ℤ × List (Arg W)) :=
  match d.precision with
  | none => some (-1, args)
  | some .absent => some (0, args)
  | some (.digits i) => some (if i < 0 then 0 else i, args)
  | some .star => (vaInt args).map fun (v, args) => (if v.toInt < 0 then 0 else v.toInt, args)

/-- The argument of a conversion of a number. -/
def vaNum (qualifier : Option Char) (sign : Bool) (args : List (Arg W)) :
    Option (BitVec 64 × List (Arg W)) :=
  match qualifier with
  | some 'L' => vaLongLong args
  | some 'l' => (vaLong args).map fun (v, args) =>
    (if sign then v.signExtend 64 else v.setWidth 64, args)
  | some 'Z' => (vaLong args).map fun (v, args) => (v.setWidth 64, args)
  | some 'z' => (vaLong args).map fun (v, args) => (v.setWidth 64, args)
  | some 't' => (vaLong args).map fun (v, args) => (v.signExtend 64, args)
  | some 'h' => (vaInt args).map fun (v, args) =>
    (if sign then (v.setWidth 16).signExtend 64 else (v.setWidth 16).setWidth 64, args)
  | _ => (vaInt args).map fun (v, args) =>
    (if sign then v.signExtend 64 else v.setWidth 64, args)

/-- The conversion `c` -/
def putChar (c : Char) (fieldWidth : ℤ) (flags : Flags) (s : σ) : σ :=
  let (fieldWidth, s) := if ¬flags.left then pad sink ' ' 1 fieldWidth s else (fieldWidth, s)
  let s := sink.put c s
  (pad sink ' ' 1 fieldWidth s).2

/-- `strnlen`, as a value of type `int` -/
def strnlen (W : ℕ) (str : List Char) (precision : ℤ) : ℤ :=
  int (min str.length (BitVec.ofInt W precision).toNat : ℕ)

/-- The conversion `s` -/
def putString (str : List Char) (len fieldWidth : ℤ) (flags : Flags) (s : σ) : σ :=
  let (fieldWidth, s) :=
    if ¬flags.left then padAfter sink ' ' len fieldWidth s else (fieldWidth, s)
  let s := sink.putAll (str.take len.toNat) s
  (padAfter sink ' ' len fieldWidth s).2

/-- `PAGE_SIZE` -/
def pageSize : ℕ := 2 ^ 12

def nullText : List Char := ['<', 'N', 'U', 'L', 'L', '>']

/-- What a conversion of a number sets up: the base, and the flags with `SIGN` or `LARGE`. -/
def numberFormat (flags : Flags) : Char → Option (Base × Flags)
  | 'o' => some (.oct, flags)
  | 'X' => some (.hex, { flags with large := true })
  | 'x' => some (.hex, flags)
  | 'd' => some (.dec, { flags with sign := true })
  | 'i' => some (.dec, { flags with sign := true })
  | 'u' => some (.dec, flags)
  | _ => none

/-- The switch over the conversions, when the width, the flags and the precision are known.  The
store of the conversion `n` is `count`, with the qualifier and the pointer that it takes. -/
def convertArg (count : Option Char → BitVec W → σ → σ) (d : Directive) (fieldWidth : ℤ)
    (flags : Flags) (precision : ℤ) (args : List (Arg W)) (s : σ) : Option (List (Arg W) × σ) :=
  match d.conv with
  | some 'c' => (vaInt args).bind fun (v, args) =>
    some (args, putChar sink (Char.ofNat (v.toNat % 2 ^ 8)) fieldWidth flags s)
  | some 's' => (vaPtr args).bind fun (p, str, args) =>
    let str := if p.toNat < pageSize then nullText else str
    some (args, putString sink str (strnlen W str precision) fieldWidth flags s)
  | some 'p' => (vaPtr args).bind fun (p, _, args) =>
    if fieldWidth = -1 then
      some (args, number sink (p.setWidth 64) .hex (2 * (W / 8) : ℕ) precision
        { flags with zeropad := true } s)
    else some (args, number sink (p.setWidth 64) .hex fieldWidth precision flags s)
  | some 'n' => (vaPtr args).bind fun (p, _, args) => some (args, count d.qualifier p s)
  | some '%' => some (args, sink.put '%' s)
  | some c =>
    match numberFormat flags c with
    | some (base, flags) => (vaNum d.qualifier flags.sign args).bind fun (num, args) =>
      some (args, number sink num base fieldWidth precision flags s)
    | none => some (args, sink.put c (sink.put '%' s))
  | none => some (args, sink.put '%' s)

/-- One conversion. -/
def convert (count : Option Char → BitVec W → σ → σ) (d : Directive) (args : List (Arg W)) (s : σ) :
    Option (List (Arg W) × σ) :=
  (fieldWidth d args).bind fun (fieldWidth, flags, args) =>
    (precision d args).bind fun (precision, args) =>
      convertArg sink count d fieldWidth flags precision args s

/-- The loop over the format. -/
def formatLoop (count : Option Char → BitVec W → σ → σ) :
    List Item → List (Arg W) → σ → Option σ
  | [], _, s => some s
  | .char c :: items, args, s => formatLoop count items args (sink.put c s)
  | .directive d :: items, args, s =>
    (convert sink count d args s).bind fun (args, s) => formatLoop count items args s

/-! ## The routines -/

/-- The output to a buffer: the pointer, and all stores so far. -/
structure Out (W : ℕ) where
  str : BitVec W
  stores : List (BitVec W × Char)

/-- `if (str < end) *str = c; ++str` -/
def guarded (stop : BitVec W) : Sink Char (Out W) where
  put c out := ⟨out.str + 1, if out.str < stop then out.stores ++ [(out.str, c)] else out.stores⟩

/-- The store of the conversion `n`, of as many bytes as its type has. -/
def storeCount (buf : BitVec W) (qualifier : Option Char) (p : BitVec W) (out : Out W) : Out W :=
  let bytes := if qualifier = some 'l' ∨ qualifier = some 'Z' ∨ qualifier = some 'z' then W / 8
    else 4
  ⟨out.str, out.stores ++ (List.range bytes).map fun k =>
    (p + BitVec.ofNat W k, Char.ofNat ((out.str - buf).toNat / 2 ^ (8 * k) % 2 ^ 8))⟩

/-- `vsnprintf`: what it returns, and its stores.  There is no result if the arguments do not match
the format. -/
def vsnprintf (buf size : BitVec W) (fmt : List Char) (args : List (Arg W)) :
    Option (ℤ × List (BitVec W × Char)) :=
  if (size.setWidth 32).toInt < 0 then some (0, [])
  else do
    let stop := if buf + size < buf then -1 else buf + size
    let size := if buf + size < buf then -1 - buf else size
    let out ← formatLoop (guarded stop) (storeCount buf) (parse fmt) args ⟨buf, []⟩
    let stores :=
      if 0 < size then
        if out.str < stop then out.stores ++ [(out.str, '\x00')]
        else out.stores ++ [(stop - 1, '\x00')]
      else out.stores
    some (((out.str - buf).setWidth 32).toInt, stores)

/-- `vscnprintf`, which compares and returns a `size_t` -/
def vscnprintf (buf size : BitVec W) (fmt : List Char) (args : List (Arg W)) :
    Option (ℤ × List (BitVec W × Char)) := do
  let (i, stores) ← vsnprintf buf size fmt args
  let i := BitVec.ofInt W i
  some (((if size ≤ i then size - 1 else i).setWidth 32).toInt, stores)

/-- The text without a limit. -/
def text (fmt : List Char) (args : List (Arg W)) : Option (List Char) :=
  formatLoop (Sink.collect Char) (fun _ _ s => s) (parse fmt) args []

end Gp2xKernel.Vsprintf
