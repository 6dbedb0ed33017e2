/-
JSON text: how strings and numbers are written and read.

* `Json.quote` — a string in quotes, with escapes for quotes, backslashes and
  control characters only;
* `Json.rawString` — the pieces of a string as they are written, up to the
  closing quote: characters, and code units given by four hexadecimal digits;
* `Json.decode` — the characters that the pieces stand for, where a code unit
  of a surrogate must be part of a pair;
* `Json.number` — a number by its sign, its power of ten and its significand,
  which has 64 bits: digits that do not fit in are dropped.
-/
import Transduction.Binary64

namespace Transduction.Json

/-- Why a text is refused. -/
inductive Failure where
  /-- The text is no JSON, or not JSON alone. -/
  | malformed
  /-- The text is JSON so far, but does not describe the value asked for. -/
  | unexpected
deriving DecidableEq, Repr

/-- A control character as a code unit of four hexadecimal digits. -/
def unitEscape (c : Char) : List Char :=
  ['\\', 'u', '0', '0', Nat.digitChar (c.toNat / 16), Nat.digitChar (c.toNat % 16)]

/-- One character of a string. -/
def quoteChar (c : Char) : List Char :=
  match c with
  | '"' => ['\\', '"']
  | '\\' => ['\\', '\\']
  | '\n' => ['\\', 'n']
  | '\r' => ['\\', 'r']
  | '\t' => ['\\', 't']
  | '\x08' => ['\\', 'b']
  | '\x0c' => ['\\', 'f']
  | c => if c < ' ' then unitEscape c else [c]

/-- A string in quotes. -/
def quote (w : List Char) : List Char := '"' :: w.flatMap quoteChar ++ ['"']

/-- A piece of a written string. -/
inductive Piece where
  | char (c : Char)
  | unit (n : Nat)
deriving DecidableEq, Repr

/-- The value of a hexadecimal digit. -/
def hexDigit? (c : Char) : Option Nat :=
  if '0' ≤ c ∧ c ≤ '9' then some (c.toNat - '0'.toNat)
  else if 'a' ≤ c ∧ c ≤ 'f' then some (c.toNat - 'a'.toNat + 10)
  else if 'A' ≤ c ∧ c ≤ 'F' then some (c.toNat - 'A'.toNat + 10)
  else none

/-- The value of four hexadecimal digits. -/
def hexUnit? (a b c d : Char) : Option Nat := do
  return (((← hexDigit? a) * 16 + (← hexDigit? b)) * 16 + (← hexDigit? c)) * 16 + (← hexDigit? d)

/-- The character that a backslash and a letter stand for. -/
def shortEscape? : Char → Option Char
  | '"' => some '"'
  | '\\' => some '\\'
  | '/' => some '/'
  | 'b' => some '\x08'
  | 'f' => some '\x0c'
  | 'n' => some '\n'
  | 'r' => some '\r'
  | 't' => some '\t'
  | _ => none

/-- The pieces of a string behind its opening quote, and the text behind its
closing quote. -/
def rawString : List Char → Except Failure (List Piece × List Char)
  | '"' :: text => .ok ([], text)
  | '\\' :: 'u' :: a :: b :: c :: d :: text =>
    match hexUnit? a b c d with
    | none => .error .malformed
    | some n => (rawString text).map fun (pieces, rest) => (.unit n :: pieces, rest)
  | '\\' :: e :: text =>
    match shortEscape? e with
    | none => .error .malformed
    | some c => (rawString text).map fun (pieces, rest) => (.char c :: pieces, rest)
  | c :: text =>
    if c < ' ' ∨ c = '\\' then .error .malformed
    else (rawString text).map fun (pieces, rest) => (.char c :: pieces, rest)
  | [] => .error .malformed

/-- Whether a code unit is the first half of a pair. -/
def isHighSurrogate (n : Nat) : Bool := 0xd800 ≤ n && n ≤ 0xdbff

/-- Whether a code unit is the second half of a pair. -/
def isLowSurrogate (n : Nat) : Bool := 0xdc00 ≤ n && n ≤ 0xdfff

/-- The characters that pieces stand for. -/
def decode : List Piece → Except Failure (List Char)
  | [] => .ok []
  | .char c :: pieces => (decode pieces).map (c :: ·)
  | .unit n :: .unit m :: pieces =>
    if isHighSurrogate n then
      if isLowSurrogate m then
        (decode pieces).map (Char.ofNat (0x10000 + (n - 0xd800) * 0x400 + (m - 0xdc00)) :: ·)
      else .error .malformed
    else if isLowSurrogate n then .error .malformed
    else (decode (.unit m :: pieces)).map (Char.ofNat n :: ·)
  | .unit n :: pieces =>
    if isHighSurrogate n || isLowSurrogate n then .error .malformed
    else (decode pieces).map (Char.ofNat n :: ·)

/-- The characters of a string behind its opening quote, and the text behind its
closing quote. -/
def string (text : List Char) : Except Failure (List Char × List Char) := do
  let (pieces, rest) ← rawString text
  return (← decode pieces, rest)

/-- A written number: `significand` times ten to the power `exponent`, whether
it has a minus sign, and whether it is an integer with all its digits kept. -/
structure Number where
  negative : Bool
  significand : Nat
  exponent : Int
  isInteger : Bool
deriving DecidableEq, Repr

/-- The number that a digit is appended to. -/
def withDigit (n : Nat) (d : Char) : Nat := n * 10 + (d.toNat - '0'.toNat)

/-- The number that decimal digits write. -/
def ofDigits (ds : List Char) : Nat := ds.foldl withDigit 0

/-- Appends digits to a significand while it stays below 64 bits; the second
part is the number of digits left over. -/
def significand : Nat → List Char → Nat × Nat
  | n, [] => (n, 0)
  | n, d :: ds =>
    if withDigit n d < 2 ^ 64 then significand (withDigit n d) ds else (n, ds.length + 1)

theorem le_foldl_withDigit (n : Nat) (ds : List Char) : n ≤ ds.foldl withDigit n := by
  induction ds generalizing n with
  | nil => exact Nat.le_refl n
  | cons d ds ih =>
    have grown : n ≤ withDigit n d := by unfold withDigit; omega
    exact Nat.le_trans grown (ih _)

/-- Digits that write a number of 64 bits are all kept. -/
theorem significand_of_lt {n : Nat} {ds : List Char} (h : ds.foldl withDigit n < 2 ^ 64) :
    significand n ds = (ds.foldl withDigit n, 0) := by
  induction ds generalizing n with
  | nil => rfl
  | cons d ds ih =>
    rw [List.foldl_cons] at h
    rw [significand, if_pos (Nat.lt_of_le_of_lt (le_foldl_withDigit _ ds) h), ih h, List.foldl_cons]

/-- The decimal digits in front of a text, of which there must be one. -/
def digits (text : List Char) : Except Failure (List Char × List Char) :=
  match text.takeWhile Char.isDigit with
  | [] => .error .malformed
  | ds => .ok (ds, text.dropWhile Char.isDigit)

/-- The fraction of a number, if it has one: its digits. -/
def fraction (text : List Char) : Except Failure (List Char × List Char) :=
  match text with
  | '.' :: text => digits text
  | _ => .ok ([], text)

/-- The exponent of a number, if it has one. -/
def exponent (text : List Char) : Except Failure (Option Int × List Char) :=
  let signed (negative : Bool) (text : List Char) : Except Failure (Option Int × List Char) := do
    let (ds, rest) ← digits text
    return (some (if negative then -(ofDigits ds : Int) else ofDigits ds), rest)
  match text with
  | [] => .ok (none, [])
  | e :: text =>
    if e = 'e' ∨ e = 'E' then
      match text with
      | '+' :: text => signed false text
      | '-' :: text => signed true text
      | _ => signed false text
    else .ok (none, e :: text)

/-- A number at the front of a text, and the text behind it. -/
def number (text : List Char) : Except Failure (Number × List Char) := do
  let (negative, text) :=
    match text with
    | '-' :: text => (true, text)
    | _ => (false, text)
  let (whole, text) ← digits text
  -- no zeros in front of a number
  if whole.head? = some '0' ∧ whole ≠ ['0'] then throw .malformed
  let (part, text) ← fraction text
  let (power, text) ← exponent text
  -- a whole digit left over still moves the point, and one of the fraction does not
  let (n, left) := significand 0 whole
  let (n, unused) := significand n part
  let value : Number :=
    { negative := negative
      significand := n
      exponent := power.getD 0 + left - (part.length - unused : Nat)
      isInteger := part.isEmpty && power.isNone && left == 0 }
  return (value, text)

/-- Whether a number is too large for binary64.  It is taken for the product of
its significand and its power of ten, each of them rounded. -/
def Number.overflows (n : Number) : Bool :=
  match n.exponent with
  | .ofNat e =>
    n.significand != 0 &&
      (e > 308 || Binary64.round n.significand * Binary64.round (10 ^ e) ≥ Binary64.limit)
  | .negSucc _ => false

end Transduction.Json
