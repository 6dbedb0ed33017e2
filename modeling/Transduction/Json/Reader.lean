/-
Readers of JSON values.

A reader takes a value of one type from the front of a text, step by step, and
fails at the first place where the text cannot go on: because it is no JSON, or
because the JSON there does not describe such a value.  Readers that repeat
take a bound on the number of repetitions; the length of the text is enough,
since each repetition takes a character.

* `Json.natural`, `Json.text`, `Json.symbol` — numbers, strings and strings of
  one character;
* `Json.list`, `Json.dictionary` — arrays of values and objects of entries;
* `Json.record` — objects with named fields, which may also be written as an
  array of the fields in order;
* `Json.read` — a whole text that holds one value.
-/
import Transduction.Json.Text

namespace Transduction.Json

/-- A reader of one value from the front of a text. -/
abbrev Reader := StateT (List Char) (Except Failure)

variable {α κ : Type}

/-- The blanks that may stand between the parts of a text. -/
def isBlank (c : Char) : Bool := c == ' ' || c == '\n' || c == '\t' || c == '\r'

/-- Drops blanks and looks at the next character. -/
def peek : Reader (Option Char) := do
  modify (·.dropWhile isBlank)
  return (← get).head?

/-- Drops one character. -/
def discard : Reader Unit := modify List.tail

/-- Drops blanks and one given character, which must be there. -/
def expect (c : Char) : Reader Unit := do
  if (← peek) = some c then discard else throw .malformed

/-- Drops one given word, which must be there. -/
def literal (w : List Char) : Reader Unit := do
  let text ← get
  if text.take w.length = w then set (text.drop w.length) else throw .malformed

/-- A string of which the opening quote is next. -/
def quoted : Reader (List Char) := do
  discard
  let (w, rest) ← string (← get)
  set rest
  return w

/-- A number that is next; too large a number is no number at all. -/
def numeral : Reader Number := do
  let (n, rest) ← number (← get)
  if n.overflows then throw .malformed
  set rest
  return n

/-- Fails, where a value of another kind begins with the character `c`: a value
that is cut off or misspelt is no JSON. -/
def mismatch (c : Char) : Reader α := do
  match c with
  | 'n' => literal "null".toList
  | 't' => literal "true".toList
  | 'f' => literal "false".toList
  | '"' => discard; let (_, rest) ← string (← get); set rest
  | '[' | '\x7b' => pure ()
  | c => if c = '-' ∨ c.isDigit then let _ ← numeral else throw .malformed
  throw .unexpected

/-- A natural number below a limit. -/
def natural (limit : Nat) : Reader Nat := do
  match ← peek with
  | none => throw .malformed
  | some c =>
    if c = '-' ∨ c.isDigit then
      let n ← numeral
      if n.negative || !n.isInteger || n.significand ≥ limit then throw .unexpected
      return n.significand
    else mismatch c

/-- A string. -/
def text : Reader (List Char) := do
  match ← peek with
  | none => throw .malformed
  | some '"' => quoted
  | some c => mismatch c

/-- The character of a word that has exactly one. -/
def single (w : List Char) : Reader Char :=
  match w with
  | [c] => return c
  | _ => throw .unexpected

/-- A string of one character. -/
def symbol : Reader Char := do single (← text)

/-- The values behind the first one, each behind a comma, up to the end mark. -/
def further (item : Reader α) (close : Char) : Nat → Reader (List α)
  | 0 => throw .malformed
  | bound + 1 => do
    match ← peek with
    | none => throw .malformed
    | some c =>
      if c = close then
        discard
        return []
      else if c = ',' then
        discard
        -- no comma in front of the end mark
        if (← peek) = some close then throw .malformed
        let a ← item
        return a :: (← further item close bound)
      else throw .malformed

/-- Values with commas in between, up to the end mark. -/
def items (item : Reader α) (close : Char) (bound : Nat) : Reader (List α) := do
  match ← peek with
  | none => throw .malformed
  | some c =>
    if c = close then
      discard
      return []
    else
      let a ← item
      return a :: (← further item close bound)

/-- An array of values. -/
def list (item : Reader α) (bound : Nat) : Reader (List α) := do
  match ← peek with
  | none => throw .malformed
  | some '[' => discard; items item ']' bound
  | some c => mismatch c

/-- The name of an entry, of which the quote must be next, and its colon. -/
def entryName (name : List Char → Reader κ) : Reader κ := do
  if (← peek) ≠ some '"' then throw .malformed
  let k ← name (← quoted)
  expect ':'
  return k

/-- An object of entries whose names are of one type and whose values are of
another. -/
def dictionary (name : List Char → Reader κ) (value : Reader α) (bound : Nat) :
    Reader (List (κ × α)) := do
  match ← peek with
  | none => throw .malformed
  | some '\x7b' =>
    discard
    items (do let k ← entryName name; return (k, ← value)) '\x7d' bound
  | some c => mismatch c

/-- Drops a value of any kind.  Escapes in its strings need not form characters,
and its numbers may be of any size. -/
def skip : Nat → Reader Unit
  | 0 => throw .malformed
  | bound + 1 => do
    let skipString : Reader Unit := do
      discard
      let (_, rest) ← rawString (← get)
      set rest
    match ← peek with
    | none => throw .malformed
    | some 'n' => literal "null".toList
    | some 't' => literal "true".toList
    | some 'f' => literal "false".toList
    | some '"' => skipString
    | some '[' =>
      discard
      let _ ← items (skip bound) ']' bound
    | some '\x7b' =>
      discard
      let entry : Reader Unit := do
        if (← peek) ≠ some '"' then throw .malformed
        skipString
        expect ':'
        skip bound
      let _ ← items entry '\x7d' bound
    | some c =>
      if c = '-' ∨ c.isDigit then
        let (_, rest) ← number (← get)
        set rest
      else throw .malformed

/-- A field of a record that is read into a value of type `α`: its name, whether
it has a value already, and how its value is read and entered. -/
structure Field (α : Type) where
  name : String
  isSet : α → Bool
  enter : α → Reader α

/-- How a record treats a field without a meaning and a field that is repeated. -/
inductive Discipline where
  /-- Unknown fields are skipped; a repeated field is refused at its name. -/
  | lenient
  /-- Unknown fields are refused; a repeated field is refused behind its value. -/
  | strict
deriving DecidableEq, Repr

/-- The field that a name stands for, unless the name is refused. -/
def fieldNamed (fields : List (Field α)) (d : Discipline) (a : α) (w : List Char) :
    Reader (Option (Field α)) :=
  match fields.find? (·.name.toList = w), d with
  | some field, .lenient => if field.isSet a then throw .unexpected else return some field
  | some field, .strict => return some field
  | none, .lenient => return none
  | none, .strict => throw .unexpected

/-- Reads one named entry into the record. -/
def enterField (fields : List (Field α)) (d : Discipline) (bound : Nat) (a : α) : Reader α := do
  match ← entryName (fieldNamed fields d a) with
  | none =>
    skip bound
    return a
  | some field =>
    let b ← field.enter a
    -- only a strict record comes here with a field that is set
    if field.isSet a then throw .unexpected
    return b

/-- Reads the entries behind the first one into the record. -/
def furtherFields (fields : List (Field α)) (d : Discipline) : Nat → α → Reader α
  | 0, _ => throw .malformed
  | bound + 1, a => do
    match ← peek with
    | some '\x7d' => return a
    | some ',' =>
      discard
      furtherFields fields d bound (← enterField fields d bound a)
    | _ => throw .malformed

/-- Reads the fields of a record in order from an array; `first` says that no
comma is due. -/
def orderedFields (a : α) (first : Bool) : List (Field α) → Reader α
  | [] => return a
  | field :: fields => do
    match ← peek with
    | some ']' => throw .unexpected
    | some ',' => if first then pure () else discard
    | _ => if first then pure () else throw .malformed
    if (← peek) = some ']' then throw .malformed
    orderedFields (← field.enter a) false fields

/-- A record with named fields, from `empty`; `finish` fails where a field is
missing. -/
def record {β : Type} (fields : List (Field α)) (d : Discipline) (empty : α)
    (finish : α → Reader β) (bound : Nat) : Reader β := do
  match ← peek with
  | none => throw .malformed
  | some '[' =>
    discard
    let b ← finish (← orderedFields empty true fields)
    expect ']'
    return b
  | some '\x7b' =>
    discard
    let a ←
      if (← peek) = some '\x7d' then pure empty
      else do furtherFields fields d bound (← enterField fields d bound empty)
    let b ← finish a
    expect '\x7d'
    return b
  | some c => mismatch c

/-- A value that must be there. -/
def required : Option α → Reader α
  | some a => return a
  | none => throw .unexpected

/-- The value of a whole text, behind which only blanks may follow.  The reader
is given the length of the text as its bound. -/
def read (reader : Nat → Reader α) (text : List Char) : Except Failure α := do
  let (a, rest) ← (reader (text.length + 1)).run text
  if (rest.dropWhile isBlank).isEmpty then return a else throw .malformed

end Transduction.Json
