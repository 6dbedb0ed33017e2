/-
Saved bimachines.

A bimachine is saved as one JSON object with its left automaton, its right
automaton and its table.  An automaton lists the moves of each state as an
object from symbols to targets, its start state, its accepting marks packed
into bytes, and its alphabet.  The table lists its entries in ascending order.
Each entry and each item has a line of its own, indented by what stands around.

Reading checks the shape of the text and nothing else: numbers may name states
that do not exist, and of a repeated symbol or table key the last one counts.

* `Bimachine.save` — the text of a bimachine;
* `Bimachine.load` — the bimachine of a text, or why it has none.
-/
import Transduction.Bimachine.Basic
import Transduction.Json.Reader

namespace Transduction

namespace Saved

open Json

/-! ### Writing -/

/-- A natural number in decimal digits. -/
def decimal (n : Nat) : List Char := Nat.toDigits 10 n

/-- A line break, and two blanks for each value around. -/
def newline (depth : Nat) : List Char := '\n' :: List.replicate (2 * depth) ' '

/-- Texts on lines of their own, with commas in between. -/
def commas (depth : Nat) : List (List Char) → List Char
  | [] => []
  | [t] => newline depth ++ t
  | t :: ts => newline depth ++ t ++ ',' :: commas depth ts

/-- Texts between two marks, the last of which has a line of its own; without texts the marks
stand side by side. -/
def enclosed (first last : Char) (depth : Nat) : List (List Char) → List Char
  | [] => [first, last]
  | ts => first :: commas (depth + 1) ts ++ newline depth ++ [last]

/-- An array of texts. -/
def array (depth : Nat) (ts : List (List Char)) : List Char := enclosed '[' ']' depth ts

/-- An object of named texts. -/
def object (depth : Nat) (entries : List (List Char × List Char)) : List Char :=
  enclosed '\x7b' '\x7d' depth (entries.map fun (name, t) => quote name ++ [':', ' '] ++ t)

/-- An object with the given field names. -/
def fields (depth : Nat) (entries : List (String × List Char)) : List Char :=
  object depth (entries.map fun (name, t) => (name.toList, t))

/-- The name under which marks are stored with the least weight first. -/
def bitOrder : String := "bitvec::order::Lsb0"

/-- Packed marks: the head tells how many bits in front of them are no marks. -/
def writeMarks (depth : Nat) (m : Marks) : List Char :=
  fields depth [
    ("order", quote bitOrder.toList),
    ("head", fields (depth + 1) [("width", decimal 8), ("index", decimal m.lead)]),
    ("bits", decimal m.size),
    ("data", array (depth + 1) (m.toBytes.map decimal))]

/-- The moves of a state. -/
def writeRow (depth : Nat) (row : List (Char × Nat)) : List Char :=
  fields depth [("transitions", object (depth + 1) (row.map fun (c, t) => ([c], decimal t)))]

/-- An automaton. -/
def writeDfa (depth : Nat) (d : Dfa) : List Char :=
  fields depth [
    ("states", array (depth + 1) (d.rows.toList.map (writeRow (depth + 2)))),
    ("start_state", decimal d.start),
    ("accept_states", writeMarks (depth + 1) d.accepting),
    ("alphabet", array (depth + 1) (d.alphabet.map fun c => quote [c]))]

/-- An entry of the table. -/
def writeEntry (depth : Nat) (entry : (Nat × Char × Nat) × Word) : List Char :=
  let ((l, c, r), w) := entry
  fields depth
    [("left", decimal l), ("symbol", quote [c]), ("right", decimal r), ("output", quote w)]

/-- A bimachine. -/
def writeBimachine (b : Bimachine) : List Char :=
  fields 0 [
    ("left", writeDfa 1 b.left),
    ("right", writeDfa 1 b.right),
    ("output_table", array 1 (b.table.map (writeEntry 2)))]

/-! ### Reading -/

/-- A number of 64 bits. -/
def readNumber : Reader Nat := natural (2 ^ 64)

/-- A byte. -/
def readByte : Reader Nat := natural (2 ^ 8)

/-- The parts of a head: the width of a unit, which must be a byte, and the
number of bits in front of the first mark. -/
structure Head where
  width : Option Nat := none
  index : Option Nat := none

/-- The number of bits in front of the first mark, which must lie in the first
byte. -/
def readHead (bound : Nat) : Reader (Fin 8) :=
  record [
      ⟨"width", fun h => h.width.isSome, fun h => do return { h with width := some (← readByte) }⟩,
      ⟨"index", fun h => h.index.isSome, fun h => do return { h with index := some (← readByte) }⟩]
    .strict ({} : Head)
    (fun h => do
      let width ← required h.width
      let index ← required h.index
      if h : width = 8 ∧ index < 8 then return ⟨index, h.2⟩ else throw .unexpected)
    bound

/-- The parts of packed marks. -/
structure Packed where
  order : Option Unit := none
  head : Option (Fin 8) := none
  bits : Option Nat := none
  data : Option (List Nat) := none

/-- The name of the order of packed marks, which must be the one known. -/
def readOrder : Reader Unit := do
  if (← text) ≠ bitOrder.toList then throw .unexpected

/-- Packed marks, of which the bytes must hold as many as are told. -/
def readMarks (bound : Nat) : Reader Marks :=
  record [
      ⟨"order", fun p => p.order.isSome, fun p => do return { p with order := some (← readOrder) }⟩,
      ⟨"head", fun p => p.head.isSome,
        fun p => do return { p with head := some (← readHead bound) }⟩,
      ⟨"bits", fun p => p.bits.isSome, fun p => do return { p with bits := some (← readNumber) }⟩,
      ⟨"data", fun p => p.data.isSome,
        fun p => do return { p with data := some (← list readByte bound) }⟩]
    .strict ({} : Packed)
    (fun p => do
      let _ ← required p.order
      let head ← required p.head
      let bits ← required p.bits
      required (Marks.ofBytes? head bits (← required p.data)))
    bound

/-- The moves of a state, by ascending symbol. -/
def readRow (bound : Nat) : Reader (List (Char × Nat)) :=
  record [⟨"transitions", Option.isSome, fun _ => do
      let entries ← dictionary single readNumber bound
      return some (entries.foldl (fun row (c, t) => Row.set c t row) [])⟩]
    .lenient none required bound

/-- The parts of an automaton. -/
structure Parts where
  rows : Option (List (List (Char × Nat))) := none
  start : Option Nat := none
  accepting : Option Marks := none
  alphabet : Option (List Char) := none

def readDfa (bound : Nat) : Reader Dfa :=
  record [
      ⟨"states", fun p => p.rows.isSome,
        fun p => do return { p with rows := some (← list (readRow bound) bound) }⟩,
      ⟨"start_state", fun p => p.start.isSome,
        fun p => do return { p with start := some (← readNumber) }⟩,
      ⟨"accept_states", fun p => p.accepting.isSome,
        fun p => do return { p with accepting := some (← readMarks bound) }⟩,
      ⟨"alphabet", fun p => p.alphabet.isSome,
        fun p => do return { p with alphabet := some (← list symbol bound) }⟩]
    .lenient ({} : Parts)
    (fun p => do
      let rows ← required p.rows
      let start ← required p.start
      let accepting ← required p.accepting
      let alphabet ← required p.alphabet
      return { rows := rows.toArray, start := start, accepting := accepting
               alphabet := ascending alphabet })
    bound

/-- The parts of a table entry. -/
structure Entry where
  left : Option Nat := none
  symbol : Option Char := none
  right : Option Nat := none
  output : Option Word := none

def readEntry (bound : Nat) : Reader ((Nat × Char × Nat) × Word) :=
  record [
      ⟨"left", fun e => e.left.isSome, fun e => do return { e with left := some (← readNumber) }⟩,
      ⟨"symbol", fun e => e.symbol.isSome, fun e => do return { e with symbol := some (← symbol) }⟩,
      ⟨"right", fun e => e.right.isSome,
        fun e => do return { e with right := some (← readNumber) }⟩,
      ⟨"output", fun e => e.output.isSome, fun e => do return { e with output := some (← text) }⟩]
    .lenient ({} : Entry)
    (fun e => do
      let left ← required e.left
      let symbol ← required e.symbol
      let right ← required e.right
      return ((left, symbol, right), ← required e.output))
    bound

/-- The parts of a bimachine. -/
structure Halves where
  left : Option Dfa := none
  right : Option Dfa := none
  table : Option OutputTable := none

def readBimachine (bound : Nat) : Reader Bimachine :=
  record [
      ⟨"left", fun h => h.left.isSome,
        fun h => do return { h with left := some (← readDfa bound) }⟩,
      ⟨"right", fun h => h.right.isSome,
        fun h => do return { h with right := some (← readDfa bound) }⟩,
      ⟨"output_table", fun h => h.table.isSome, fun h => do
        let entries ← list (readEntry bound) bound
        return { h with table := some (OutputTable.ofEntries entries) }⟩]
    .lenient ({} : Halves)
    (fun h => do
      let left ← required h.left
      let right ← required h.right
      return { left := left, right := right, table := ← required h.table })
    bound

end Saved

namespace Bimachine

/-- The text of a saved bimachine. -/
def save (b : Bimachine) : String := String.ofList (Saved.writeBimachine b ++ ['\n'])

/-- The bimachine of a saved text, or why it has none. -/
def load (text : String) : Except Json.Failure Bimachine :=
  Json.read Saved.readBimachine text.toList

end Bimachine

end Transduction
