/-
Deterministic automata with partial move tables.

A row lists the moves of one state by ascending symbol, one target a symbol; a
symbol that is not listed has no move, and a word that meets a missing move is
rejected.  Nothing forces the parts of an automaton to agree: one that is read
from a file may name states that do not exist.  `Dfa.WellFormed` says when they
do agree.

* `Dfa.delta` — the move of a state on a symbol, none outside the table;
* `Dfa.trace` — the states a word visits, as far as it can be read, and whether
  it is accepted;
* `Dfa.declare` — an automaton from the lists that name its parts, or the first
  thing wrong with them.
-/
import Transduction.Machine.Simulation
import Transduction.Marks

namespace Transduction

namespace Row

/-- The row with the target of one symbol set. -/
def set (c : Char) (t : Nat) : List (Char × Nat) → List (Char × Nat)
  | [] => [(c, t)]
  | (d, u) :: row =>
    if c < d then (c, t) :: (d, u) :: row
    else if c = d then (c, t) :: row
    else (d, u) :: set c t row

theorem lookup_set (c d : Char) (t : Nat) (row : List (Char × Nat)) :
    (set c t row).lookup d = if d = c then some t else row.lookup d := by
  induction row with
  | nil => grind [set]
  | cons entry row ih =>
    obtain ⟨e, u⟩ := entry
    unfold set
    split
    · grind
    · split <;> grind

end Row

/-- A deterministic automaton: the moves of each state, the start state, one
accepting mark a state, and the symbols it is declared over. -/
structure Dfa where
  rows : Array (List (Char × Nat))
  start : Nat
  accepting : Marks
  alphabet : List Char
deriving DecidableEq, Repr

namespace Dfa

/-- The number of states. -/
def size (d : Dfa) : Nat := d.rows.size

/-- The moves of a state by ascending symbol. -/
def row (d : Dfa) (q : Nat) : List (Char × Nat) := (d.rows[q]?).getD []

/-- The target of the move from a state on a symbol, if there is one. -/
def delta (d : Dfa) (q : Nat) (c : Char) : Option Nat := (d.row q).lookup c

def isAccepting (d : Dfa) (q : Nat) : Bool := d.accepting.contains q

/-- The numbers with an accepting mark, in ascending order. -/
def acceptingStates (d : Dfa) : List Nat := d.accepting.toList

/-- The number of moves of all states together. -/
def moveCount (d : Dfa) : Nat := d.rows.foldl (fun n row => n + row.length) 0

/-- The parts of the automaton agree: the start state and all targets exist,
each state has a mark, rows ascend, and the alphabet holds the symbols of the
rows and no others. -/
structure WellFormed (d : Dfa) : Prop where
  start_lt : d.start < d.size
  target_lt : ∀ q c t, (c, t) ∈ d.row q → t < d.size
  accepting_size : d.accepting.size = d.size
  row_ascending : ∀ q, (d.row q).Pairwise (fun a b => a.1 < b.1)
  mem_alphabet : ∀ c, c ∈ d.alphabet ↔ ∃ q t, (c, t) ∈ d.row q
  alphabet_ascending : d.alphabet.Pairwise (· < ·)

/-- The automaton with the given rows, over the symbols of the rows. -/
def ofRows (rows : Array (List (Char × Nat))) (start : Nat) (accepting : Array Bool) : Dfa where
  rows := rows
  start := start
  accepting := { values := accepting }
  alphabet := ascending (rows.toList.flatMap fun row => row.map (·.1))

/-- The states visited from a state on, while moves exist, and whether the whole
word is read and the last state accepts. -/
def trace (d : Dfa) : Nat → Word → Bool × List Nat
  | q, [] => (d.isAccepting q, [q])
  | q, c :: w =>
    match d.delta q c with
    | none => (false, [q])
    | some t =>
      let (accepted, path) := d.trace t w
      (accepted, q :: path)

/-- The trace of a word that is read from its first symbol to its last. -/
def forwardTrace (d : Dfa) (w : Word) : Bool × List Nat := d.trace d.start w

/-- The trace of a word that is read from its last symbol to its first. -/
def backwardTrace (d : Dfa) (w : Word) : Bool × List Nat := d.trace d.start w.reverse

def recognizes (d : Dfa) (w : Word) : Bool := (d.forwardTrace w).1

/-- Enters one declared transition, unless it names an undeclared state or gives
a second target to a state and symbol. -/
def enter (size : Nat) (rows : Array (List (Char × Nat))) (arc : Nat × Char × Nat) :
    Except ConstructionError (Array (List (Char × Nat))) := do
  let (p, c, t) := arc
  checkState size p
  checkState size t
  match ((rows[p]?).getD []).lookup c with
  | some first => if first ≠ t then throw (.nondeterministic p c first t)
  | none => pure ()
  return rows.modify p (Row.set c t)

/-- An automaton from its declaration, unless something is wrong with it.  A
transition may be listed more than once. -/
def declare (size start : Nat) (finals : List Nat) (arcs : List (Nat × Char × Nat)) :
    Except ConstructionError Dfa := do
  checkState size start
  finals.forM (checkState size)
  let rows ← arcs.foldlM (enter size) (Array.replicate size [])
  return ofRows rows start (Array.ofFn fun q : Fin size => finals.contains q.val)

/-- The automaton of an exploration whose visits list one successor a symbol, by
ascending symbol; the first item found is the start state. -/
def ofExploration {κ ι : Type} [Ord ι] (key : κ → ι) (accepting : κ → Bool)
    (found : List (κ × List (Char × κ))) : Dfa :=
  let number := numbering (found.map fun entry => key entry.1)
  ofRows
    (found.map fun entry => entry.2.filterMap fun (c, t) =>
      (number[key t]?).map fun i => (c, i)).toArray
    0 (found.map fun entry => accepting entry.1).toArray

end Dfa

end Transduction
