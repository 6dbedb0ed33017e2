/-
Bimachines from transducers.

The right automaton is the reverse subset construction of the real-time
transducer: a right state is the set of transducer states from which the suffix
read so far can be completed.  Its start state is kept apart from all others,
so right state 0 always stands for the empty suffix.

A left state is a choice: for every right state it names one transducer state
that fits the prefix read so far and that class of suffixes.  Following the
choices along a word traces one successful run, whose outputs fill the table.

Last, right states merge that no table entry, acceptance or move tells apart;
state 0 stays alone.
-/
import Transduction.Bimachine.Basic
import Transduction.Dfa.Minimal
import Transduction.Transducer.RealTime

namespace Transduction

namespace RealTime

/-- The states with a move on a symbol into a member of the set. -/
def retreat (m : RealTime) (s : StateSet) (c : Char) : StateSet :=
  StateSet.ofList ((List.range m.size).filter fun q =>
    (m.moves q).any fun (d, _, t) => d == c && s.contains t)

/-- The states in which a run may end. -/
def finalStates (m : RealTime) : StateSet :=
  StateSet.ofList ((List.range m.size).filter fun q => !(m.finalOutputs q).isEmpty)

/-- A class of suffixes: the empty one, or the set of states from which the
suffix can be completed. -/
abbrev Suffixes := Option StateSet

/-- The states from which a suffix of the class can be completed. -/
def completing (m : RealTime) : Suffixes → StateSet
  | none => m.finalStates
  | some s => s

/-- The classes of the suffixes that are one symbol longer. -/
def suffixMoves (m : RealTime) (symbols : List Char) (suffix : Suffixes) :
    List (Char × Suffixes) :=
  symbols.filterMap fun c =>
    let s := m.retreat (m.completing suffix) c
    if s.isEmpty then none else some (c, some s)

/-- The classes of suffixes over the given symbols, in the order of discovery. -/
def suffixClasses (m : RealTime) (symbols : List Char) :
    List (Suffixes × List (Char × Suffixes)) :=
  explore (fun suffix : Suffixes => suffix.map (·.bits)) (m.suffixMoves symbols)
    (fun moves => moves.map (·.2)) (2 ^ m.size + 1) [none]

/-- The automaton of the classes of suffixes, which reads backward and accepts
the classes that an initial state completes. -/
def rightAutomaton (m : RealTime) (classes : List (Suffixes × List (Char × Suffixes))) : Dfa :=
  let initial := StateSet.ofList m.initialStates
  Dfa.ofExploration (fun suffix : Suffixes => suffix.map (·.bits))
    (fun suffix => (m.completing suffix).meets initial) classes

/-- One transducer state for each right state, where there is one. -/
abbrev Choice := List (Option Nat)

/-- What a choice does on a symbol: the choice behind it, and the output in
front of each right state that stays possible. -/
structure ChoiceMove where
  symbol : Char
  target : Choice
  outputs : List (Nat × Word)

/-- The least target among the moves on a symbol from a state into the set, and
the least output on the way to it. -/
def bestMove (m : RealTime) (q : Nat) (c : Char) (into : StateSet) : Option (Nat × Word) :=
  (ascending ((m.moves q).filterMap fun (d, w, t) =>
    if d = c ∧ into.contains t then some (t, w) else none)).head?

/-- The output that a move contributes in front of a right state.  In front of
the empty suffix the run ends, so the least final output is added. -/
def fragment (m : RealTime) (after : Nat) (move : Nat × Word) : Word :=
  if after = 0 then move.2 ++ ((m.finalOutputs move.1).head?).getD [] else move.2

/-- The moves of a choice on the given symbols.  The transducer state chosen in
front of a right state moves on; symbols after which no right state is possible
have no move. -/
def choiceMoves (m : RealTime) (right : Dfa) (classes : List StateSet) (symbols : List Char)
    (choice : Choice) : List ChoiceMove :=
  symbols.filterMap fun c =>
    -- the choice in front of each class of suffixes, one symbol on
    let best : List (Option (Nat × Word)) := classes.zipIdx.map fun (s, after) => do
      let before ← right.delta after c
      let q ← (choice[before]?).join
      m.bestMove q c s
    let outputs := best.zipIdx.filterMap fun (move, after) =>
      move.map fun move => (after, m.fragment after move)
    if outputs.isEmpty then none
    else some { symbol := c, target := best.map fun move => move.map (·.1), outputs := outputs }

/-- The least initial state in each class of suffixes. -/
def initialChoice (m : RealTime) (classes : List StateSet) : Choice :=
  classes.map fun s => m.initialStates.find? s.contains

/-- The reachable choices, each with its moves. -/
def choices (m : RealTime) (right : Dfa) (classes : List StateSet) (symbols : List Char) :
    List (Choice × List ChoiceMove) :=
  explore id (m.choiceMoves right classes symbols) (fun moves => moves.map (·.target))
    ((m.size + 1) ^ classes.length) [m.initialChoice classes]

/-- The automaton of the choices, which accepts in every state. -/
def leftAutomaton (found : List (Choice × List ChoiceMove)) : Dfa :=
  Dfa.ofExploration id (fun _ => true)
    (found.map fun (choice, moves) => (choice, moves.map fun move => (move.symbol, move.target)))

/-- The outputs of the choices by left state, symbol and right state. -/
def outputTable (found : List (Choice × List ChoiceMove)) : OutputTable :=
  OutputTable.ofEntries (found.zipIdx.flatMap fun ((_, moves), left) =>
    moves.flatMap fun move => move.outputs.map fun (right, w) => ((left, move.symbol, right), w))

end RealTime

namespace Bimachine

/-- The part of a table that belongs to one right state. -/
def column (table : OutputTable) (right : Nat) : List ((Nat × Char) × Word) :=
  table.filterMap fun ((l, c, r), w) => if r = right then some ((l, c), w) else none

/-- Numbers the values of a list by first occurrence. -/
def classNumbers {α : Type} [Ord α] (values : List α) : List Nat :=
  let number := numbering (unseen id ∅ values).2
  values.map fun v => (number[v]?).getD 0

/-- Puts right states into one class when both or neither accept and their parts
of the table are equal; state 0 is in a class of its own. -/
def columnPartition (right : Dfa) (table : OutputTable) : List Nat :=
  classNumbers ((List.range right.size).map fun r =>
    (r == 0, right.isAccepting r, column table r))

/-- Merges the right states that neither the table nor acceptance nor a move
tells apart. -/
def mergeRight (left right : Dfa) (table : OutputTable) : Bimachine :=
  let (minimal, newState) :=
    right.minimizeWithin ClassTable.ascendingClasses (columnPartition right table)
  { left := left
    right := minimal
    table := OutputTable.ofEntries (table.filterMap fun ((l, c, r), w) =>
      ((newState[r]?).join).map fun r' => ((l, c, r'), w)) }

/-- The bimachine of a real-time transducer over the given symbols, before right
states are merged. -/
def unmerged (m : RealTime) (symbols : List Char) : Bimachine :=
  let classes := m.suffixClasses symbols
  let sets := classes.map fun entry => m.completing entry.1
  let right := m.rightAutomaton classes
  let found := m.choices right sets symbols
  { left := RealTime.leftAutomaton found, right := right, table := RealTime.outputTable found }

/-- The bimachine of a real-time transducer over the given symbols. -/
def ofRealTime (m : RealTime) (symbols : List Char) : Bimachine :=
  let b := unmerged m symbols
  mergeRight b.left b.right b.table

end Bimachine

/-- The bimachine of a transducer over an alphabet, unless a silent cycle
writes.  Where a word has several outputs the bimachine gives one of them. -/
def Transducer.toBimachine (m : Transducer) (alphabet : List Char) :
    Except TransducerError Bimachine :=
  m.toRealTime.map fun r => Bimachine.ofRealTime r (ascending alphabet)

end Transduction
