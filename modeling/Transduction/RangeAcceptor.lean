/-
Range acceptors: machines whose moves read any symbol of a range.

A label is a pair of characters, both ends of the range included, or `none` for
a silent move.  Ranges keep a machine small over a large alphabet.  The moves of
a state stay in the order in which they are declared, repetitions included.

* `RangeAcceptor.declare` — refuses ranges whose ends are in the wrong order;
* `RangeAcceptor.closures` — the silent closures, from the transitive closure of
  the pairs of states that silent moves link;
* `RangeAcceptor.recognizes` — whether a word is accepted;
* `RangeAcceptor.toAcceptor` — the acceptor of the same words over an alphabet,
  with a move for each symbol of the alphabet that a range holds.
-/
import Transduction.Acceptor.Basic
import Transduction.Relation

namespace Transduction

/-- A machine whose moves read any symbol of a range, or nothing. -/
abbrev RangeAcceptor := Machine (Option (Char × Char))

namespace RangeAcceptor

/-- Whether a range, given by its two ends, holds a symbol. -/
def holds (range : Char × Char) (c : Char) : Bool := range.1 ≤ c && c ≤ range.2

/-- Whether a label reads a symbol. -/
def reads (l : Option (Char × Char)) (c : Char) : Bool := l.elim false fun range => holds range c

/-- Refuses a range whose first character is above its last. -/
def checkRange : Option (Char × Char) → Except ConstructionError Unit
  | none => .ok ()
  | some (first, last) => if first ≤ last then .ok () else .error (.invalidRange first last)

/-- A range acceptor from its declaration, unless something is wrong with it. -/
def declare (size : Nat) (initial finals : List Nat)
    (arcs : List (Nat × Option (Char × Char) × Nat)) : Except ConstructionError RangeAcceptor :=
  Machine.declare checkRange id size initial finals arcs

/-- The pairs of states that a silent move links, in ascending order. -/
def silentPairs (a : RangeAcceptor) : List (Nat × Nat) :=
  ascending ((List.range a.size).flatMap fun q =>
    (a.moves q).filterMap fun (l, t) => if l.isNone then some (q, t) else none)

/-- The silent closure of every state: the state itself, and the states that a chain
of silent moves links it to. -/
def closures (a : RangeAcceptor) : Array StateSet :=
  (Relation.transitiveClosure a.silentPairs).foldl
    (fun closures (q, t) => closures.modify q (·.insert t))
    (Array.ofFn fun q : Fin a.size => StateSet.ofList [q.val])

/-- The states reachable from a state by silent moves, in ascending order; none
from a state that does not exist. -/
def silentlyReachable (a : RangeAcceptor) (q : Nat) : List Nat :=
  (a.closures[q]?).elim [] (·.toList)

/-- Whether the rest of a word is read from some member of a closed set.  Where no
move reads the next symbol, the symbols behind it do not matter. -/
def recognizesFrom (a : RangeAcceptor) (closures : Array StateSet) (current : StateSet) :
    Word → Bool
  | [] => current.toList.any a.isAccepting
  | c :: w =>
    let next := a.advance reads current c
    if next.isEmpty then false
    else recognizesFrom a closures (Machine.closeUnder closures next) w

/-- Whether some run from an initial to an accepting state reads the word, each
symbol inside the range of its move. -/
def recognizes (a : RangeAcceptor) (w : Word) : Bool :=
  let closures := a.closures
  a.recognizesFrom closures (Machine.closeUnder closures (StateSet.ofList a.initialStates)) w

/-- The single-symbol moves that stand for one move over an alphabet. -/
def expandMove (symbols : List Char) (move : Option (Char × Char) × Nat) :
    List (Option Char × Nat) :=
  match move with
  | (none, t) => [(none, t)]
  | (some range, t) => (symbols.filter (holds range)).map fun c => (some c, t)

/-- The acceptor of the same words over the given symbols. -/
def toAcceptor (a : RangeAcceptor) (symbols : List Char) : Acceptor where
  nodes := a.nodes.map fun n =>
    { initial := n.initial
      accepting := n.accepting
      moves := ascending (n.moves.flatMap (expandMove symbols)) }

end RangeAcceptor

end Transduction
