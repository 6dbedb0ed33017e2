/-
Acceptors: machines that read one symbol or nothing a move.

A label is a character, or `none` for a silent move.  The moves of a state are
kept in ascending order, silent ones first.

* `Acceptor.declare` — an acceptor from the lists that name its parts;
* `Acceptor.ofWord`, `ofSymbols`, `ofEmptyWord` — the smallest acceptors of one
  word, of single symbols, and of the empty word;
* `Acceptor.recognizes` — whether a word is accepted;
* `Acceptor.union`, `concat`, `plus`, `star` — the operations on languages.
-/
import Transduction.Machine.Algebra
import Transduction.Machine.Simulation

namespace Transduction

/-- A machine whose moves read one symbol, or nothing. -/
abbrev Acceptor := Machine (Option Char)

namespace Acceptor

/-- An acceptor from its declaration, unless something is wrong with it. -/
def declare (size : Nat) (initial finals : List Nat) (arcs : List (Nat × Option Char × Nat)) :
    Except ConstructionError Acceptor :=
  Machine.declare (fun _ => .ok ()) ascending size initial finals arcs

/-- The symbols on the moves, in ascending order. -/
def alphabet (a : Acceptor) : List Char :=
  ascending (a.nodes.toList.flatMap fun n => n.moves.filterMap (·.1))

/-- Accepts exactly one word, along a chain of states. -/
def ofWord (w : Word) : Acceptor where
  nodes :=
    let reading : List (Node (Option Char)) :=
      w.zipIdx.map fun (c, i) => { initial := i == 0, moves := [(some c, i + 1)] }
    let last : Node (Option Char) := { initial := w.isEmpty, accepting := true }
    (reading ++ [last]).toArray

/-- Accepts every single symbol of a list, and nothing where the list is empty. -/
def ofSymbols (cs : List Char) : Acceptor where
  nodes := #[{ initial := true, moves := (ascending cs).map fun c => (some c, 1) },
    { accepting := true }]

/-- Accepts the empty word alone, along one silent move. -/
def ofEmptyWord : Acceptor where
  nodes := #[{ initial := true, moves := [(none, 1)] }, { accepting := true }]

/-- Whether a label reads a symbol. -/
def reads (l : Option Char) (c : Char) : Bool := l == some c

/-- The states reachable from a state by silent moves, in ascending order; none
from a state that does not exist. -/
def silentlyReachable (a : Acceptor) (q : Nat) : List Nat :=
  if q < a.size then (a.silentClosure Option.isNone q).toList else []

/-- Whether some run from an initial to an accepting state reads the word. -/
def recognizes (a : Acceptor) (w : Word) : Bool := Machine.recognizes Option.isNone reads a w

def union (a b : Acceptor) : Acceptor := Machine.union none a b

def concat (a b : Acceptor) : Acceptor := Machine.concat none a b

def plus (a : Acceptor) : Acceptor := Machine.plus none a

def star (a : Acceptor) : Acceptor := Machine.star none a

end Acceptor

end Transduction
