/-
Transducers that write at most one symbol a move, and inverse relations.

`spelled` splits every longer output into a path that writes one symbol a move:
the first move of the path reads what the whole move read, the others read
nothing.  The states in between are numbered behind the old ones, in the order
of the moves.  In such a transducer input and output of a move have the same
shape, and `inverse` exchanges them.
-/
import Transduction.Transducer.Basic

namespace Transduction.Transducer

/-- A move with the label of a spelled transducer, and the nodes behind it. -/
abbrev Spelling := ((Option Char × Word) × Nat) × List (Node (Option Char × Word))

/-- The first move of the path that stands for one move, and the nodes of the
path in between, which take the numbers from `fresh` on. -/
def spell (fresh : Nat) (l : Option Char) : Word → Nat → Spelling
  | [], t => (((l, []), t), [])
  | [c], t => (((l, [c]), t), [])
  | c :: d :: w, t =>
    let (move, nodes) := spell (fresh + 1) none (d :: w) t
    (((l, [c]), fresh), { moves := [move] } :: nodes)

/-- Spells the moves of one state. -/
def spellMoves (fresh : Nat) : List ((Option Char × Word) × Nat) →
    List ((Option Char × Word) × Nat) × List (Node (Option Char × Word))
  | [] => ([], [])
  | ((l, w), t) :: moves =>
    let (move, nodes) := spell fresh l w t
    let (others, nodes') := spellMoves (fresh + nodes.length) moves
    (move :: others, nodes ++ nodes')

/-- Spells the moves of every state in a list: the states themselves, and the
nodes in between. -/
def spellNodes (fresh : Nat) : List (Node (Option Char × Word)) →
    List (Node (Option Char × Word)) × List (Node (Option Char × Word))
  | [] => ([], [])
  | n :: ns =>
    let (moves, nodes) := spellMoves fresh n.moves
    let (others, nodes') := spellNodes (fresh + nodes.length) ns
    ({ n with moves := ascending moves } :: others, nodes ++ nodes')

/-- The same relation, written one symbol a move. -/
def spelled (m : Transducer) : Transducer where
  nodes :=
    let (states, between) := spellNodes m.size m.nodes.toList
    (states ++ between).toArray

/-- The converse relation: outputs become inputs and inputs become outputs. -/
def inverse (m : Transducer) : Transducer :=
  Machine.mapLabels (fun (l, w) => (w.head?, l.toList)) m.spelled

end Transduction.Transducer
