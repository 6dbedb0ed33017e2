/-
Composition of transducers.

The composition maps `x` to `z` when the first transducer maps `x` to some `y`
and the second maps `y` to `z`.  The first one is spelled, so each of its moves
writes a symbol, which the second reads in the same step, or nothing.

A state pairs a state of each side with a mark.  A move of the second side that
reads nothing sets the mark, a move of the first side that writes nothing is
allowed only without it, and a common step clears it.  Of all orders in which
the two kinds of lone moves may interleave between two common steps, exactly
one is built: first side first.
-/
import Transduction.Transducer.Letterwise
import Transduction.Machine.Explored

namespace Transduction.Transducer

/-- A state of a composition: a state of each side, and whether the second side
has moved alone since the last common step. -/
abbrev Joint := Nat × Nat × Bool

/-- The moves of a composition: those of the first side in order, each with its
partners on the second side, and then the lone moves of the second side. -/
def jointMoves (a b : Transducer) (state : Joint) : List ((Option Char × Word) × Joint) :=
  let (p, q, waiting) := state
  let partners := b.moves q
  ((a.moves p).flatMap fun ((l, w), p') =>
      match w with
      -- with the mark set, this order of lone moves is built elsewhere
      | [] => if waiting then [] else [((l, []), (p', q, false))]
      | c :: _ => partners.filterMap fun ((l', v), q') =>
        if l' = some c then some ((l, v), (p', q', false)) else none)
    ++ partners.filterMap fun ((l', v), q') =>
      if l' = none then some ((none, v), (p, q', true)) else none

/-- The composition with all states that can be reached, useful or not. -/
def composeUntrimmed (a b : Transducer) : Transducer :=
  let a := a.spelled
  let roots := a.initialStates.flatMap fun p => b.initialStates.map fun q => (p, q, false)
  Machine.explored id (jointMoves a b) (2 * a.size * b.size) roots
    (fun (p, q, waiting) => a.isInitial p && b.isInitial q && !waiting)
    (fun (p, q, _) => a.isAccepting p && b.isAccepting q)

/-- The composition: the relation of `a` followed by the relation of `b`. -/
def compose (a b : Transducer) : Transducer := (composeUntrimmed a b).trim

/-- The composition of a transducer with all others, from left to right. -/
def composeAll (a : Transducer) (others : List Transducer) : Transducer := others.foldl compose a

end Transduction.Transducer
