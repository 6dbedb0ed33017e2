/-
Intersection of acceptors.

A state of the intersection is a pair of states, one a side.  A silent move of
either side leaves the other side where it is, and a symbol is read by both
sides together.  The result does not depend on the order in which the moves of
a pair are explored, up to the numbers of the states; that order is a
parameter of `intersectBy`.
-/
import Transduction.Acceptor.Basic
import Transduction.Machine.Explored

namespace Transduction.Acceptor

/-- The moves of a pair of states, labelled. -/
def pairMoves (a b : Acceptor) (pair : Nat × Nat) : List (Option Char × Nat × Nat) :=
  let (p, q) := pair
  ((a.moves p).flatMap fun (l, p') =>
      match l with
      | none => [(none, p', q)]
      | some c => (b.moves q).filterMap fun (l', q') =>
        if l' = some c then some (some c, p', q') else none)
    ++ (b.moves q).filterMap fun (l', q') => if l' = none then some (none, p, q') else none

/-- Accepts the words that both acceptors accept; `arrange` orders the moves of
a pair before they are explored. -/
def intersectBy (arrange : List (Option Char × Nat × Nat) → List (Option Char × Nat × Nat))
    (a b : Acceptor) : Acceptor :=
  let roots := a.initialStates.flatMap fun p => b.initialStates.map fun q => (p, q)
  Machine.explored id (fun pair => arrange (pairMoves a b pair)) (a.size * b.size) roots
    (fun (p, q) => a.isInitial p && b.isInitial q)
    (fun (p, q) => a.isAccepting p && b.isAccepting q)

/-- Accepts the words that both acceptors accept. -/
def intersect (a b : Acceptor) : Acceptor := intersectBy id a b

end Transduction.Acceptor
