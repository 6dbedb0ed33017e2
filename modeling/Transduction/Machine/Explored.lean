/-
Machines built by exploration.

An exploration whose visits list labelled successors is a machine: the items
are its states, numbered in the order of their discovery, and the moves of a
state are the set of its labelled successors.
-/
import Transduction.Machine.Basic

namespace Transduction.Machine

variable {L κ ι : Type} [Ord L] [Ord ι]

/-- The machine of the items found, with the given items marked. -/
def ofExploration (key : κ → ι) (initial accepting : κ → Bool)
    (found : List (κ × List (L × κ))) : Machine L :=
  let number := numbering (found.map fun entry => key entry.1)
  { nodes := (found.map fun (k, successors) =>
      { initial := initial k
        accepting := accepting k
        moves := ascending (successors.filterMap fun (l, t) =>
          (number[key t]?).map fun i => (l, i)) : Node L }).toArray }

/-- The machine whose states are the items reachable from `roots`, at most
`bound` of them, and whose moves are the labelled successors that `next` lists. -/
def explored (key : κ → ι) (next : κ → List (L × κ)) (bound : Nat) (roots : List κ)
    (initial accepting : κ → Bool) : Machine L :=
  ofExploration key initial accepting
    (explore key next (fun successors => successors.map (·.2)) bound roots)

end Transduction.Machine
