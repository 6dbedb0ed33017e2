/-
Trimming: dropping the states that no accepting run visits.

A state is useful when it can be reached from an initial state and an accepting
state can be reached from it.  A first search goes forward from the initial
states, and a second one goes back from the accepting states that the first one
has met, along moves between such states.  The useful states keep their order
and take the first numbers.  A machine without a useful state trims to one
initial state with no moves and no acceptance.
-/
import Transduction.Machine.Basic

namespace Transduction.Machine

variable {L : Type}

/-- The targets of the moves that leave a state. -/
def successors (m : Machine L) (q : Nat) : List Nat := (m.moves q).map (·.2)

/-- The states that can be reached from an initial state. -/
def accessible (m : Machine L) : StateSet := reachable m.size m.successors m.initialStates

/-- The accessible sources of the moves into each state. -/
def predecessors (m : Machine L) : Array (List Nat) :=
  m.accessible.toList.foldl
    (fun sources q => (m.successors q).foldl (fun sources t => sources.modify t (q :: ·)) sources)
    (Array.replicate m.size [])

/-- The accessible states from which an accepting state can be reached. -/
def coaccessible (m : Machine L) : StateSet :=
  let sources := m.predecessors
  reachable m.size (fun q => (sources[q]?).getD [])
    (m.acceptingStates.filter m.accessible.contains)

/-- The states on a path from an initial to an accepting state, ascending. -/
def usefulStates (m : Machine L) : List Nat := (List.range m.size).filter m.coaccessible.contains

theorem mem_usefulStates {m : Machine L} {q : Nat} :
    q ∈ m.usefulStates ↔ q < m.size ∧ q ∈ m.coaccessible := by
  simp [usefulStates, StateSet.mem_def]

/-- The machine restricted to the listed states, which it renumbers in list
order. -/
def restrict (m : Machine L) (states : List Nat) : Machine L :=
  let number := numbering states
  { nodes := (states.map fun q =>
      { initial := m.isInitial q
        accepting := m.isAccepting q
        moves := (m.moves q).filterMap fun (l, t) =>
          (number[t]?).map fun i => (l, i) : Node L }).toArray }

/-- The machine restricted to its useful states. -/
def trim (m : Machine L) : Machine L :=
  match m.usefulStates with
  -- a machine keeps an initial state
  | [] => { nodes := #[{ initial := true }] }
  | states => m.restrict states

end Transduction.Machine
