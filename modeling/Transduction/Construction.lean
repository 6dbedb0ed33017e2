/-
What can be wrong with a declared automaton.

An automaton is declared by its number of states and by lists that name them.
The declaration is checked in a fixed order — initial states, the presence of
one, accepting states, then each transition by source, target and label — and
the first violation is the error.
-/
import Transduction.Text.Escape

namespace Transduction

/-- The first violation found in the declaration of an automaton. -/
inductive ConstructionError where
  /-- A list names a state that is not among the first `size` numbers. -/
  | undeclaredState (state size : Nat)
  /-- No initial state is given. -/
  | missingInitialState
  /-- The first character of a range is above its last. -/
  | invalidRange (first last : Char)
  /-- A deterministic automaton has two targets for one state and symbol. -/
  | nondeterministic (state : Nat) (symbol : Char) (first second : Nat)
deriving DecidableEq, Repr

namespace ConstructionError

def message : ConstructionError → String
  | undeclaredState q n =>
    s!"Error: State {q} is referenced but only {n} states are declared!"
  | missingInitialState => "Error: An automaton needs at least one initial state!"
  | invalidRange first last =>
    "Error: Invalid range label provided: " ++ String.ofList (Text.escapeChar first) ++ " - " ++
      String.ofList (Text.escapeChar last)
  | nondeterministic q c first second =>
    s!"Error: State {q} has two transitions on " ++ String.ofList (Text.escapeChar c) ++
      s!": to {first} and to {second}!"

end ConstructionError

/-- Refuses a state that is not among the first `size` numbers. -/
def checkState (size q : Nat) : Except ConstructionError Unit :=
  if q < size then .ok () else .error (.undeclaredState q size)

end Transduction
