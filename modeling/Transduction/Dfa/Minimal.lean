/-
Minimal automata.

Minimization merges the states that no word tells apart, drops the states that
cannot be reached, and numbers the classes breadth first from the start state
by ascending symbol.  The result depends neither on the numbers of the old
states nor on the order in which refinement visits them.

* `Dfa.minimizeWithin` — merges only states that a given partition puts into one
  class, and tells where each state went;
* `Dfa.acceptancePartition` — accepting states apart from the others, and
  `Dfa.acceptancePartition?`, which looks for the mark of each state;
* `Dfa.minimize` — `minimizeWithin` of that partition.
-/
import Transduction.Dfa.Classes

namespace Transduction.Dfa

/-- The automaton of the classes of a table.  The member first met stands for
its class. -/
def quotient (d : Dfa) (t : ClassTable) : Dfa × List (Option Nat) :=
  let classOf (q : Nat) : Option Nat := t.classOf[q]?
  let moves (q : Nat) : List (Char × Nat) :=
    d.alphabet.filterMap fun c => (d.delta q c).map fun u => (c, u)
  let found := explore classOf moves (fun ms => ms.map (·.2)) d.size [d.start]
  -- classes without a number hold no state that can be reached
  let number := numbering (found.map fun entry => classOf entry.1)
  (ofExploration classOf d.isAccepting found,
    (List.range d.size).map fun q => number[classOf q]?)

/-- Merges the states that lie in one class of the partition and that no word
tells apart.  The second part gives the new number of each state that can be
reached from the start. -/
def minimizeWithin (visit : ClassTable → List (List Nat)) (d : Dfa) (partition : List Nat) :
    Dfa × List (Option Nat) :=
  d.quotient (d.refine visit partition)

/-- Class 0 holds the states without a mark and class 1 those with one; where
all marks are equal there is class 0 alone. -/
def acceptancePartition (d : Dfa) : List Nat :=
  (List.range d.size).map fun q => if d.accepting.isMixed && d.isAccepting q then 1 else 0

/-- The partition by acceptance, unless some state has no mark at all, as a state
of a loaded automaton may. -/
def acceptancePartition? (d : Dfa) : Option (List Nat) :=
  (List.range d.size).mapM fun q => do
    let accepted ← d.accepting.values[q]?
    return if d.accepting.isMixed && accepted then 1 else 0

/-- The automaton in which states that no word tells apart are one, where
refinement visits classes and members in the order of `visit`. -/
def minimizeBy (visit : ClassTable → List (List Nat)) (d : Dfa) : Dfa :=
  (d.minimizeWithin visit d.acceptancePartition).1

/-- The automaton in which states that no word tells apart are one. -/
def minimize (d : Dfa) : Dfa := d.minimizeBy ClassTable.ascendingClasses

end Transduction.Dfa
