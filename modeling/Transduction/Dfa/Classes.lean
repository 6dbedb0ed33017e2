/-
Partitions of the states of a deterministic automaton into classes.

A class table holds a partition twice: the class of each state, and the members
of each class.  Refinement takes states out of a class until members of one
class have moves on the same symbols into the same classes:

* `ClassTable.assign` — moves one state into a class; a class that loses its
  last member disappears;
* `Dfa.agree` — whether two states move alike under a table;
* `Dfa.splitClass` — moves the members that differ from the first one of a class
  into a new class;
* `Dfa.refinePass` — splits every class of a snapshot, comparing under the table
  as it stands at that moment;
* `Dfa.refine` — passes until one leaves the number of classes as it is.

The order in which classes and members are visited is a parameter, since the
partition that is reached does not depend on it.  Every pass but the last adds
a class and there are at most as many classes as states, so as many passes as
the automaton has states are enough.
-/
import Transduction.Dfa.Basic

namespace Transduction

/-- A partition of numbered states into numbered classes, held both ways. -/
structure ClassTable where
  classOf : Std.TreeMap Nat Nat
  members : Std.TreeMap Nat StateSet

namespace ClassTable

def empty : ClassTable := ⟨∅, ∅⟩

/-- The number of classes. -/
def classCount (t : ClassTable) : Nat := t.members.size

/-- The members of a class, none if there is no such class. -/
def membersOf (t : ClassTable) (k : Nat) : StateSet := (t.members[k]?).getD .empty

/-- Takes a state out of a class, which disappears with its last member. -/
def withdraw (members : Std.TreeMap Nat StateSet) (k q : Nat) : Std.TreeMap Nat StateSet :=
  match members[k]? with
  | none => members
  | some s => if (s.erase q).isEmpty then members.erase k else members.insert k (s.erase q)

/-- The table in which a state has moved into a class. -/
def assign (t : ClassTable) (q k : Nat) : ClassTable :=
  let others :=
    match t.classOf[q]? with
    | none => t.members
    | some old => withdraw t.members old q
  { classOf := t.classOf.insert q k
    members := others.insert k (((others[k]?).getD .empty).insert q) }

/-- The table of a partition that lists the class of each state. -/
def ofPartition (partition : List Nat) : ClassTable :=
  partition.zipIdx.foldl (fun t (k, q) => t.assign q k) empty

/-- The members of every class; classes and members in ascending order. -/
def ascendingClasses (t : ClassTable) : List (List Nat) :=
  t.members.values.map StateSet.toList

end ClassTable

namespace Dfa

/-- Whether two states have moves on the same symbols into the same classes. -/
def agree (d : Dfa) (t : ClassTable) (p q : Nat) : Bool :=
  d.alphabet.all fun c =>
    (d.delta p c).map (fun u => t.classOf[u]?) == (d.delta q c).map (fun u => t.classOf[u]?)

/-- Moves the members of a class that differ from the first one into the class
`fresh`; returns the next class number without use too. -/
def splitClass (d : Dfa) (state : ClassTable × Nat) (members : List Nat) : ClassTable × Nat :=
  let (t, fresh) := state
  match members with
  | [] => (t, fresh)
  | first :: _ =>
    -- all members are compared under the table as it is before any of them moves
    match members.filter fun q => !d.agree t q first with
    | [] => (t, fresh)
    | moved => (moved.foldl (fun t q => t.assign q fresh) t, fresh + 1)

/-- Splits every class of the table once, in the order that `visit` gives. -/
def refinePass (d : Dfa) (visit : ClassTable → List (List Nat)) (t : ClassTable) (fresh : Nat) :
    ClassTable × Nat :=
  (visit t).foldl d.splitClass (t, fresh)

/-- At most `passes` passes, the last of which is one that adds no class. -/
def refineLoop (d : Dfa) (visit : ClassTable → List (List Nat)) :
    Nat → ClassTable → Nat → ClassTable
  | 0, t, _ => t
  | passes + 1, t, fresh =>
    let (t', fresh') := d.refinePass visit t fresh
    if t'.classCount = t.classCount then t' else refineLoop d visit passes t' fresh'

/-- The coarsest refinement of a partition in which the members of a class move
alike. -/
def refine (d : Dfa) (visit : ClassTable → List (List Nat)) (partition : List Nat) : ClassTable :=
  let t := ClassTable.ofPartition partition
  d.refineLoop visit d.size t t.classCount

end Dfa

end Transduction
