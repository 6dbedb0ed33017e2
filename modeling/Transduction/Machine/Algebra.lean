/-
Union, concatenation and iteration of machines.

The constructions are the same whatever the labels mean; they only need a label
`silent` for the moves they add, one that reads nothing and writes nothing.
The states of an operand keep their order and move up by an offset:

* `union` — a new initial state 0 in front of both operands;
* `concat` — the accepting states of the first operand lead to the initial
  states of the second;
* `plus` — the accepting states lead back to the initial states;
* `star` — `plus` behind a new state 0 that is initial and accepting.
-/
import Transduction.Machine.Basic

namespace Transduction

namespace Node

variable {L : Type}

/-- The node of an operand whose states move up by `offset`. -/
def shift (offset : Nat) (n : Node L) : Node L :=
  { n with moves := n.moves.map fun (l, t) => (l, t + offset) }

/-- The node of an operand that a construction enters by moves of its own. -/
def inner (offset : Nat) (n : Node L) : Node L := { n.shift offset with initial := false }

/-- The node with further moves, if it is accepting. -/
def continueWith [Ord L] (links : List (L × Nat)) (n : Node L) : Node L :=
  if n.accepting then { n with moves := ascending (n.moves ++ links) } else n

end Node

namespace Machine

variable {L : Type}

/-- Silent moves into the initial states of a machine that lies `offset` states
further up. -/
def entries (silent : L) (offset : Nat) (m : Machine L) : List (L × Nat) :=
  m.initialStates.map fun q => (silent, q + offset)

/-- Runs of either machine, behind a silent move from a new initial state. -/
def union (silent : L) (a b : Machine L) : Machine L where
  nodes :=
    #[{ initial := true
        moves := entries silent 1 a ++ entries silent (a.size + 1) b }]
      ++ a.nodes.map (Node.inner 1) ++ b.nodes.map (Node.inner (a.size + 1))

/-- Runs of the first machine followed by runs of the second. -/
def concat [Ord L] (silent : L) (a b : Machine L) : Machine L where
  nodes :=
    (a.nodes.map fun n =>
      { n.continueWith (entries silent a.size b) with accepting := false })
      ++ b.nodes.map (Node.inner a.size)

/-- One or more runs of the machine in a row. -/
def plus [Ord L] (silent : L) (m : Machine L) : Machine L where
  nodes := m.nodes.map (Node.continueWith (entries silent 0 m))

/-- Any number of runs of the machine in a row, none included. -/
def star [Ord L] (silent : L) (m : Machine L) : Machine L where
  nodes :=
    #[{ initial := true, accepting := true, moves := entries silent 1 (m.plus silent) }]
      ++ (m.plus silent).nodes.map (Node.inner 1)

/-- The machine with every label replaced. -/
def mapLabels {L' : Type} [Ord L'] (f : L → L') (m : Machine L) : Machine L' where
  nodes := m.nodes.map fun n =>
    { initial := n.initial
      accepting := n.accepting
      moves := ascending (n.moves.map fun (l, t) => (f l, t)) }

/-! ### Sizes, and the views of a machine with other labels -/

theorem size_union (silent : L) (a b : Machine L) :
    (union silent a b).size = 1 + a.size + b.size := by
  simp [union, size, Nat.add_assoc]

theorem size_concat [Ord L] (silent : L) (a b : Machine L) :
    (concat silent a b).size = a.size + b.size := by
  simp [concat, size]

theorem size_plus [Ord L] (silent : L) (m : Machine L) : (plus silent m).size = m.size := by
  simp [plus, size]

theorem size_star [Ord L] (silent : L) (m : Machine L) : (star silent m).size = 1 + m.size := by
  simp [star, plus, size]

section mapLabels

variable {L' : Type} [Ord L'] (f : L → L') (m : Machine L) (q : Nat)

@[simp] theorem size_mapLabels : (m.mapLabels f).size = m.size := by
  simp [mapLabels, size]

@[simp] theorem moves_mapLabels :
    (m.mapLabels f).moves q = ascending ((m.moves q).map fun (l, t) => (f l, t)) := by
  simp only [moves, mapLabels, Array.getElem?_map]
  cases m.nodes[q]? <;> rfl

@[simp] theorem isInitial_mapLabels : (m.mapLabels f).isInitial q = m.isInitial q := by
  simp only [isInitial, mapLabels, Array.getElem?_map]
  cases m.nodes[q]? <;> rfl

@[simp] theorem isAccepting_mapLabels : (m.mapLabels f).isAccepting q = m.isAccepting q := by
  simp only [isAccepting, mapLabels, Array.getElem?_map]
  cases m.nodes[q]? <;> rfl

end mapLabels

end Machine

end Transduction
