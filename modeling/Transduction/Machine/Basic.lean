/-
Finite machines with labelled moves.

A machine is a list of states numbered from zero.  A state says whether it is
initial, whether it is accepting, and where its moves lead.  What a label means
is left open: acceptors, range acceptors and transducers are machines over
three kinds of labels.

* `Machine.moves`, `Machine.isInitial`, `Machine.isAccepting` — the three views
  through which everything else looks at a machine; a state that does not exist
  has no moves and no marks;
* `Machine.WellFormed` — every move leads to a state, and some state is initial;
* `Machine.declare` — a machine from the lists that name its parts, or the first
  thing wrong with them.
-/
import Transduction.Construction
import Transduction.Exploration

namespace Transduction

/-- A state of a machine: its marks, and its moves as pairs of a label and a
target. -/
structure Node (L : Type) where
  initial : Bool := false
  accepting : Bool := false
  moves : List (L × Nat) := []
deriving DecidableEq, Repr

/-- A finite machine; state `q` is the node at position `q`. -/
structure Machine (L : Type) where
  nodes : Array (Node L)
deriving DecidableEq, Repr

namespace Machine

variable {L : Type}

/-- The number of states. -/
def size (m : Machine L) : Nat := m.nodes.size

/-- The moves that leave a state. -/
def moves (m : Machine L) (q : Nat) : List (L × Nat) :=
  (m.nodes[q]?).elim [] (·.moves)

def isInitial (m : Machine L) (q : Nat) : Bool := (m.nodes[q]?).elim false (·.initial)

def isAccepting (m : Machine L) (q : Nat) : Bool := (m.nodes[q]?).elim false (·.accepting)

/-- The initial states in ascending order. -/
def initialStates (m : Machine L) : List Nat := (List.range m.size).filter m.isInitial

/-- The accepting states in ascending order. -/
def acceptingStates (m : Machine L) : List Nat := (List.range m.size).filter m.isAccepting

/-- The number of moves of all states together. -/
def moveCount (m : Machine L) : Nat := m.nodes.foldl (fun n node => n + node.moves.length) 0

/-- Every move leads to a state of the machine, and some state is initial. -/
structure WellFormed (m : Machine L) : Prop where
  target_lt : ∀ q l t, (l, t) ∈ m.moves q → t < m.size
  exists_initial : ∃ q, m.isInitial q = true

/-- The machine with the listed marks and moves.  `arrange` puts the moves of a
state, given in list order, into the order in which the machine keeps them. -/
def ofLists (arrange : List (L × Nat) → List (L × Nat)) (size : Nat) (initial finals : List Nat)
    (arcs : List (Nat × L × Nat)) : Machine L where
  nodes := Array.ofFn fun q : Fin size =>
    { initial := initial.contains q.val
      accepting := finals.contains q.val
      moves := arrange (arcs.filterMap fun (p, move) => if p = q.val then some move else none) }

/-- A machine from its declaration, unless something is wrong with it.
`checkLabel` refuses the labels that no move may carry. -/
def declare (checkLabel : L → Except ConstructionError Unit)
    (arrange : List (L × Nat) → List (L × Nat)) (size : Nat) (initial finals : List Nat)
    (arcs : List (Nat × L × Nat)) : Except ConstructionError (Machine L) := do
  initial.forM (checkState size)
  if initial.isEmpty then throw .missingInitialState
  finals.forM (checkState size)
  arcs.forM fun (p, l, q) => do
    checkState size p
    checkState size q
    checkLabel l
  return ofLists arrange size initial finals arcs

/-! ### The views of a declared machine -/

section ofLists

variable {arrange : List (L × Nat) → List (L × Nat)} {size : Nat} {initial finals : List Nat}
  {arcs : List (Nat × L × Nat)}

@[simp] theorem size_ofLists : (ofLists arrange size initial finals arcs).size = size := by
  simp [ofLists, Machine.size]

@[simp] theorem moves_ofLists {q : Nat} :
    (ofLists arrange size initial finals arcs).moves q =
      if q < size then arrange (arcs.filterMap fun (p, move) => if p = q then some move else none)
      else [] := by
  simp only [moves, ofLists]
  split <;> simp [*]

@[simp] theorem isInitial_ofLists {q : Nat} :
    (ofLists arrange size initial finals arcs).isInitial q =
      (decide (q < size) && initial.contains q) := by
  simp only [isInitial, ofLists]
  by_cases h : q < size <;> simp [h]

@[simp] theorem isAccepting_ofLists {q : Nat} :
    (ofLists arrange size initial finals arcs).isAccepting q =
      (decide (q < size) && finals.contains q) := by
  simp only [isAccepting, ofLists]
  by_cases h : q < size <;> simp [h]

end ofLists

/-! ### The lists of marked states -/

theorem mem_initialStates {m : Machine L} {q : Nat} :
    q ∈ m.initialStates ↔ m.isInitial q = true := by
  simp only [initialStates, List.mem_filter, List.mem_range, and_iff_right_iff_imp]
  intro h
  by_cases hq : q < m.size
  · exact hq
  · simp [isInitial, Array.getElem?_eq_none (Nat.le_of_not_lt hq)] at h

theorem mem_acceptingStates {m : Machine L} {q : Nat} :
    q ∈ m.acceptingStates ↔ m.isAccepting q = true := by
  simp only [acceptingStates, List.mem_filter, List.mem_range, and_iff_right_iff_imp]
  intro h
  by_cases hq : q < m.size
  · exact hq
  · simp [isAccepting, Array.getElem?_eq_none (Nat.le_of_not_lt hq)] at h

end Machine

end Transduction
