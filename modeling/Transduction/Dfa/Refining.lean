/-
Refinement, one move at a time.

`Dfa.refine` tells with which table refinement ends.  Here it is taken apart into the moves of
single states, so that something can be said of the table between any two of them:

* `Dfa.outliers` — the members of a class that do not move like the first one;
* `Refining` — where a refinement stands: its table, and what is still to be done;
* `Refining.step` — what it does next: move a state, split a class, or begin a pass;
* `Refining.Reached` — where it comes to from the table of a partition.

A refinement stands still when a pass ends with as many classes as it began with.  The states
moved during a pass and the number of passes are only kept account of.  The order of a snapshot
is a function of its table, which leaves none out where every pass but the last adds a class.
-/
import Transduction.Dfa.Classes

namespace Transduction

/-- The members of a class that do not move like the first one. -/
def Dfa.outliers (d : Dfa) (t : ClassTable) : List Nat → List Nat
  | [] => []
  | first :: rest => (first :: rest).filter fun q => !d.agree t q first

/-- Where a refinement stands between two of its steps. -/
structure Refining where
  table : ClassTable
  /-- The number that the next new class takes. -/
  fresh : Nat
  /-- States about to move, each with the class that it moves into. -/
  leaving : List (Nat × Nat)
  /-- The classes of the snapshot that are still to be split. -/
  classes : List (List Nat)
  /-- The number of classes when the pass began. -/
  before : Nat
  /-- The states moved during the pass. -/
  moved : List Nat
  /-- The number of passes begun. -/
  passes : Nat

namespace Refining

/-- A pass begins with a snapshot of the classes. -/
def beginPass (visit : ClassTable → List (List Nat)) (t : ClassTable) (fresh passes : Nat) :
    Refining where
  table := t
  fresh := fresh
  leaving := []
  classes := visit t
  before := t.classCount
  moved := []
  passes := passes

/-- The first pass begins when the partition has been entered. -/
def start (visit : ClassTable → List (List Nat)) (partition : List Nat) : Refining :=
  beginPass visit (.ofPartition partition) (ClassTable.ofPartition partition).classCount 1

/-- A state moves. -/
def move (s : Refining) (q k : Nat) (leaving : List (Nat × Nat)) : Refining :=
  { s with table := s.table.assign q k, leaving := leaving, moved := q :: s.moved }

/-- A class keeps its members. -/
def keep (s : Refining) (classes : List (List Nat)) : Refining := { s with classes := classes }

/-- Some members of a class are to move into a new one. -/
def split (s : Refining) (leaving : List Nat) (classes : List (List Nat)) : Refining :=
  { s with fresh := s.fresh + 1, leaving := leaving.map fun q => (q, s.fresh), classes := classes }

/-- What a refinement does next, unless a pass ends with as many classes as it began with. -/
def step (d : Dfa) (visit : ClassTable → List (List Nat)) (s : Refining) : Option Refining :=
  match s.leaving, s.classes with
  | (q, k) :: leaving, _ => some (s.move q k leaving)
  | [], members :: classes =>
    match d.outliers s.table members with
    | [] => some (s.keep classes)
    | leaving => some (s.split leaving classes)
  | [], [] =>
    if s.table.classCount = s.before then none
    else some (beginPass visit s.table s.fresh (s.passes + 1))

/-- Where the refinement of a partition comes to. -/
inductive Reached (d : Dfa) (visit : ClassTable → List (List Nat)) (partition : List Nat) :
    Refining → Prop where
  | start : Reached d visit partition (start visit partition)
  | step {s s' : Refining} :
      Reached d visit partition s → s.step d visit = some s' → Reached d visit partition s'

variable {d : Dfa} {visit : ClassTable → List (List Nat)} {s s' : Refining}

/-- A step moves a state, keeps or splits a class, or begins a pass that has more classes than
the one before or fewer. -/
theorem step_cases (h : s.step d visit = some s') :
    (∃ q k leaving, s.leaving = (q, k) :: leaving ∧ s' = s.move q k leaving) ∨
    (∃ members classes, s.leaving = [] ∧ s.classes = members :: classes ∧
      d.outliers s.table members = [] ∧ s' = s.keep classes) ∨
    (∃ members classes, s.leaving = [] ∧ s.classes = members :: classes ∧
      d.outliers s.table members ≠ [] ∧ s' = s.split (d.outliers s.table members) classes) ∨
    (s.leaving = [] ∧ s.classes = [] ∧ s.table.classCount ≠ s.before ∧
      s' = beginPass visit s.table s.fresh (s.passes + 1)) := by
  -- What is still to be moved comes first, then the classes still to be visited, then the end of
  -- the pass.
  unfold step at h
  split at h
  · rename_i q k leaving hleaving
    cases h
    exact Or.inl ⟨q, k, leaving, hleaving, rfl⟩
  · rename_i members classes hleaving hclasses
    split at h
    · rename_i hnone
      cases h
      exact Or.inr (Or.inl ⟨members, classes, hleaving, hclasses, hnone, rfl⟩)
    · rename_i hsome
      cases h
      exact Or.inr (Or.inr (Or.inl ⟨members, classes, hleaving, hclasses, hsome, rfl⟩))
  · rename_i hleaving hclasses
    split at h
    · cases h
    · rename_i hcount
      cases h
      exact Or.inr (Or.inr (Or.inr ⟨hleaving, hclasses, hcount, rfl⟩))

/-- A refinement stands still only at the end of a pass, and only if the number of classes is
what it was. -/
theorem step_eq_none_iff : s.step d visit = none ↔
    s.leaving = [] ∧ s.classes = [] ∧ s.table.classCount = s.before := by
  unfold step
  split
  · simp [*]
  · split <;> simp [*]
  · simp [*]

end Refining

end Transduction
