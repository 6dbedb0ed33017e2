/-
Machines seen as graphs.

The views of a machine read the moves of its states as labelled edges: those of one state, the
number of all, and a drawing, for which the mark of every state and the node of every target are
looked up.  Only a caller who asks for the moves of a state that is not there gets nothing:

* `View`, with `Storage.view` and `Dfa.view` — what the views read;
* `View.transitions?`, `View.count?`, `View.draw?` — the views;
* `View.Sound`, `View.count?_eq`, `View.draw?_eq` — if every state has a mark and all targets are
  states, then counting and drawing fail nowhere;
* `Storage.draw?_view`, `Dfa.draw?_view`, with their siblings for counting — they give what they
  give without containers.
-/
import Transduction.Checked.Deterministic
import Transduction.Graphviz

namespace Transduction

/-- A machine as a graph: the labelled edges of each state, the initial states, and one accepting
mark a state. -/
structure View where
  rows : Array (List (List Char × Nat))
  initial : List Nat
  accepting : Array Bool

namespace View

/-- The labelled edges of a state. -/
def transitions? (v : View) (q : Nat) : Option (List (List Char × Nat)) := v.rows[q]?

/-- The number of edges. -/
def count? (v : View) : Option Nat :=
  ((List.range v.rows.size).mapM v.transitions?).map fun rows =>
    rows.foldl (fun n row => n + row.length) 0

/-- The edges of a state in a drawing, the nodes of which are the states. -/
def edges? (v : View) (q : Nat) : Option (List (Nat × List Char × Nat)) := do
  let row ← v.transitions? q
  row.mapM fun edge => if edge.2 < v.rows.size then some (q, edge) else none

/-- The drawing. -/
def draw? (v : View) : Option Drawing := do
  let accepting ← filter? (fun q => v.accepting[q]?) (List.range v.rows.size)
  let edges ← flatMap? v.edges? (List.range v.rows.size)
  return { size := v.rows.size, initial := v.initial, accepting := accepting, edges := edges }

/-- Every state has a mark, and every edge ends in a state. -/
structure Sound (v : View) : Prop where
  accepting_size : v.accepting.size = v.rows.size
  target_lt : ∀ row ∈ v.rows, ∀ edge ∈ row, edge.2 < v.rows.size

variable {v : View} {q : Nat}

/-- The moves of a state are refused if there is no such state, and only then. -/
theorem transitions?_eq_none_iff : v.transitions? q = none ↔ v.rows.size ≤ q :=
  Array.getElem?_eq_none_iff

theorem count?_eq : v.count? = some (v.rows.toList.foldl (fun n row => n + row.length) 0) := by
  have hrows : (List.range v.rows.toList.length).mapM v.transitions? = some v.rows.toList :=
    mapM_range_eq_some fun q row hrow => by rwa [Array.getElem?_toList] at hrow
  rw [Array.length_toList] at hrows
  rw [count?, hrows, Option.map_some]

/-- A drawing fails nowhere. -/
theorem draw?_eq (hv : v.Sound) : v.draw? = some {
    size := v.rows.size
    initial := v.initial
    accepting := (List.range v.rows.size).filter fun q => (v.accepting[q]?).getD false
    edges := (List.range v.rows.size).flatMap fun q =>
      ((v.rows[q]?).getD []).map fun edge => (q, edge) } := by
  -- There is a bit for each row, and every edge leads to a row.
  have haccepting : filter? (fun q => v.accepting[q]?) (List.range v.rows.size) =
      some ((List.range v.rows.size).filter fun q => (v.accepting[q]?).getD false) :=
    filter?_eq fun q hq => by
      have hlt : q < v.accepting.size := hv.accepting_size ▸ List.mem_range.mp hq
      rw [Array.getElem?_eq_getElem hlt, Option.getD_some]
  have hedges : flatMap? v.edges? (List.range v.rows.size) =
      some ((List.range v.rows.size).flatMap fun q =>
        ((v.rows[q]?).getD []).map fun edge => (q, edge)) :=
    flatMap?_eq fun q hq => by
      have hlt : q < v.rows.size := List.mem_range.mp hq
      rw [edges?, transitions?, Array.getElem?_eq_getElem hlt, Option.getD_some]
      exact mapM_eq_some_map fun edge hedge =>
        if_pos (hv.target_lt _ (Array.getElem_mem hlt) edge hedge)
  rw [draw?, haccepting, hedges]
  rfl

end View

/-- The machine in its containers as a graph. -/
def Storage.view {L : Type} (label : L → List Char) (s : Storage L) : View where
  rows := s.rows.map fun row => row.map fun (l, t) => (label l, t)
  initial := ones s.initial
  accepting := s.accepting

/-- The automaton as a graph. -/
def Dfa.view (d : Dfa) : View where
  rows := d.rows.map fun row => row.map fun (c, t) => (Text.escapeChar c, t)
  initial := [d.start]
  accepting := d.accepting.values

namespace Storage

variable {L : Type} {label : L → List Char} {K : Keeping L} {m : Machine L}

theorem sound_view (hm : m.Closed) : ((ofMachine K m).view label).Sound where
  accepting_size := by simp [view, ofMachine]
  target_lt row hrow edge hedge := by
    simp only [view, ofMachine, Array.mem_map, exists_exists_and_eq_and] at hrow
    obtain ⟨n, hn, rfl⟩ := hrow
    obtain ⟨⟨l, t⟩, hmove, rfl⟩ := List.mem_map.mp hedge
    obtain ⟨q, hq⟩ := Array.getElem?_of_mem hn
    have ht : t < m.size := hm q l t (by rwa [Machine.moves, hq])
    simpa [view, ofMachine, Machine.size] using ht

theorem count?_view : ((ofMachine K m).view label).count? = some m.moveCount := by
  rw [View.count?_eq, Machine.moveCount, ← Array.foldl_toList]
  simp only [view, ofMachine, Array.toList_map, List.foldl_map, List.length_map]

/-- Drawing a machine fails nowhere. -/
theorem draw?_view (hm : m.Closed) :
    ((ofMachine K m).view label).draw? = some (Drawing.ofMachine label m) := by
  have hsize : ((ofMachine K m).view label).rows.size = m.size := by
    simp [view, ofMachine, Machine.size]
  have haccepting (q : Nat) :
      (((ofMachine K m).view label).accepting[q]?).getD false = m.isAccepting q :=
    marked_accepting_ofMachine (K := K)
  have hrow (q : Nat) : ((((ofMachine K m).view label).rows)[q]?).getD [] =
      (m.moves q).map fun (l, t) => (label l, t) := by
    rw [← row_ofMachine (K := K), row, view, Array.getElem?_map]
    cases (ofMachine K m).rows[q]? <;> rfl
  rw [View.draw?_eq (sound_view hm)]
  simp only [hsize, haccepting, hrow, List.map_map]
  refine congrArg some ?_
  rw [Drawing.ofMachine, ← ones_initial_ofMachine (K := K)]
  rfl

end Storage

namespace Dfa

variable {d : Dfa}

theorem sound_view (hd : d.WellFormed) : d.view.Sound where
  accepting_size := hd.accepting_size.trans (by simp [view, Dfa.size])
  target_lt row hrow edge hedge := by
    obtain ⟨moves, hmoves, rfl⟩ := Array.mem_map.mp hrow
    obtain ⟨⟨c, t⟩, hmove, rfl⟩ := List.mem_map.mp hedge
    obtain ⟨q, hq⟩ := Array.getElem?_of_mem hmoves
    have ht : t < d.size := hd.target_lt q c t (by rwa [Dfa.row, hq])
    simpa [view, Dfa.size] using ht

theorem count?_view : d.view.count? = some d.moveCount := by
  rw [View.count?_eq, moveCount, ← Array.foldl_toList]
  simp only [view, Array.toList_map, List.foldl_map, List.length_map]

/-- Drawing an automaton fails nowhere. -/
theorem draw?_view (hd : d.WellFormed) : d.view.draw? = some (Drawing.ofDfa d) := by
  have hsize : d.view.rows.size = d.size := by simp [view, Dfa.size]
  have haccepting : (List.range d.size).filter (fun q => (d.view.accepting[q]?).getD false) =
      d.acceptingStates := by
    rw [acceptingStates, Marks.toList, hd.accepting_size]
    rfl
  have hrow (q : Nat) : (d.view.rows[q]?).getD [] =
      (d.row q).map fun (c, t) => (Text.escapeChar c, t) := by
    rw [row, view, Array.getElem?_map]
    cases d.rows[q]? <;> rfl
  rw [View.draw?_eq (sound_view hd)]
  simp only [hsize, haccepting, hrow, List.map_map]
  rfl

end Dfa

end Transduction
