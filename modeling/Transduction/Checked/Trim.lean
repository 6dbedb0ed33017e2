/-
Trimming, with every state looked up.

The two searches of trimming keep what they have met in rows of bits, and the sources of each state
in an array.  The useful states get their new numbers in another array, in which the target of every
move of theirs is looked up:

* `Storage.predecessors?`, `Storage.usefulStates?` — the two searches;
* `Storage.restrict?` — the machine of the useful states;
* `Storage.trim?_eq` — where all moves lead to states nothing fails, and the containers are filled
  with the trimmed machine.
-/
import Transduction.Checked.Search
import Transduction.Proofs.AscendingMoves

namespace Transduction.Storage

variable {L : Type}

/-- The targets of the moves that leave a state. -/
def successors? (s : Storage L) (q : Nat) : Option (List Nat) :=
  (s.rows[q]?).map fun row => row.map (·.2)

/-- The states that can be reached from an initial state. -/
def accessible? (s : Storage L) : Option StateSet :=
  reachable? s.size s.successors? (ones s.initial)

/-- Enters a state as a source of another one. -/
def enterSource? (q : Nat) (sources : Array (List Nat)) (t : Nat) : Option (Array (List Nat)) :=
  if t < sources.size then some (sources.modify t (q :: ·)) else none

/-- The accessible sources of the moves into each state. -/
def predecessors? (s : Storage L) (accessible : StateSet) : Option (Array (List Nat)) :=
  accessible.toList.foldlM (fun sources q => do
    let targets ← s.successors? q
    targets.foldlM (enterSource? q) sources) (Array.replicate s.size [])

/-- The states on a path from an initial to an accepting state, ascending. -/
def usefulStates? (s : Storage L) : Option (List Nat) := do
  let accessible ← s.accessible?
  let sources ← s.predecessors? accessible
  let ends ← filter? (accessible.contains? s.size) (ones s.accepting)
  let useful ← reachable? s.size (fun q => sources[q]?) ends
  return (List.range s.size).filter useful.contains

/-- The new numbers of old states, by their positions in a list. -/
def newIds (size : Nat) (states : List Nat) : Array (Option Nat) :=
  Array.ofFn fun q : Fin size => (numbering states)[q.val]?

/-- The writes into the new state of an old one. -/
def keptWrites? (s : Storage L) (ids : Array (Option Nat)) (q : Nat) : Option (List (Write L)) := do
  let i ← (ids[q]?).join
  let initial ← s.initial[q]?
  let accepting ← s.accepting[q]?
  let row ← s.rows[q]?
  let moves ← filterMap? (fun move => (ids[move.2]?).map fun j? => j?.map fun j => (move.1, j)) row
  return stateWrites i initial accepting moves

/-- The machine restricted to the listed states. -/
def restrict? [Ord L] (symbol? : L → Option Char) (s : Storage L) (states : List Nat) :
    Option (Storage L) := do
  let items ← states.mapM (s.keptWrites? (newIds s.size states))
  empty.writes? (.ordered symbol?) (Write.perState items)

/-- The machine restricted to its useful states. -/
def trim? [Ord L] (symbol? : L → Option Char) (s : Storage L) : Option (Storage L) := do
  match ← s.usefulStates? with
  | [] => empty.writes? (.ordered symbol?) [.state, .initial 0]
  | states => s.restrict? symbol? states

/-! ### The two searches -/

variable {K : Keeping L} {m : Machine L} {q : Nat}

theorem successors?_ofMachine (hq : q < m.size) :
    (ofMachine K m).successors? q = some (m.successors q) := by
  rw [successors?, rows_ofMachine hq]
  rfl

variable (hm : m.Closed)

include hm

theorem accessible?_ofMachine : (ofMachine K m).accessible? = some m.accessible := by
  rw [accessible?, ones_initial_ofMachine, size_ofMachine]
  refine reachable?_eq (fun q => Machine.lt_size_of_mem_initialStates) fun q hq => ?_
  exact ⟨successors?_ofMachine hq, fun t => Machine.lt_size_of_mem_successors hm⟩

theorem predecessors?_ofMachine : (ofMachine K m).predecessors? m.accessible =
    some m.predecessors ∧ m.predecessors.size = m.size := by
  rw [predecessors?, size_ofMachine, Machine.predecessors]
  refine foldlM_eq_some_foldl (P := fun sources : Array (List Nat) => sources.size = m.size)
    Array.size_replicate fun sources hsize q hq => ?_
  have hq := Machine.lt_size_of_mem_accessible hm (StateSet.mem_toList.mp hq)
  rw [successors?_ofMachine hq]
  refine foldlM_eq_some_foldl (P := fun sources : Array (List Nat) => sources.size = m.size) hsize
    fun sources hsize t ht => ?_
  have ht : t < sources.size := hsize ▸ Machine.lt_size_of_mem_successors hm ht
  exact ⟨if_pos ht, Array.size_modify.trans hsize⟩

theorem usefulStates?_ofMachine : (ofMachine K m).usefulStates? = some m.usefulStates := by
  obtain ⟨hsources, hsize⟩ := predecessors?_ofMachine (K := K) hm
  have hends : filter? (m.accessible.contains? m.size) m.acceptingStates =
      some (m.acceptingStates.filter m.accessible.contains) := filter?_eq fun q hq =>
    StateSet.contains?_eq (Machine.lt_size_of_mem_acceptingStates hq)
  have huseful : reachable? m.size (fun q => m.predecessors[q]?)
      (m.acceptingStates.filter m.accessible.contains) = some m.coaccessible := by
    refine reachable?_eq (fun q => Machine.lt_size_of_mem_filter_acceptingStates) fun q hq => ?_
    have hlt : q < m.predecessors.size := hsize ▸ hq
    exact ⟨by simp [hlt], fun t => Machine.lt_size_of_mem_predecessors hm hq⟩
  simp only [usefulStates?, accessible?_ofMachine hm, hsources, ones_accepting_ofMachine,
    size_ofMachine, hends, huseful, Option.bind_eq_bind, Option.bind_some]
  rfl

section restrict

omit hm

variable {states : List Nat} (hnodup : states.Nodup)

theorem getElem?_newIds {size : Nat} (hq : q < size) :
    (newIds size states)[q]? = some (numbering states)[q]? := by
  simp [newIds, hq]

include hnodup

/-- What becomes of the state at position `i`. -/
theorem keptWrites?_ofMachine (hm : m.Closed) {i : Nat} (hi : states[i]? = some q)
    (hq : q < m.size) : (ofMachine K m).keptWrites? (newIds m.size states) q =
      some (stateWrites i (m.isInitial q) (m.isAccepting q)
        ((m.moves q).filterMap fun (l, t) => ((numbering states)[t]?).map fun j => (l, j))) := by
  have hmoves : filterMap? (fun move => ((newIds m.size states)[move.2]?).map fun j? =>
      j?.map fun j => (move.1, j)) (m.moves q) =
      some ((m.moves q).filterMap fun (l, t) => ((numbering states)[t]?).map fun j => (l, j)) :=
    filterMap?_eq fun (l, t) ht => by
      rw [getElem?_newIds (hm q l t ht), Option.map_some]
  simp only [keptWrites?, getElem?_newIds hq, (getElem?_numbering hnodup).mpr hi, Option.join_some,
    initial_ofMachine hq, accepting_ofMachine hq, rows_ofMachine hq, hmoves,
    Option.bind_eq_bind, Option.bind_some]
  rfl

variable [Ord L] [Std.TransOrd L] [Std.LawfulEqOrd L] {symbol? : L → Option Char}

/-- States that are listed once become the states of a machine. -/
theorem restrict?_ofMachine (hm : m.Closed) (hlt : ∀ q ∈ states, q < m.size)
    (hascending : (m.restrict states).Ascending) :
    (ofMachine K m).restrict? symbol? states =
      some (ofMachine (.ordered symbol?) (m.restrict states)) := by
  have hitems : states.mapM ((ofMachine K m).keptWrites? (newIds m.size states)) =
      some (states.mapIdx fun i q => stateWrites i (m.isInitial q) (m.isAccepting q)
        ((m.moves q).filterMap fun (l, t) => ((numbering states)[t]?).map fun j => (l, j))) :=
    mapM_eq_some_mapIdx fun i q hi =>
      keptWrites?_ofMachine hnodup hm hi (hlt q (List.mem_of_getElem? hi))
  have hnodes : (states.mapIdx fun i q => stateWrites i (m.isInitial q) (m.isAccepting q)
      ((m.moves q).filterMap fun (l, t) => ((numbering states)[t]?).map fun j => (l, j))) =
      (m.restrict states).nodes.toList.mapIdx
        fun i n => stateWrites i n.initial n.accepting n.moves := by
    refine List.ext_getElem? fun i => ?_
    simp only [Machine.restrict, List.getElem?_map, List.getElem?_mapIdx]
    cases states[i]? <;> rfl
  rw [restrict?, size_ofMachine, hitems, hnodes, Option.bind_eq_bind, Option.bind_some]
  exact writes?_nodeWrites_ordered (Machine.ascending_iff.mp hascending)

end restrict

/-- Trimming fails nowhere. -/
theorem trim?_eq [Ord L] [Std.TransOrd L] [Std.LawfulEqOrd L] {symbol? : L → Option Char}
    (hascending : m.Ascending) :
    (ofMachine K m).trim? symbol? = some (ofMachine (.ordered symbol?) m.trim) := by
  have htrim := Machine.ascending_trim hascending
  rw [trim?, usefulStates?_ofMachine hm, Option.bind_eq_bind, Option.bind_some]
  rcases m.trim_cases with ⟨hsome, heq⟩ | ⟨hnone, heq⟩
  · split
    · exact absurd ‹_› hsome
    · rw [heq] at htrim ⊢
      exact restrict?_ofMachine m.nodup_usefulStates hm
        (fun q hq => (Machine.mem_usefulStates.mp hq).1) htrim
  · rw [hnone, heq]
    exact writes?_nodeWrites_ordered (m := Machine.lone) (Machine.ascending_iff.mp (heq ▸ htrim))

end Transduction.Storage
