/-
Range acceptors with their closures in a container of their own.

The silent closure of every state is computed once, when the acceptor is declared, and kept beside
its containers.  Both a closure and the bit that is set in it are looked up:

* `RangeStorage`, `RangeStorage.ofMachine` — the containers of a range acceptor;
* `RangeStorage.declare?`, with `RangeStorage.declare?_eq` — a declaration, closures included;
* `RangeStorage.recognizes?`, `RangeStorage.silentlyReachable`, `RangeStorage.toAcceptor?`, with an
  equation for each of them.
-/
import Transduction.Checked.Declarations
import Transduction.Checked.Simulation
import Transduction.Proofs.Ranges

namespace Transduction

/-- A range acceptor in separate containers: those of a machine, and the silent closure of each
state. -/
structure RangeStorage where
  machine : Storage (Option (Char × Char))
  closures : Array StateSet
deriving DecidableEq, Repr

namespace RangeStorage

/-- The containers of a range acceptor. -/
def ofMachine (a : RangeAcceptor) : RangeStorage := ⟨.ofMachine .listed a, a.closures⟩

/-- The pairs of states that a silent move links, in ascending order. -/
def silentPairs? (s : Storage (Option (Char × Char))) : Option (List (Nat × Nat)) :=
  (flatMap? (fun q => (s.rows[q]?).map fun row =>
    row.filterMap fun (l, t) => if l.isNone then some (q, t) else none) (List.range s.size)).map
    ascending

/-- Adds a state to the closure of another one, both of them looked up. -/
def link? (size : Nat) (closures : Array StateSet) (pair : Nat × Nat) : Option (Array StateSet) :=
  if pair.1 < closures.size ∧ pair.2 < size then
    some (closures.modify pair.1 (·.insert pair.2))
  else none

/-- The silent closure of every state. -/
def closures? (s : Storage (Option (Char × Char))) : Option (Array StateSet) := do
  let pairs ← silentPairs? s
  let own ← (List.range s.size).mapM fun q => StateSet.ofList? s.size [q]
  (Relation.transitiveClosure pairs).foldlM (link? s.size) own.toArray

/-- A range acceptor from its declaration, unless something is wrong with it. -/
def declare? (size : Nat) (initial finals : List Nat)
    (arcs : List (Nat × Option (Char × Char) × Nat)) :
    Option (Except ConstructionError RangeStorage) :=
  andThen? (Storage.declare? .listed RangeAcceptor.checkRange size initial finals arcs) fun s =>
    (closures? s).map fun closures => .ok ⟨s, closures⟩

/-- The states reachable from a state by silent moves, in ascending order; none from a state that
does not exist. -/
def silentlyReachable (s : RangeStorage) (q : Nat) : List Nat :=
  (s.closures[q]?).elim [] (·.toList)

/-- Whether the rest of a word is read from some member of a closed set. -/
def recognizesFrom? (s : RangeStorage) (current : StateSet) : Word → Option Bool
  | [] => some (current.toList.any (Storage.marked s.machine.accepting))
  | c :: w => do
    let next ← s.machine.advance? RangeAcceptor.reads current c
    if next.isEmpty then return false
    let current ← closeUnder? s.closures next
    recognizesFrom? s current w

/-- Whether some run from an initial to an accepting state reads the word. -/
def recognizes? (s : RangeStorage) (w : Word) : Option Bool := do
  let start ← s.machine.startSet? s.closures
  s.recognizesFrom? start w

/-- The labels of single symbols that stand for a label. -/
def symbolLabels (symbols : List Char) : Option (Char × Char) → List (Option Char)
  | none => [none]
  | some range => (symbols.filter (RangeAcceptor.holds range)).map some

/-- The acceptor of the same words over the given symbols. -/
def toAcceptor? (s : RangeStorage) (symbols : List Char) : Option (Storage (Option Char)) :=
  s.machine.relabelled? id (symbolLabels symbols)

/-! ### Nothing fails -/

variable {a : RangeAcceptor} {symbols : List Char} {current : StateSet} {w : Word}

theorem silentPairs?_ofMachine :
    silentPairs? (.ofMachine .listed a) = some a.silentPairs := by
  rw [silentPairs?, Storage.size_ofMachine, flatMap?_eq fun q hq => by
    rw [Storage.rows_ofMachine (List.mem_range.mp hq), Option.map_some]]
  rfl

section closed

variable (ha : a.Closed)

include ha

theorem lt_size_of_mem_transitiveClosure {q t : Nat}
    (h : (q, t) ∈ Relation.transitiveClosure a.silentPairs) : q < a.size ∧ t < a.size := by
  have hlinks := Relation.mem_transitiveClosure_iff.mp h
  simp only [RangeAcceptor.mem_silentPairs] at hlinks
  constructor
  · obtain ⟨_, hfirst, _⟩ := Relation.TransGen.head'_iff.mp hlinks
    exact Machine.lt_size_of_mem_moves hfirst
  · obtain ⟨_, _, hlast⟩ := Relation.TransGen.tail'_iff.mp hlinks
    exact ha _ _ _ hlast

theorem closures?_ofMachine : closures? (.ofMachine .listed a) = some a.closures := by
  have hown : (List.range a.size).mapM (fun q => StateSet.ofList? a.size [q]) =
      some ((List.range a.size).map fun q => StateSet.ofList [q]) :=
    mapM_eq_some_map fun q hq =>
      StateSet.ofList?_eq (List.forall_mem_singleton.mpr (List.mem_range.mp hq))
  have hseed : ((List.range a.size).map fun q => StateSet.ofList [q]).toArray =
      Array.ofFn fun q : Fin a.size => StateSet.ofList [q.val] :=
    Array.ext (by simp) fun q _ _ => by simp
  have hsize : (Array.ofFn fun q : Fin a.size => StateSet.ofList [q.val]).size = a.size :=
    Array.size_ofFn
  simp only [closures?, silentPairs?_ofMachine, Storage.size_ofMachine, hown, hseed,
    Option.bind_eq_bind, Option.bind_some]
  refine (foldlM_eq_some_foldl (P := fun closures : Array StateSet => closures.size = a.size) hsize
    fun closures hclosures pair hpair => ?_).1
  obtain ⟨hq, ht⟩ := lt_size_of_mem_transitiveClosure ha hpair
  exact ⟨if_pos ⟨hclosures ▸ hq, ht⟩, Array.size_modify.trans hclosures⟩

theorem recognizesFrom?_ofMachine (hcurrent : ∀ q ∈ current, q < a.size) :
    (ofMachine a).recognizesFrom? current w = some (a.recognizesFrom a.closures current w) := by
  induction w generalizing current with
  | nil =>
    refine congrArg some (congrArg (List.any _) (funext fun q => ?_))
    exact Storage.marked_accepting_ofMachine
  | cons c w ih =>
    have hnext : ∀ q ∈ a.advance RangeAcceptor.reads current c, q < a.size := fun q =>
      Machine.lt_size_of_mem_advance ha
    obtain ⟨hclose, hlt⟩ := Storage.closeUnder?_silentClosures ha Option.isNone hnext
    rw [← RangeAcceptor.closures_eq ha] at hclose hlt
    have hadvance : (Storage.ofMachine .listed a).advance? RangeAcceptor.reads current c =
        some (a.advance RangeAcceptor.reads current c) := Storage.advance?_ofMachine ha hcurrent
    rw [recognizesFrom?, RangeAcceptor.recognizesFrom, ofMachine, hadvance, Option.bind_eq_bind,
      Option.bind_some]
    by_cases hempty : (a.advance RangeAcceptor.reads current c).isEmpty = true
    · rw [if_pos hempty, if_pos hempty]
      rfl
    · rw [if_neg hempty, if_neg hempty, hclose]
      exact ih hlt

theorem recognizes?_ofMachine : (ofMachine a).recognizes? w = some (a.recognizes w) := by
  obtain ⟨hstart, hlt⟩ := Storage.startSet?_ofMachine (K := .listed) ha Option.isNone
  rw [← RangeAcceptor.closures_eq ha] at hstart
  rw [recognizes?, ofMachine, hstart, Option.bind_eq_bind, Option.bind_some]
  refine (recognizesFrom?_ofMachine ha hlt).trans ?_
  rw [RangeAcceptor.recognizes, Machine.startSet, RangeAcceptor.closures_eq ha]

end closed

theorem listed_eq_foldl {moves : List (Option (Char × Char) × Nat)} :
    moves = moves.foldl (fun row move => Keeping.listed.enter move row) [] := by
  have hfold (row : List (Option (Char × Char) × Nat)) :
      moves.foldl (fun row move => Keeping.listed.enter move row) row = row ++ moves := by
    induction moves generalizing row with
    | nil => exact (List.append_nil row).symm
    | cons move moves ih =>
      rw [List.foldl_cons, ih, Keeping.listed, List.append_assoc]
      rfl
  exact (hfold []).symm

/-- A declaration fails nowhere, and it ends as it does without containers. -/
theorem declare?_eq {size : Nat} {initial finals : List Nat}
    {arcs : List (Nat × Option (Char × Char) × Nat)} :
    declare? size initial finals arcs =
      some ((RangeAcceptor.declare size initial finals arcs).map ofMachine) := by
  have harrange (moves : List (Option (Char × Char) × Nat)) :
      id moves = moves.foldl (fun row move => Keeping.listed.enter move row) [] := listed_eq_foldl
  rw [declare?, Storage.declare?_eq Keeping.lawful_listed harrange, ← RangeAcceptor.declare]
  cases h : RangeAcceptor.declare size initial finals arcs with
  | error e => rfl
  | ok a =>
    have ha : a.WellFormed := Machine.wellFormed_declare (fun _ => List.Subset.refl _) h
    show (closures? (.ofMachine .listed a)).map _ = _
    rw [closures?_ofMachine ha.closed]
    rfl

theorem mem_expandMove_iff {l : Option Char} {l' : Option (Char × Char)} {t u : Nat} :
    (l, t) ∈ RangeAcceptor.expandMove symbols (l', u) ↔ l ∈ symbolLabels symbols l' ∧ t = u := by
  cases l' with
  | none => simp [RangeAcceptor.expandMove, symbolLabels]
  | some range =>
    simp only [RangeAcceptor.expandMove, symbolLabels, List.mem_map, Prod.mk.injEq]
    constructor
    · rintro ⟨c, hc, rfl, rfl⟩
      exact ⟨⟨c, hc, rfl⟩, rfl⟩
    · rintro ⟨⟨c, hc, rfl⟩, rfl⟩
      exact ⟨c, hc, rfl, rfl⟩

theorem relabels_toAcceptor : Relabels (symbolLabels symbols) a (a.toAcceptor symbols) where
  size_eq := RangeAcceptor.size_toAcceptor
  mem_moves q l t := by
    rw [RangeAcceptor.mem_moves_toAcceptor_iff]
    constructor
    · rintro ⟨⟨l', u⟩, hmove, hmem⟩
      obtain ⟨hl, rfl⟩ := mem_expandMove_iff.mp hmem
      exact ⟨l', hmove, hl⟩
    · rintro ⟨l', hmove, hl⟩
      exact ⟨(l', t), hmove, mem_expandMove_iff.mpr ⟨hl, rfl⟩⟩
  isInitial_eq _ := RangeAcceptor.isInitial_toAcceptor
  isAccepting_eq _ := RangeAcceptor.isAccepting_toAcceptor

theorem toAcceptor?_ofMachine :
    (ofMachine a).toAcceptor? symbols = some (.ofMachine (.ordered id) (a.toAcceptor symbols)) :=
  Storage.relabelled?_eq relabels_toAcceptor RangeAcceptor.ascending_toAcceptor

end RangeStorage

end Transduction
