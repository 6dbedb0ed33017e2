/-
Real-time transducers in separate containers.

A real-time transducer keeps its moves and its final outputs in an array each, beside the list of
its initial states.  It is folded from a trimmed transducer whose rows, marks and closures are
looked up, and its own two arrays are looked up for each configuration on a word:

* `RealTimeStorage`, `RealTimeStorage.ofRealTime` — the containers of a real-time transducer;
* `Storage.toRealTime?`, with `Storage.toRealTime?_eq`;
* `RealTimeStorage.process?`, with `RealTimeStorage.process?_eq`, and `Storage.process?`, with
  `Storage.process?_eq` — the outputs of a word.
-/
import Transduction.Checked.Simulation
import Transduction.Checked.Trim
import Transduction.Proofs.Choices

namespace Transduction

/-- A real-time transducer in separate containers. -/
structure RealTimeStorage where
  initial : List Nat
  moves : Array (List (Char × Word × Nat))
  finalOutputs : Array (List Word)
deriving DecidableEq, Repr

/-- The containers of a real-time transducer. -/
def RealTimeStorage.ofRealTime (m : RealTime) : RealTimeStorage where
  initial := m.initialStates
  moves := m.nodes.map (·.moves)
  finalOutputs := m.nodes.map (·.finalOutputs)

/-! ### Folding silent moves -/

namespace Storage

/-- The silent moves of a state as pairs of a target and an output. -/
def silentMoves? (s : Storage (Option Char × Word)) (q : Nat) : Option (List (Nat × Word)) :=
  (s.rows[q]?).map fun row =>
    row.filterMap fun ((l, w), t) => if l = none then some (t, w) else none

/-- Whether a state has a writing silent move whose target leads back silently. -/
def isUnbounded? (s : Storage (Option Char × Word)) (closures : Array StateSet) (q : Nat) :
    Option Bool := do
  let moves ← s.silentMoves? q
  any? (fun move => do
    let closure ← closures[move.1]?
    let back ← closure.contains? s.size q
    return !move.2.isEmpty && back) moves

/-- The pairs of a state and an output that the silent paths from a state realize, each once. -/
def silentOutputs? (s : Storage (Option Char × Word)) (q : Nat) : Option (List (Nat × Word)) :=
  (explore? id (fun reached => (s.silentMoves? reached.1).map fun moves =>
    moves.map fun move => (move.1, reached.2 ++ move.2)) id s.size [(q, [])]).map fun found =>
      found.map (·.1)

/-- The moves of a state of the real-time transducer. -/
def foldedMoves? (s : Storage (Option Char × Word)) (q : Nat) :
    Option (List (Char × Word × Nat)) := do
  let reached ← s.silentOutputs? q
  let moves ← flatMap? (fun entry => (s.rows[entry.1]?).map fun row =>
    row.filterMap fun ((l, w), t) => l.map fun c => (c, entry.2 ++ w, t)) reached
  return ascending moves

/-- The outputs with which a run may end in a state of the real-time transducer. -/
def foldedOutputs? (s : Storage (Option Char × Word)) (q : Nat) : Option (List Word) := do
  let reached ← s.silentOutputs? q
  let outputs ← filterMap? (fun entry => (s.accepting[entry.1]?).map fun accepted =>
    if accepted then some entry.2 else none) reached
  return ascending outputs

/-- The transducer without silent moves, unless a silent cycle writes. -/
def toRealTime? (s : Storage (Option Char × Word)) :
    Option (Except TransducerError RealTimeStorage) := do
  let s ← s.trim? (·.1)
  let closures ← s.silentClosures? (·.1.isNone)
  match ← filter? (s.isUnbounded? closures) (List.range s.size) with
  | q :: _ => return .error (.unboundedOutput q)
  | [] => do
    let moves ← (List.range s.size).mapM s.foldedMoves?
    let outputs ← (List.range s.size).mapM s.foldedOutputs?
    return .ok ⟨ones s.initial, moves.toArray, outputs.toArray⟩

end Storage

/-! ### The outputs of a word -/

namespace RealTimeStorage

/-- The configurations after one more symbol. -/
def advance? (s : RealTimeStorage) (current : RealTime.Configurations) (c : Char) :
    Option RealTime.Configurations :=
  (flatMap? (fun entry => (s.moves[entry.1]?).map fun row =>
    row.filterMap fun (d, w, t) => if d = c then some (t, entry.2 ++ w) else none) current).map
    ascending

/-- All outputs for a word in ascending order; none outside the domain. -/
def process? (s : RealTimeStorage) (w : Word) : Option (List Word) := do
  let last ← w.foldlM s.advance? (s.initial.map fun q => (q, []))
  let outputs ← flatMap? (fun entry => (s.finalOutputs[entry.1]?).map fun outputs =>
    outputs.map fun v => entry.2 ++ v) last
  return ascending outputs

end RealTimeStorage

/-- All outputs for a word in ascending order, unless some word has infinitely many. -/
def Storage.process? (s : Storage (Option Char × Word)) (w : Word) :
    Option (Except TransducerError (List Word)) :=
  andThen? s.toRealTime? fun r => (r.process? w).map .ok

/-! ### Nothing fails -/

namespace Storage

variable {m : Transducer} {K : Keeping (Option Char × Word)} {q : Nat} {w : Word}

theorem silentMoves?_ofMachine (hq : q < m.size) :
    (ofMachine K m).silentMoves? q = some (m.silentMoves q) := by
  rw [silentMoves?, rows_ofMachine hq]
  rfl

section closed

variable (hm : m.Closed)

include hm

theorem isUnbounded?_ofMachine (hq : q < m.size) :
    (ofMachine K m).isUnbounded? (m.silentClosures fun l => l.1.isNone) q =
      some ((m.silentMoves q).any fun (t, w) => !w.isEmpty &&
        (((m.silentClosures fun l => l.1.isNone)[t]?).getD .empty).contains q) := by
  rw [isUnbounded?, silentMoves?_ofMachine hq, Option.bind_eq_bind, Option.bind_some]
  refine any?_eq fun (t, w) ht => ?_
  have hlt : t < m.size := hm _ _ _ (Transducer.mem_silentMoves.mp ht)
  simp only [Machine.getElem?_silentClosures hlt, size_ofMachine, StateSet.contains?_eq hq,
    Option.bind_eq_bind, Option.bind_some, Option.getD_some]
  rfl

theorem silentOutputs?_ofMachine (hq : q < m.size) :
    (ofMachine K m).silentOutputs? q = some (m.silentOutputs q) := by
  have hfound : explore? id (fun reached =>
        ((ofMachine K m).silentMoves? reached.1).map fun moves =>
          moves.map fun move => (move.1, reached.2 ++ move.2)) id m.size [(q, [])] =
      some (explore id (fun reached => (m.silentMoves reached.1).map fun (t, w) =>
        (t, reached.2 ++ w)) id m.size [(q, [])]) := by
    refine explore?_eq (P := fun reached => reached.1 < m.size) (List.forall_mem_singleton.mpr hq)
      fun reached hlt => ⟨by rw [silentMoves?_ofMachine hlt]; rfl, fun t ht => ?_⟩
    obtain ⟨⟨t, w⟩, hmove, rfl⟩ := List.mem_map.mp ht
    exact hm _ _ _ (Transducer.mem_silentMoves.mp hmove)
  rw [silentOutputs?, size_ofMachine, hfound]
  rfl

theorem foldedMoves?_ofMachine (hq : q < m.size) :
    (ofMachine K m).foldedMoves? q = some (m.realTimeNode q).moves := by
  have hmoves := flatMap?_eq (l := m.silentOutputs q)
    (f := fun entry => ((ofMachine K m).rows[entry.1]?).map fun row =>
      row.filterMap fun ((l, w), t) => l.map fun c => (c, entry.2 ++ w, t))
    (g := fun (p, v) => (m.moves p).filterMap fun ((l, w), t) => l.map fun c => (c, v ++ w, t))
    fun (p, v) hp => by
      rw [rows_ofMachine (Transducer.lt_size_of_mem_silentOutputs hm hq hp)]
      rfl
  rw [foldedMoves?, silentOutputs?_ofMachine hm hq, Option.bind_eq_bind, Option.bind_some, hmoves]
  rfl

theorem foldedOutputs?_ofMachine (hq : q < m.size) :
    (ofMachine K m).foldedOutputs? q = some (m.realTimeNode q).finalOutputs := by
  have houtputs := filterMap?_eq (l := m.silentOutputs q)
    (f := fun entry => ((ofMachine K m).accepting[entry.1]?).map fun accepted =>
      if accepted then some entry.2 else none)
    (g := fun (p, v) => if m.isAccepting p then some v else none)
    fun (p, v) hp => by
      rw [accepting_ofMachine (Transducer.lt_size_of_mem_silentOutputs hm hq hp)]
      rfl
  rw [foldedOutputs?, silentOutputs?_ofMachine hm hq, Option.bind_eq_bind, Option.bind_some,
    houtputs]
  rfl

omit hm in
theorem ofRealTime_folded : RealTimeStorage.ofRealTime m.folded = {
    initial := m.initialStates
    moves := ((List.range m.size).map fun q => (m.realTimeNode q).moves).toArray
    finalOutputs :=
      ((List.range m.size).map fun q => (m.realTimeNode q).finalOutputs).toArray } := by
  have hinitial : m.folded.initialStates = m.initialStates := by
    rw [RealTime.initialStates, Transducer.size_folded]
    exact List.filter_congr fun q _ => Transducer.isInitial_folded
  rw [RealTimeStorage.ofRealTime, hinitial]
  congr 1
  · exact Array.ext (by simp [Transducer.folded]) fun q _ _ => by simp [Transducer.folded]
  · exact Array.ext (by simp [Transducer.folded]) fun q _ _ => by simp [Transducer.folded]

/-- Folding fails nowhere, and it refuses what it refuses without containers. -/
theorem toRealTime?_eq (hascending : m.Ascending) :
    (ofMachine K m).toRealTime? = some (m.toRealTime.map RealTimeStorage.ofRealTime) := by
  have htrim : m.trim.Closed := (Machine.wellFormed_trim hm).closed
  -- Every list is made for the states of the trimmed machine, one after the other, and each of
  -- them finds its row and its closure.
  have hunbounded : filter? ((ofMachine (.ordered (·.1)) m.trim).isUnbounded?
      (m.trim.silentClosures fun l => l.1.isNone)) (List.range m.trim.size) =
      some (Transducer.unboundedStates m.trim) :=
    filter?_eq fun q hq => isUnbounded?_ofMachine htrim (List.mem_range.mp hq)
  have hmoves : (List.range m.trim.size).mapM (ofMachine (.ordered (·.1)) m.trim).foldedMoves? =
      some ((List.range m.trim.size).map fun q => (Transducer.realTimeNode m.trim q).moves) :=
    mapM_eq_some_map fun q hq => foldedMoves?_ofMachine htrim (List.mem_range.mp hq)
  have houtputs : (List.range m.trim.size).mapM
      (ofMachine (.ordered (·.1)) m.trim).foldedOutputs? = some ((List.range m.trim.size).map
        fun q => (Transducer.realTimeNode m.trim q).finalOutputs) :=
    mapM_eq_some_map fun q hq => foldedOutputs?_ofMachine htrim (List.mem_range.mp hq)
  have htrimmed : (ofMachine K m).trim? (·.1) = some (ofMachine (.ordered (·.1)) m.trim) :=
    trim?_eq hm hascending
  simp only [toRealTime?, htrimmed, silentClosures?_ofMachine htrim, size_ofMachine, hunbounded,
    hmoves, houtputs, ones_initial_ofMachine, Option.bind_eq_bind, Option.bind_some]
  rw [Transducer.toRealTime]
  cases Transducer.unboundedStates m.trim with
  | cons q qs => rfl
  | nil => exact congrArg (fun r => some (Except.ok r)) (ofRealTime_folded (m := m.trim)).symm

end closed

end Storage

namespace RealTimeStorage

variable {m : RealTime} {q : Nat} {c : Char} {w : Word} {current : RealTime.Configurations}

theorem moves_ofRealTime (hq : q < m.size) : (ofRealTime m).moves[q]? = some (m.moves q) := by
  have hnode : m.nodes[q]? = some m.nodes[q] := Array.getElem?_eq_getElem hq
  rw [ofRealTime, Array.getElem?_map, RealTime.moves, hnode]
  rfl

theorem finalOutputs_ofRealTime (hq : q < m.size) :
    (ofRealTime m).finalOutputs[q]? = some (m.finalOutputs q) := by
  have hnode : m.nodes[q]? = some m.nodes[q] := Array.getElem?_eq_getElem hq
  rw [ofRealTime, Array.getElem?_map, RealTime.finalOutputs, hnode]
  rfl

/-- A step from states leads to states. -/
theorem advance?_ofRealTime (hm : m.Closed) (hcurrent : ∀ entry ∈ current, entry.1 < m.size) :
    (ofRealTime m).advance? current c = some (m.advance current c) ∧
      ∀ entry ∈ m.advance current c, entry.1 < m.size := by
  have hmoves := flatMap?_eq (l := current)
    (f := fun entry => ((ofRealTime m).moves[entry.1]?).map fun row =>
      row.filterMap fun (d, w, t) => if d = c then some (t, entry.2 ++ w) else none)
    (g := fun (q, written) => (m.moves q).filterMap fun (d, w, t) =>
      if d = c then some (t, written ++ w) else none)
    fun entry hentry => by
      rw [moves_ofRealTime (hcurrent entry hentry)]
      rfl
  refine ⟨by rw [advance?, hmoves]; rfl, fun (r, w) hr => ?_⟩
  obtain ⟨q, _, _, v, hmove, _⟩ := RealTime.mem_advance.mp hr
  exact hm q c v r hmove

/-- No configuration on a word is looked up in vain. -/
theorem process?_eq (hm : m.Closed) : (ofRealTime m).process? w = some (m.process w) := by
  have hstart : ∀ entry ∈ m.initialStates.map fun q => (q, ([] : Word)), entry.1 < m.size := by
    refine List.forall_mem_map.mpr fun q hq => ?_
    exact List.mem_range.mp (List.mem_of_mem_filter hq)
  obtain ⟨hrun, hlast⟩ := foldlM_eq_some_foldl (f := (ofRealTime m).advance?) (g := m.advance)
    (P := fun current => ∀ entry ∈ current, entry.1 < m.size) (l := w) hstart
    fun current hcurrent c _ => advance?_ofRealTime hm hcurrent
  have houtputs := flatMap?_eq
    (l := w.foldl m.advance (m.initialStates.map fun q => (q, ([] : Word))))
    (f := fun entry => ((ofRealTime m).finalOutputs[entry.1]?).map fun outputs =>
      outputs.map fun v => entry.2 ++ v)
    (g := fun (q, written) => (m.finalOutputs q).map fun v => written ++ v)
    fun entry hentry => by
      rw [finalOutputs_ofRealTime (hlast entry hentry)]
      rfl
  have hinitial : (ofRealTime m).initial = m.initialStates := rfl
  rw [process?, hinitial, hrun, Option.bind_eq_bind, Option.bind_some, houtputs]
  rfl

end RealTimeStorage

/-- The outputs of a word are found without a failure, or refused as without containers. -/
theorem Storage.process?_eq {m : Transducer} {K : Keeping (Option Char × Word)} {w : Word}
    (hm : m.Closed) (hascending : m.Ascending) :
    (ofMachine K m).process? w = some (m.process w) := by
  rw [process?, toRealTime?_eq hm hascending, Transducer.process]
  cases h : m.toRealTime with
  | error e => rfl
  | ok r =>
    show ((RealTimeStorage.ofRealTime r).process? w).map _ = _
    rw [RealTimeStorage.process?_eq (Transducer.closed_of_toRealTime hm h)]
    rfl

end Transduction
