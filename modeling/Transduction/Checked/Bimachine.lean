/-
Bimachines, compiled with every state looked up.

The compilation reads the moves and final outputs of a real-time transducer out of its containers.
Classes of suffixes are rows of bits, one bit a state.  A choice is a row of its own, in which the
right state behind each symbol is looked up, and right states go by new numbers in the end:

* `RealTimeStorage.suffixClasses?`, `RealTimeStorage.rightAutomaton?` — the right automaton;
* `RealTimeStorage.choices?`, `RealTimeStorage.leftAutomaton?` — the left automaton, with the
  choices of which the table is made;
* `Bimachine.mergeRight?` — the table is renumbered behind the merged right states;
* `RealTimeStorage.toBimachine?`, with `RealTimeStorage.toBimachine?_eq`, and
  `Storage.toBimachine?`, with `Storage.toBimachine?_eq` — the compilation fails nowhere;
* `Bimachine.toTransducer?`, with `Bimachine.toTransducer?_eq` — neither does the way back.

A bimachine keeps nothing that its two automata and its table do not keep.
-/
import Transduction.Checked.Minimal
import Transduction.Checked.RealTime
import Transduction.Proofs.Unfolding

namespace Transduction

open RealTime (Suffixes Choice ChoiceMove)

namespace RealTimeStorage

/-- The number of states. -/
def size (s : RealTimeStorage) : Nat := s.moves.size

/-! ### Classes of suffixes -/

/-- The states with a move on a symbol into a member of the set. -/
def retreat? (s : RealTimeStorage) (set : StateSet) (c : Char) : Option StateSet := do
  let sources ← filter? (fun q => (s.moves[q]?).map fun row =>
    row.any fun (d, _, t) => d == c && set.contains t) (List.range s.size)
  StateSet.ofList? s.size sources

/-- The states in which a run may end. -/
def finalStates? (s : RealTimeStorage) : Option StateSet := do
  let states ← filter? (fun q => (s.finalOutputs[q]?).map fun outputs => !outputs.isEmpty)
    (List.range s.size)
  StateSet.ofList? s.size states

/-- The states from which a suffix of the class can be completed. -/
def completing? (s : RealTimeStorage) : Suffixes → Option StateSet
  | none => s.finalStates?
  | some set => some set

/-- The class of the suffixes that are one symbol longer, if there are any. -/
def longer? (s : RealTimeStorage) (suffix : Suffixes) (c : Char) : Option (Option Suffixes) := do
  let set ← s.completing? suffix
  let longer ← s.retreat? set c
  return if longer.isEmpty then none else some (some longer)

/-- The classes of the suffixes that are one symbol longer. -/
def suffixMoves? (s : RealTimeStorage) (symbols : List Char) (suffix : Suffixes) :
    Option (List (Char × Suffixes)) :=
  filterMap? (fun c => (s.longer? suffix c).map fun next? =>
    next?.map fun next => (c, next)) symbols

/-- The classes of suffixes over the given symbols. -/
def suffixClasses? (s : RealTimeStorage) (symbols : List Char) :
    Option (List (Suffixes × List (Char × Suffixes))) :=
  explore? RealTime.suffixKey (s.suffixMoves? symbols) (fun moves => moves.map (·.2))
    (2 ^ s.size + 1) [none]

/-- The automaton of the classes of suffixes. -/
def rightAutomaton? (s : RealTimeStorage) (classes : List (Suffixes × List (Char × Suffixes))) :
    Option Dfa := do
  let initial ← StateSet.ofList? s.size s.initial
  Dfa.ofExploration? RealTime.suffixKey
    (fun suffix => (s.completing? suffix).map fun set => set.meets initial) classes

/-! ### Choices -/

/-- The least target among the moves on a symbol from a state into the set, and the least output on
the way to it. -/
def bestMove? (s : RealTimeStorage) (q : Nat) (c : Char) (into : StateSet) :
    Option (Option (Nat × Word)) := do
  let row ← s.moves[q]?
  let moves ← filterMap? (fun (d, w, t) =>
    if d = c then (into.contains? s.size t).map fun inside => if inside then some (t, w) else none
    else some none) row
  return (ascending moves).head?

/-- The output that a move contributes in front of a right state. -/
def fragment? (s : RealTimeStorage) (after : Nat) (move : Nat × Word) : Option Word :=
  if after = 0 then
    (s.finalOutputs[move.1]?).map fun outputs => move.2 ++ (outputs.head?).getD []
  else some move.2

/-- The best move in front of a right state, from the state that is chosen one symbol before. -/
def bestBefore? (s : RealTimeStorage) (right : Dfa) (sets : List StateSet) (choice : Choice)
    (c : Char) (after : Nat) : Option (Option (Nat × Word)) :=
  match right.delta after c with
  | none => some none
  | some before => do
    match ← choice[before]? with
    | none => return none
    | some q => do
      let into ← sets[after]?
      s.bestMove? q c into

/-- The move of a choice on a symbol, if some right state stays possible. -/
def choiceMove? (s : RealTimeStorage) (right : Dfa) (sets : List StateSet) (choice : Choice)
    (c : Char) : Option (Option ChoiceMove) := do
  let best ← (List.range right.size).mapM (s.bestBefore? right sets choice c)
  let outputs ← filterMap? (fun (move?, after) =>
    match move? with
    | none => some none
    | some move => (s.fragment? after move).map fun w => some (after, w)) best.zipIdx
  return if outputs.isEmpty then none
    else some { symbol := c, target := best.map fun move => move.map (·.1), outputs := outputs }

/-- The moves of a choice on the given symbols. -/
def choiceMoves? (s : RealTimeStorage) (right : Dfa) (sets : List StateSet) (symbols : List Char)
    (choice : Choice) : Option (List ChoiceMove) :=
  filterMap? (s.choiceMove? right sets choice) symbols

/-- The least initial state in each class of suffixes. -/
def initialChoice? (s : RealTimeStorage) (sets : List StateSet) : Option Choice :=
  sets.mapM fun set => (filter? (set.contains? s.size) s.initial).map (·.head?)

/-- The reachable choices, each with its moves. -/
def choices? (s : RealTimeStorage) (right : Dfa) (sets : List StateSet) (symbols : List Char) :
    Option (List (Choice × List ChoiceMove)) := do
  let start ← s.initialChoice? sets
  explore? id (s.choiceMoves? right sets symbols) (fun moves => moves.map (·.target))
    ((s.size + 1) ^ sets.length) [start]

/-- The automaton of the choices. -/
def leftAutomaton? (found : List (Choice × List ChoiceMove)) : Option Dfa :=
  Dfa.ofExploration? id (fun _ => some true)
    (found.map fun (choice, moves) => (choice, moves.map fun move => (move.symbol, move.target)))

end RealTimeStorage

/-- Merges the right states that neither the table nor acceptance nor a move tells apart. -/
def Bimachine.mergeRight? (left right : Dfa) (table : OutputTable) : Option Bimachine := do
  let merged ← right.minimizeWithin? ClassTable.ascendingClasses (columnPartition right table)
  let entries ← filterMap? (fun ((l, c, r), w) =>
    (merged.2[r]?).map fun r'? => r'?.map fun r' => ((l, c, r'), w)) table
  return { left := left, right := merged.1, table := OutputTable.ofEntries entries }

/-- The bimachine of a real-time transducer over the given symbols. -/
def RealTimeStorage.toBimachine? (s : RealTimeStorage) (symbols : List Char) :
    Option Bimachine := do
  let classes ← s.suffixClasses? symbols
  let sets ← classes.mapM fun entry => s.completing? entry.1
  let right ← s.rightAutomaton? classes
  let found ← s.choices? right sets symbols
  let left ← leftAutomaton? found
  Bimachine.mergeRight? left right (RealTime.outputTable found)

/-- The bimachine of a transducer over an alphabet, unless a silent cycle writes. -/
def Storage.toBimachine? (s : Storage (Option Char × Word)) (alphabet : List Char) :
    Option (Except TransducerError Bimachine) :=
  andThen? s.toRealTime? fun r => (r.toBimachine? (ascending alphabet)).map .ok

/-- The transducer of the same function. -/
def Bimachine.toTransducer? (b : Bimachine) : Option (Storage (Option Char × Word)) := do
  let pairs ← Storage.explored? (·.1) id (fun pair => some (b.pairMoves pair))
    ((b.left.moveCount + 1) * b.right.size)
    (((List.range b.right.size).filter b.right.isAccepting).map fun r => (b.left.start, r))
    (fun pair => some (pair.2 == b.right.start))
  pairs.trim? (·.1)

/-! ### No class of suffixes is missed -/

namespace RealTimeStorage

variable {m : RealTime} {symbols : List Char} {suffix : Suffixes} {set into : StateSet}
  {choice : Choice} {sets : List StateSet} {right : Dfa} {q after : Nat} {c : Char} {w : Word}

@[simp] theorem size_ofRealTime : (ofRealTime m).size = m.size := Array.size_map

theorem retreat?_ofRealTime : (ofRealTime m).retreat? set c = some (m.retreat set c) := by
  have hsources : filter? (fun q => ((ofRealTime m).moves[q]?).map fun row =>
      row.any fun (d, _, t) => d == c && set.contains t) (List.range m.size) =
      some ((List.range m.size).filter fun q =>
        (m.moves q).any fun (d, _, t) => d == c && set.contains t) :=
    filter?_eq fun q hq => by rw [moves_ofRealTime (List.mem_range.mp hq), Option.map_some]
  rw [retreat?, size_ofRealTime, hsources, Option.bind_eq_bind, Option.bind_some]
  exact StateSet.ofList?_eq fun q hq => List.mem_range.mp (List.mem_of_mem_filter hq)

theorem finalStates?_ofRealTime : (ofRealTime m).finalStates? = some m.finalStates := by
  have hstates : filter? (fun q => ((ofRealTime m).finalOutputs[q]?).map fun outputs =>
      !outputs.isEmpty) (List.range m.size) =
      some ((List.range m.size).filter fun q => !(m.finalOutputs q).isEmpty) :=
    filter?_eq fun q hq => by rw [finalOutputs_ofRealTime (List.mem_range.mp hq), Option.map_some]
  rw [finalStates?, size_ofRealTime, hstates, Option.bind_eq_bind, Option.bind_some]
  exact StateSet.ofList?_eq fun q hq => List.mem_range.mp (List.mem_of_mem_filter hq)

theorem completing?_ofRealTime :
    (ofRealTime m).completing? suffix = some (m.completing suffix) := by
  cases suffix with
  | none => exact finalStates?_ofRealTime
  | some set => rfl

theorem longer?_ofRealTime : (ofRealTime m).longer? suffix c = some (m.longer suffix c) := by
  rw [longer?, completing?_ofRealTime, Option.bind_eq_bind, Option.bind_some, retreat?_ofRealTime]
  rfl

theorem suffixMoves?_ofRealTime :
    (ofRealTime m).suffixMoves? symbols suffix = some (m.suffixMoves symbols suffix) := by
  rw [RealTime.suffixMoves_eq]
  exact filterMap?_eq fun c _ => by rw [longer?_ofRealTime, Option.map_some]

theorem suffixClasses?_ofRealTime :
    (ofRealTime m).suffixClasses? symbols = some (m.suffixClasses symbols) := by
  rw [suffixClasses?, size_ofRealTime, RealTime.suffixClasses]
  refine explore?_eq (P := fun _ => True) (fun _ _ => trivial) fun suffix _ => ?_
  exact ⟨suffixMoves?_ofRealTime, fun _ _ => trivial⟩

theorem rightAutomaton?_ofRealTime (hsymbols : symbols.Pairwise (· < ·)) :
    (ofRealTime m).rightAutomaton? (m.suffixClasses symbols) = some (m.right symbols) := by
  have hinitial : StateSet.ofList? m.size (ofRealTime m).initial =
      some (StateSet.ofList m.initialStates) :=
    StateSet.ofList?_eq fun q hq => List.mem_range.mp (List.mem_of_mem_filter hq)
  rw [rightAutomaton?, size_ofRealTime, hinitial, Option.bind_eq_bind, Option.bind_some,
    RealTime.right, RealTime.rightAutomaton]
  refine Dfa.ofExploration?_eq ?_ (fun entry _ => ?_) fun entry hentry => ?_
  · exact numbered_explore (List.forall_mem_singleton.mpr RealTime.bounded_none)
      (fun _ _ _ _ => RealTime.bounded_of_mem_suffixMoves)
      (fun _ => RealTime.suffixKey_mem_suffixKeys) RealTime.length_suffixKeys.le
  · rw [completing?_ofRealTime, Option.map_some]
  · rw [RealTime.suffixClasses] at hentry
    rw [snd_of_mem_explore hentry, RealTime.suffixMoves_eq]
    exact pairwise_filterMap_symbols (fun _ => rfl) hsymbols

/-! ### No choice is missed -/

theorem bestMove?_ofRealTime (hm : m.Closed) (hq : q < m.size) :
    (ofRealTime m).bestMove? q c into = some (m.bestMove q c into) := by
  have hmoves := filterMap?_eq (l := m.moves q)
    (f := fun (d, w, t) => if d = c then (into.contains? m.size t).map fun inside =>
      if inside then some (t, w) else none else some none)
    (g := fun (d, w, t) => if d = c ∧ into.contains t then some (t, w) else none)
    fun (d, w, t) hmove => by
      by_cases hd : d = c
      · simp only [hd, if_pos, true_and, StateSet.contains?_eq (hm q d w t hmove), Option.map_some]
      · simp only [hd, if_neg, false_and, not_false_eq_true]
  rw [bestMove?, moves_ofRealTime hq, Option.bind_eq_bind, Option.bind_some, size_ofRealTime,
    hmoves]
  rfl

theorem fragment?_ofRealTime {move : Nat × Word} (h : move.1 < m.size) :
    (ofRealTime m).fragment? after move = some (m.fragment after move) := by
  rw [fragment?, RealTime.fragment, finalOutputs_ofRealTime h]
  split <;> rfl

/-- What a choice is asked for: one state or none in front of every right state. -/
structure Answers (m : RealTime) (right : Dfa) (sets : List StateSet) : Prop where
  wellFormed : right.WellFormed
  length_eq : sets.length = right.size

variable (hm : m.Closed) (hsets : Answers m right sets) (hchoice : m.Fits sets choice)

include hm hsets hchoice

theorem bestBefore?_ofRealTime {set : StateSet} (hset : sets[after]? = some set) :
    (ofRealTime m).bestBefore? right sets choice c after =
      some ((right.delta after c).bind fun before => ((choice[before]?).join).bind fun q =>
        m.bestMove q c set) := by
  rw [bestBefore?]
  cases hdelta : right.delta after c with
  | none => rfl
  | some before =>
    have hlt : before < choice.length := by
      rw [hchoice.1, hsets.length_eq]
      exact hsets.wellFormed.delta_lt hdelta
    have hbefore : choice[before]? = some choice[before] := List.getElem?_eq_getElem hlt
    simp only [hbefore, Option.bind_eq_bind, Option.bind_some, Option.join_some]
    cases hq : choice[before] with
    | none => rfl
    | some q =>
      have hq : q < m.size := hchoice.2 _ (List.getElem_mem hlt) q hq
      simp only [hset, Option.bind_some, bestMove?_ofRealTime hm hq]

theorem choiceMove?_ofRealTime : (ofRealTime m).choiceMove? right sets choice c =
    some (m.choiceMove right sets choice c) := by
  -- There is a set for each right state, so no best move is missed,
  have hbest : (List.range right.size).mapM ((ofRealTime m).bestBefore? right sets choice c) =
      some (m.bestMoves right sets choice c) := by
    have hlength : (m.bestMoves right sets choice c).length = right.size := by
      simp [RealTime.bestMoves, hsets.length_eq]
    rw [← hlength]
    refine mapM_range_eq_some fun after best hbest => ?_
    rw [RealTime.getElem?_bestMoves] at hbest
    obtain ⟨set, hset, rfl⟩ := Option.map_eq_some_iff.mp hbest
    exact bestBefore?_ofRealTime hm hsets hchoice hset
  -- and a best move leads to a state, so its fragment is not missed either.
  have houtputs := filterMap?_eq (l := (m.bestMoves right sets choice c).zipIdx)
    (f := fun (move?, after) => match move? with
      | none => some none
      | some move => ((ofRealTime m).fragment? after move).map fun w => some (after, w))
    (g := fun (move, after) => move.map fun move => (after, m.fragment after move))
    fun entry hmem => by
      obtain ⟨move?, after⟩ := entry
      cases move? with
      | none => rfl
      | some move =>
        have hmove := RealTime.lt_size_of_mem_bestMoves hm (List.fst_mem_of_mem_zipIdx hmem)
        simp only [fragment?_ofRealTime hmove, Option.map_some]
  rw [choiceMove?, hbest, Option.bind_eq_bind, Option.bind_some, houtputs]
  rfl

theorem choiceMoves?_ofRealTime : (ofRealTime m).choiceMoves? right sets symbols choice =
    some (m.choiceMoves right sets symbols choice) := by
  rw [RealTime.choiceMoves_eq]
  exact filterMap?_eq fun c _ => choiceMove?_ofRealTime hm hsets hchoice

omit hm hsets hchoice

theorem initialChoice?_ofRealTime :
    (ofRealTime m).initialChoice? sets = some (m.initialChoice sets) := by
  refine mapM_eq_some_map fun set _ => ?_
  have hinitial : filter? (set.contains? m.size) m.initialStates =
      some (m.initialStates.filter set.contains) := filter?_eq fun q hq =>
    StateSet.contains?_eq (List.mem_range.mp (List.mem_of_mem_filter hq))
  rw [size_ofRealTime]
  show (filter? (set.contains? m.size) m.initialStates).map _ = _
  rw [hinitial, Option.map_some, List.head?_filter]

theorem choices?_ofRealTime (hm : m.Closed) (hsets : Answers m right sets) :
    (ofRealTime m).choices? right sets symbols = some (m.choices right sets symbols) := by
  rw [choices?, size_ofRealTime, initialChoice?_ofRealTime, Option.bind_eq_bind, Option.bind_some]
  refine explore?_eq (P := m.Fits sets) (List.forall_mem_singleton.mpr RealTime.fits_initialChoice)
    fun choice hchoice => ⟨choiceMoves?_ofRealTime hm hsets hchoice, fun target htarget => ?_⟩
  obtain ⟨move, hmove, rfl⟩ := List.mem_map.mp htarget
  exact RealTime.fits_target hm (List.mem_map.mpr ⟨move, hmove, rfl⟩)

theorem leftAutomaton?_eq (hm : m.Closed) (hsymbols : symbols.Pairwise (· < ·)) :
    leftAutomaton? (m.choices right sets symbols) =
      some (RealTime.leftAutomaton (m.choices right sets symbols)) := by
  rw [leftAutomaton?, RealTime.leftAutomaton, RealTime.map_choices]
  refine Dfa.ofExploration?_eq ?_ (fun _ _ => rfl) fun entry hentry => ?_
  · exact numbered_explore (List.forall_mem_singleton.mpr RealTime.fits_initialChoice)
      (fun _ _ _ _ => RealTime.fits_target hm) (fun _ => RealTime.mem_choicesAmong_of_fits)
      RealTime.length_choicesAmong_le
  · rw [Dfa.foundFrom] at hentry
    rw [snd_of_mem_explore hentry, RealTime.successors_eq]
    exact pairwise_filterMap_symbols (fun _ => RealTime.map_choiceMove) hsymbols

/-! ### No right state is missed -/

omit hm in
theorem length_completingSets : (m.completingSets symbols).length = (m.right symbols).size := by
  rw [RealTime.right, RealTime.rightAutomaton, Dfa.size_ofExploration, RealTime.completingSets,
    List.length_map]

/-- The table names right states that exist. -/
theorem lt_size_of_mem_table {entry : (Nat × Char × Nat) × Word}
    (h : entry ∈ (Bimachine.unmerged m symbols).table) : entry.1.2.2 < (m.right symbols).size := by
  obtain ⟨⟨l, c, r⟩, w⟩ := entry
  rw [← Bimachine.functional_unmerged.output?_eq_some_iff, RealTime.table_unmerged,
    RealTime.output?_outputTable] at h
  obtain ⟨choice, moves, _, _, best, hbest, _⟩ := h
  have hlt : r < (m.completingSets symbols).length := by
    simpa [RealTime.bestMoves] using (List.getElem?_eq_some_iff.mp hbest).1
  exact hlt.trans_eq length_completingSets

end RealTimeStorage

/-- Right states that the table names are merged without a failure. -/
theorem Bimachine.mergeRight?_eq {left right : Dfa} {table : OutputTable}
    (hright : right.WellFormed) (htable : ∀ entry ∈ table, entry.1.2.2 < right.size) :
    mergeRight? left right table = some (mergeRight left right table) := by
  have hvisits (t : ClassTable) (ht : t.Valid) : t.Visits t.ascendingClasses :=
    ht.visits_ascendingClasses
  have hpartition : (columnPartition right table).length = right.size := length_columnPartition
  have hmerged := Dfa.minimizeWithin?_eq hvisits hright hpartition classNumbers_gaps
  have hlength : (mergedStates right table).length = right.size := by
    simp [mergedStates, Dfa.minimizeWithin, Dfa.quotient]
  have hentries := filterMap?_eq (l := table)
    (f := fun ((l, c, r), w) => ((mergedStates right table)[r]?).map fun r'? =>
      r'?.map fun r' => ((l, c, r'), w))
    (g := fun ((l, c, r), w) =>
      (((mergedStates right table)[r]?).join).map fun r' => ((l, c, r'), w))
    fun entry hentry => by
      obtain ⟨⟨l, c, r⟩, w⟩ := entry
      have hr : r < (mergedStates right table).length := hlength ▸ htable _ hentry
      simp only [List.getElem?_eq_getElem hr, Option.map_some, Option.join_some]
  rw [mergeRight?, hmerged, Option.bind_eq_bind, Option.bind_some]
  exact Option.bind_eq_some_iff.mpr ⟨_, hentries, rfl⟩

/-- A compilation fails nowhere. -/
theorem RealTimeStorage.toBimachine?_eq {m : RealTime} {symbols : List Char} (hm : m.Closed)
    (hsymbols : symbols.Pairwise (· < ·)) :
    (ofRealTime m).toBimachine? symbols = some (Bimachine.ofRealTime m symbols) := by
  have hright := RealTime.wellFormed_right (m := m) hsymbols
  have hsets : (m.suffixClasses symbols).mapM (fun entry => (ofRealTime m).completing? entry.1) =
      some (m.completingSets symbols) := mapM_eq_some_map fun _ _ => completing?_ofRealTime
  have hanswers : Answers m (m.right symbols) (m.completingSets symbols) :=
    ⟨hright, length_completingSets⟩
  have hmerged := @Bimachine.mergeRight?_eq (Bimachine.unmerged m symbols).left _ _ hright
    fun _ => lt_size_of_mem_table
  rw [RealTime.table_unmerged] at hmerged
  simp only [toBimachine?, suffixClasses?_ofRealTime, hsets, rightAutomaton?_ofRealTime hsymbols,
    choices?_ofRealTime hm hanswers, leftAutomaton?_eq hm hsymbols, Option.bind_eq_bind,
    Option.bind_some]
  exact hmerged

/-- A compilation fails nowhere, and it refuses what it refuses without containers. -/
theorem Storage.toBimachine?_eq {m : Transducer} {K : Keeping (Option Char × Word)}
    {alphabet : List Char} (hm : m.Closed) (hascending : m.Ascending) :
    (ofMachine K m).toBimachine? alphabet = some (m.toBimachine alphabet) := by
  rw [toBimachine?, toRealTime?_eq hm hascending, Transducer.toBimachine]
  cases h : m.toRealTime with
  | error e => rfl
  | ok r =>
    show ((RealTimeStorage.ofRealTime r).toBimachine? (ascending alphabet)).map _ = _
    rw [RealTimeStorage.toBimachine?_eq (Transducer.closed_of_toRealTime hm h)
      (ascending_symbols_pairwise alphabet)]
    rfl

/-- The search for the pairs of states fails nowhere. -/
theorem Bimachine.toTransducer?_eq {b : Bimachine} :
    b.toTransducer? = some (.ofMachine (.ordered (·.1)) b.toTransducer) := by
  refine Option.bind_eq_some_iff.mpr ⟨.ofMachine (.ordered (·.1)) b.unfolded, ?_,
    Storage.trim?_eq closed_unfolded Machine.ascending_explored⟩
  refine Storage.explored?_eq (P := (· ∈ b.pairs)) (fun _ => mem_pairs_of_root)
    (fun pair _ => ⟨rfl, fun _ _ => mem_pairs_of_move⟩) (fun _ _ => rfl) (fun pair _ => ?_)
    (fun _ hpair => hpair) length_pairs.le
  -- the roots pair the start of the left automaton with the accepting right states
  obtain ⟨l, r⟩ := pair
  simp only [Bool.and_eq_true, beq_iff_eq, decide_eq_true_eq, List.mem_map, List.mem_filter,
    List.mem_range, id_eq]
  constructor
  · rintro ⟨⟨rfl, haccepting⟩, hr⟩
    exact ⟨_, ⟨r, ⟨hr, haccepting⟩, rfl⟩, rfl⟩
  · rintro ⟨_, ⟨r', ⟨hr, haccepting⟩, rfl⟩, h⟩
    cases h
    exact ⟨⟨rfl, haccepting⟩, hr⟩

end Transduction
