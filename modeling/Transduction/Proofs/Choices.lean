/-
Bimachines of real-time transducers.

A left state is a choice, which names for each class of suffixes a transducer state
that the prefix read so far leads to.  Where the state chosen for the class of the
remaining suffix completes that suffix, so does the next one, and the outputs met
on the way are those of one run:

* `RealTime.emit_unmerged` — the outputs along a suffix are those of a completion
  from the chosen state;
* `Bimachine.process_ofRealTime`, `Bimachine.process_ofRealTime_nil` — the bimachine
  gives an output of the transducer wherever there is one.

The output of the last symbol includes the final output, so the invariant says
nothing about the output of the empty suffix.
-/
import Transduction.Proofs.Scans
import Transduction.Proofs.Suffixes

namespace Transduction

/-- Replacing what a visit has found changes nothing about the search. -/
theorem map_exploreLayers {κ σ τ ι : Type} [Ord ι] {key : κ → ι} {visit : κ → σ}
    {targets : σ → List κ} {targets' : τ → List κ} {f : σ → τ}
    (h : ∀ s, targets' (f s) = targets s) {rounds : Nat} {seen : Std.TreeSet ι} {layer : List κ} :
    (exploreLayers key visit targets rounds seen layer).map (fun entry => (entry.1, f entry.2)) =
      exploreLayers key (fun k => f (visit k)) targets' rounds seen layer := by
  induction rounds generalizing seen layer with
  | zero => rfl
  | succ rounds ih =>
    cases layer with
    | nil => rfl
    | cons k layer =>
      simp only [exploreLayers, List.map_append, List.map_map, ih, List.flatMap_map, h]
      rfl

namespace RealTime

variable {m : RealTime} {right : Dfa} {sets : List StateSet} {symbols : List Char}
  {choice : Choice} {into : StateSet} {k : Suffixes} {q t l r : Nat} {c : Char} {v w y : Word}

/-- Every move leads to a state. -/
def Closed (m : RealTime) : Prop := ∀ q c v t, (c, v, t) ∈ m.moves q → t < m.size

/-! ### The best move -/

theorem of_bestMove (h : m.bestMove q c into = some (t, v)) :
    (c, v, t) ∈ m.moves q ∧ t ∈ into := by
  have hmem := List.mem_of_mem_head? h
  rw [mem_ascending] at hmem
  obtain ⟨⟨d, w, u⟩, hmove, he⟩ := List.mem_filterMap.mp hmem
  simp only at he
  split at he
  · rename_i hd
    cases he
    exact ⟨hd.1 ▸ hmove, hd.2⟩
  · cases he

theorem exists_bestMove (hmem : (c, v, t) ∈ m.moves q) (ht : t ∈ into) :
    ∃ u w, m.bestMove q c into = some (u, w) := by
  have hlisted : (t, v) ∈ ascending ((m.moves q).filterMap fun move =>
      if move.1 = c ∧ into.contains move.2.2 then some (move.2.2, move.2.1) else none) :=
    mem_ascending.mpr (List.mem_filterMap.mpr ⟨_, hmem, if_pos ⟨rfl, ht⟩⟩)
  cases hbest : m.bestMove q c into with
  | none =>
    rw [bestMove, List.head?_eq_none_iff] at hbest
    rw [hbest] at hlisted
    cases hlisted
  | some move => exact ⟨move.1, move.2, rfl⟩

/-! ### Moves of a choice -/

/-- The best move in front of each right state, from the state that is chosen one
symbol before. -/
def bestMoves (m : RealTime) (right : Dfa) (sets : List StateSet) (choice : Choice) (c : Char) :
    List (Option (Nat × Word)) :=
  sets.zipIdx.map fun (s, after) => do
    let before ← right.delta after c
    let q ← (choice[before]?).join
    m.bestMove q c s

theorem getElem?_bestMoves : (m.bestMoves right sets choice c)[r]? = (sets[r]?).map fun s =>
    (right.delta r c).bind fun before => ((choice[before]?).join).bind fun q =>
      m.bestMove q c s := by
  rw [bestMoves, List.getElem?_map, List.getElem?_zipIdx, Option.map_map, Nat.zero_add]
  rfl

theorem lt_size_of_mem_bestMoves (hm : m.Closed) {move : Nat × Word}
    (h : some move ∈ m.bestMoves right sets choice c) : move.1 < m.size := by
  obtain ⟨r, hr⟩ := List.getElem?_of_mem h
  rw [getElem?_bestMoves, Option.map_eq_some_iff] at hr
  obtain ⟨s, _, hr⟩ := hr
  obtain ⟨before, _, hr⟩ := Option.bind_eq_some_iff.mp hr
  obtain ⟨p, _, hr⟩ := Option.bind_eq_some_iff.mp hr
  exact hm p c move.2 move.1 (of_bestMove hr).1

/-- The move of a choice on a symbol, if some right state stays possible. -/
def choiceMove (m : RealTime) (right : Dfa) (sets : List StateSet) (choice : Choice) (c : Char) :
    Option ChoiceMove :=
  let best := m.bestMoves right sets choice c
  let outputs := best.zipIdx.filterMap fun (move, after) =>
    move.map fun move => (after, m.fragment after move)
  if outputs.isEmpty then none
  else some { symbol := c, target := best.map fun move => move.map (·.1), outputs := outputs }

theorem choiceMoves_eq :
    m.choiceMoves right sets symbols choice =
      symbols.filterMap (m.choiceMove right sets choice) := rfl

theorem mem_outputs_iff : (r, w) ∈ ((m.bestMoves right sets choice c).zipIdx.filterMap
      fun (move, after) => move.map fun move => (after, m.fragment after move)) ↔
    ∃ move, (m.bestMoves right sets choice c)[r]? = some (some move) ∧
      w = m.fragment r move := by
  rw [List.mem_filterMap]
  constructor
  · rintro ⟨⟨best, after⟩, hmem, h⟩
    obtain ⟨move, rfl, h⟩ := Option.map_eq_some_iff.mp h
    cases h
    exact ⟨move, List.mk_mem_zipIdx_iff_getElem?.mp hmem, rfl⟩
  · rintro ⟨move, hmove, rfl⟩
    exact ⟨(some move, r), List.mk_mem_zipIdx_iff_getElem?.mpr hmove, rfl⟩

/-- What the move of a choice consists of. -/
theorem of_choiceMove {move : ChoiceMove} (h : m.choiceMove right sets choice c = some move) :
    move.symbol = c ∧
    move.target = (m.bestMoves right sets choice c).map (fun best => best.map (·.1)) ∧
    ∀ r w, (r, w) ∈ move.outputs ↔
      ∃ best, (m.bestMoves right sets choice c)[r]? = some (some best) ∧
      w = m.fragment r best := by
  rw [choiceMove] at h
  simp only at h
  split at h
  · cases h
  · cases h
    exact ⟨rfl, rfl, fun r w => mem_outputs_iff⟩

theorem exists_choiceMove {best : Nat × Word}
    (h : (m.bestMoves right sets choice c)[r]? = some (some best)) :
    ∃ move, m.choiceMove right sets choice c = some move := by
  have hmem := mem_outputs_iff.mpr ⟨best, h, rfl⟩
  rw [choiceMove]
  simp only
  rw [if_neg fun hempty => by rw [List.isEmpty_iff.mp hempty] at hmem; cases hmem]
  exact ⟨_, rfl⟩

/-- A choice moves only where some right state stays possible. -/
theorem exists_bestMoves_of_choiceMove {move : ChoiceMove}
    (h : m.choiceMove right sets choice c = some move) :
    ∃ (r : Nat) (best : Nat × Word),
      (m.bestMoves right sets choice c)[r]? = some (some best) := by
  rw [choiceMove] at h
  simp only at h
  split at h
  · cases h
  · rename_i hempty
    obtain ⟨⟨r, w⟩, hmem⟩ := List.exists_mem_of_ne_nil _ (mt List.isEmpty_iff.mpr hempty)
    obtain ⟨best, hbest, _⟩ := mem_outputs_iff.mp hmem
    exact ⟨r, best, hbest⟩

/-! ### The left automaton and the table -/

/-- All choices of so many states among the given ones. -/
def choicesAmong (options : List (Option Nat)) : Nat → List Choice
  | 0 => [[]]
  | n + 1 => options.flatMap fun o => (choicesAmong options n).map fun choice => o :: choice

theorem length_choicesAmong {options : List (Option Nat)} {n : Nat} :
    (choicesAmong options n).length = options.length ^ n := by
  induction n with
  | zero => rfl
  | succ n ih =>
    simp only [choicesAmong, List.length_flatMap, List.length_map, ih, List.map_const',
      List.sum_replicate_nat]
    rw [Nat.pow_succ, Nat.mul_comm]

theorem mem_choicesAmong {options : List (Option Nat)} (h : ∀ o ∈ choice, o ∈ options) :
    choice ∈ choicesAmong options choice.length := by
  induction choice with
  | nil => exact List.mem_singleton.mpr rfl
  | cons o choice ih =>
    rw [List.forall_mem_cons] at h
    exact List.mem_flatMap.mpr ⟨o, h.1, List.mem_map.mpr ⟨choice, ih h.2, rfl⟩⟩

/-- A choice of states of the transducer, one for each right state. -/
def Fits (m : RealTime) (sets : List StateSet) (choice : Choice) : Prop :=
  choice.length = sets.length ∧ ∀ o ∈ choice, ∀ q, o = some q → q < m.size

/-- The choices that a choice leads to, by symbol. -/
def successors (m : RealTime) (right : Dfa) (sets : List StateSet) (symbols : List Char)
    (choice : Choice) : List (Char × Choice) :=
  (m.choiceMoves right sets symbols choice).map fun move => (move.symbol, move.target)

theorem successors_eq : m.successors right sets symbols choice = symbols.filterMap fun c =>
    (m.choiceMove right sets choice c).map fun move => (move.symbol, move.target) := by
  rw [successors, choiceMoves_eq, List.map_filterMap]

/-- The moves of a choice are listed symbol by symbol. -/
theorem map_choiceMove : ((m.choiceMove right sets choice c).map fun move =>
      (move.symbol, move.target)) =
    ((m.choiceMove right sets choice c).map (·.target)).map fun t => (c, t) := by
  cases h : m.choiceMove right sets choice c with
  | none => rfl
  | some move => simp [(of_choiceMove h).1]

theorem lookup_successors (hc : c ∈ symbols) :
    (m.successors right sets symbols choice).lookup c =
      (m.choiceMove right sets choice c).map (·.target) := by
  rw [successors_eq, lookup_filterMap_symbols fun _ => map_choiceMove, if_pos hc]

theorem map_choices : ((m.choices right sets symbols).map fun (choice, moves) =>
      (choice, moves.map fun move => (move.symbol, move.target))) =
    Dfa.foundFrom id (m.successors right sets symbols) ((m.size + 1) ^ sets.length)
      (m.initialChoice sets) := by
  have targets_eq (moves : List ChoiceMove) :
      (moves.map fun move => (move.symbol, move.target)).map (·.2) = moves.map (·.target) := by
    rw [List.map_map]
    rfl
  exact map_exploreLayers targets_eq

/-- The left state stands for a choice. -/
theorem standsFor_choice_iff : Dfa.StandsFor id (Dfa.foundFrom id (m.successors right sets symbols)
      ((m.size + 1) ^ sets.length) (m.initialChoice sets)) l choice ↔
    (m.choices right sets symbols)[l]? =
      some (choice, m.choiceMoves right sets symbols choice) := by
  rw [Dfa.StandsFor, ← map_choices]
  simp only [List.getElem?_map, Option.map_eq_some_iff, id_eq]
  constructor
  · rintro ⟨_, ⟨⟨choice', moves⟩, hentry, rfl⟩, rfl⟩
    rw [hentry, show moves = m.choiceMoves right sets symbols choice' from
      snd_of_mem_explore (List.mem_of_getElem? hentry)]
  · exact fun h => ⟨_, ⟨_, h, rfl⟩, rfl⟩

theorem fits_initialChoice : m.Fits sets (m.initialChoice sets) := by
  refine ⟨by simp [initialChoice], fun o ho q hq => ?_⟩
  obtain ⟨s, _, rfl⟩ := List.mem_map.mp ho
  exact List.mem_range.mp (List.mem_of_mem_filter (List.mem_of_find?_eq_some hq))

theorem fits_target (hm : m.Closed) {target : Choice}
    (h : (c, target) ∈ m.successors right sets symbols choice) : m.Fits sets target := by
  rw [successors_eq, mem_filterMap_symbols fun _ => map_choiceMove] at h
  obtain ⟨move, hmove, rfl⟩ := Option.map_eq_some_iff.mp h.2
  rw [(of_choiceMove hmove).2.1]
  refine ⟨by simp [bestMoves], fun o ho q hq => ?_⟩
  obtain ⟨best, hbest, rfl⟩ := List.mem_map.mp ho
  obtain ⟨move, rfl, rfl⟩ := Option.map_eq_some_iff.mp hq
  exact lt_size_of_mem_bestMoves hm hbest

/-- The choices that fit are among those of a state, or none, for each right state. -/
theorem mem_choicesAmong_of_fits (h : m.Fits sets choice) :
    choice ∈ choicesAmong (none :: (List.range m.size).map some) sets.length := by
  obtain ⟨hlength, hlt⟩ := h
  rw [← hlength]
  refine mem_choicesAmong fun o ho => ?_
  cases o with
  | none => exact List.mem_cons_self
  | some q =>
    exact List.mem_cons_of_mem _
      (List.mem_map.mpr ⟨q, List.mem_range.mpr (hlt _ ho q rfl), rfl⟩)

theorem length_choicesAmong_le : (choicesAmong (none :: (List.range m.size).map some)
    sets.length).length ≤ (m.size + 1) ^ sets.length := by
  rw [length_choicesAmong]
  simp

/-- A left state moves as the choice that it stands for. -/
theorem delta_leftAutomaton (hm : m.Closed) (hc : c ∈ symbols) (hfits : m.Fits sets choice)
    (h : Dfa.StandsFor id (Dfa.foundFrom id (m.successors right sets symbols)
      ((m.size + 1) ^ sets.length) (m.initialChoice sets)) l choice) :
    Option.Rel (Dfa.StandsFor id (Dfa.foundFrom id (m.successors right sets symbols)
        ((m.size + 1) ^ sets.length) (m.initialChoice sets)))
      ((leftAutomaton (m.choices right sets symbols)).delta l c)
      ((m.choiceMove right sets choice c).map (·.target)) := by
  have hlookup : (m.successors right sets symbols choice).lookup c =
      (m.choiceMove right sets choice c).map (·.target) := lookup_successors hc
  rw [← hlookup, leftAutomaton, map_choices]
  exact Dfa.delta_ofExploration_of_injective _ Function.injective_id fits_initialChoice
    (fun _ _ _ _ h => fits_target hm h) (fun _ => mem_choicesAmong_of_fits) length_choicesAmong_le
    hfits h

theorem wellFormed_leftAutomaton (hsymbols : symbols.Pairwise (· < ·)) :
    (leftAutomaton (m.choices right sets symbols)).WellFormed := by
  rw [leftAutomaton, map_choices]
  refine Dfa.wellFormed_ofExploration (Nat.pow_pos (Nat.succ_pos _)) fun choice => ?_
  rw [successors_eq]
  exact pairwise_filterMap_symbols (fun _ => map_choiceMove) hsymbols

/-- The table holds the outputs of the best moves. -/
theorem mem_outputTable_entries : ((l, c, r), w) ∈
      ((m.choices right sets symbols).zipIdx.flatMap fun ((_, moves), left) =>
        moves.flatMap fun move => move.outputs.map fun (right, w) =>
          ((left, move.symbol, right), w)) ↔
    ∃ choice moves, (m.choices right sets symbols)[l]? = some (choice, moves) ∧ c ∈ symbols ∧
      ∃ best, (m.bestMoves right sets choice c)[r]? = some (some best) ∧
        w = m.fragment r best := by
  -- The moves listed with a choice are those it has.
  have moves_eq {choice : Choice} {moves : List ChoiceMove}
      (h : (m.choices right sets symbols)[l]? = some (choice, moves)) :
      moves = m.choiceMoves right sets symbols choice :=
    snd_of_mem_explore (List.mem_of_getElem? h)
  simp only [List.mem_flatMap, List.mem_map]
  constructor
  -- An entry comes from a choice move, which knows its symbol and its best moves.
  · rintro ⟨⟨⟨choice, moves⟩, left⟩, hmem, move, hmove, ⟨right', w'⟩, hout, he⟩
    cases he
    have hl := List.mk_mem_zipIdx_iff_getElem?.mp hmem
    rw [moves_eq hl, choiceMoves_eq, List.mem_filterMap] at hmove
    obtain ⟨c, hc, hmove⟩ := hmove
    obtain ⟨hsymbol, _, houts⟩ := of_choiceMove hmove
    rw [hsymbol]
    exact ⟨choice, moves, hl, hc, (houts _ _).mp hout⟩
  · rintro ⟨choice, moves, hl, hc, best, hbest, rfl⟩
    obtain ⟨move, hmove⟩ := exists_choiceMove hbest
    obtain ⟨hsymbol, _, houts⟩ := of_choiceMove hmove
    refine ⟨((choice, moves), l), List.mk_mem_zipIdx_iff_getElem?.mpr hl, move, ?_,
      (r, m.fragment r best), (houts _ _).mpr ⟨best, hbest, rfl⟩, by rw [hsymbol]⟩
    rw [moves_eq hl, choiceMoves_eq]
    exact List.mem_filterMap.mpr ⟨c, hc, hmove⟩

theorem output?_outputTable : (outputTable (m.choices right sets symbols)).output? l c r = some w ↔
    ∃ choice moves, (m.choices right sets symbols)[l]? = some (choice, moves) ∧ c ∈ symbols ∧
      ∃ best, (m.bestMoves right sets choice c)[r]? = some (some best) ∧
        w = m.fragment r best := by
  rw [outputTable, OutputTable.output?_ofEntries, mem_outputTable_entries]
  rintro ⟨l, c, r⟩ w w' h h'
  obtain ⟨choice, moves, hl, _, best, hbest, rfl⟩ := mem_outputTable_entries.mp h
  obtain ⟨choice', moves', hl', _, best', hbest', rfl⟩ := mem_outputTable_entries.mp h'
  cases hl.symm.trans hl'
  cases hbest.symm.trans hbest'
  rfl

/-! ### Outputs along a word -/

/-- The sets of states that complete the suffixes of each class. -/
def completingSets (m : RealTime) (symbols : List Char) : List StateSet :=
  (m.suffixClasses symbols).map fun entry => m.completing entry.1

/-- The left state stands for a choice. -/
abbrev IsChoice (m : RealTime) (symbols : List Char) (l : Nat) (choice : Choice) : Prop :=
  Dfa.StandsFor id (Dfa.foundFrom id
    (m.successors (m.right symbols) (m.completingSets symbols) symbols)
    ((m.size + 1) ^ (m.completingSets symbols).length)
    (m.initialChoice (m.completingSets symbols))) l choice

theorem table_unmerged : (Bimachine.unmerged m symbols).table =
    outputTable (m.choices (m.right symbols) (m.completingSets symbols) symbols) := by
  simp only [Bimachine.unmerged, right, completingSets]

theorem getElem?_completingSets (h : m.IsClass symbols r k) :
    (m.completingSets symbols)[r]? = some (m.completing k) := by
  rw [completingSets, List.getElem?_map, isClass_iff.mp h]
  rfl

theorem exists_behind (h : m.classOf symbols w = some k) :
    ∃ r, (Bimachine.unmerged m symbols).behind w = some r ∧ m.IsClass symbols r k := by
  have hrel := m.follow_right symbols w
  rw [h] at hrel
  exact rel_some_right hrel

/-- A right state of the class of a suffix is the one in front of it. -/
theorem behind_eq (hw : m.classOf symbols w = some k) (hr : m.IsClass symbols r k) :
    (Bimachine.unmerged m symbols).behind w = some r := by
  obtain ⟨r', hbehind, hr'⟩ := exists_behind hw
  rw [hbehind, hr'.unique hr]

/-- The least final output is one. -/
theorem fragment_zero_completes (hmem : (c, v, t) ∈ m.moves q) (ht : t ∈ m.finalStates) :
    m.Completes q [c] (m.fragment 0 (t, v)) := by
  rw [fragment, if_pos rfl]
  cases hfinal : m.finalOutputs t with
  | nil =>
    obtain ⟨f, hf⟩ := mem_finalStates.mp ht
    rw [hfinal] at hf
    cases hf
  | cons f fs => exact .cons hmem (.nil (by simp [hfinal]))

/-- The outputs along a suffix are those of a completion from the state that is chosen
for its class. -/
theorem emit_unmerged (hm : m.Closed) (hw : m.classOf symbols w = some k)
    (hr : m.IsClass symbols r k) (hfits : m.Fits (m.completingSets symbols) choice)
    (hl : m.IsChoice symbols l choice) (hq : choice[r]? = some (some q))
    (hmem : q ∈ m.completing k) :
    ∃ o, (Bimachine.unmerged m symbols).emit l w = some o ∧ (w = [] → o = []) ∧
      (w ≠ [] → m.Completes q w o) := by
  induction w generalizing k r choice l q with
  | nil => exact ⟨[], rfl, fun _ => rfl, fun h => absurd rfl h⟩
  | cons c w ih =>
    have hcons := hw
    rw [classOf_cons, Option.bind_eq_some_iff] at hcons
    obtain ⟨k', hw', hcons⟩ := hcons
    obtain ⟨hc, _, rfl⟩ := lengthen_eq_some.mp hcons
    -- the right state behind the symbol moves to the one in front of it
    obtain ⟨r', hbehind, hr'⟩ := exists_behind hw'
    have hdelta : (m.right symbols).delta r' c = some r := by
      have hfollow := behind_eq hw hr
      rw [Bimachine.behind_cons, hbehind, Option.bind_some] at hfollow
      exact hfollow
    -- so the chosen state has a move into the states that complete the rest
    obtain ⟨v₀, t₀, hmove₀, ht₀⟩ := mem_retreat.mp hmem
    obtain ⟨t, v, hbest⟩ := exists_bestMove hmove₀ ht₀
    obtain ⟨hmove, ht⟩ := of_bestMove hbest
    have hat : (m.bestMoves (m.right symbols) (m.completingSets symbols) choice c)[r']? =
        some (some (t, v)) := by
      rw [getElem?_bestMoves, getElem?_completingSets hr', Option.map_some, hdelta,
        Option.bind_some, hq, Option.join_some, Option.bind_some, hbest]
    obtain ⟨move, hchoice⟩ := exists_choiceMove hat
    obtain ⟨_, htarget, _⟩ := of_choiceMove hchoice
    have hleft := delta_leftAutomaton hm hc hfits hl
    rw [hchoice] at hleft
    obtain ⟨l', hl', hstands⟩ := rel_some_right hleft
    have hfits' : m.Fits (m.completingSets symbols) move.target := by
      have : (c, move.target) ∈
          m.successors (m.right symbols) (m.completingSets symbols) symbols choice := by
        rw [successors_eq, mem_filterMap_symbols fun _ => map_choiceMove, hchoice]
        exact ⟨hc, rfl⟩
      exact fits_target hm this
    have hnext : move.target[r']? = some (some t) := by
      rw [htarget, List.getElem?_map, hat]
      rfl
    obtain ⟨o, ho, hnil, hcompletes⟩ := ih hw' hr' hfits' hstands hnext ht
    have hout : (Bimachine.unmerged m symbols).table.output? l c r' =
        some (m.fragment r' (t, v)) := by
      rw [table_unmerged]
      exact output?_outputTable.mpr ⟨choice, _, standsFor_choice_iff.mp hl, hc, _, hat, rfl⟩
    refine ⟨_, Bimachine.emit_cons_eq_some.mpr ⟨r', l', _, o, hbehind, hl', hout, ho, rfl⟩,
      fun h => absurd h (List.cons_ne_nil c w), fun _ => ?_⟩
    by_cases hlast : w = []
    · -- behind the last symbol the run ends, and the output includes the final one
      obtain rfl := (classOf_eq_none_class_iff hw').mpr hlast
      obtain rfl : r' = 0 := hr'.unique isClass_zero
      subst hlast
      rw [hnil rfl, List.append_nil]
      exact fragment_zero_completes hmove ht
    · have hne : r' ≠ 0 := by
        rintro rfl
        exact hlast ((classOf_eq_none_class_iff hw').mp (isClass_zero_iff.mp hr'))
      rw [fragment, if_neg hne]
      exact .cons hmove (hcompletes hlast)

end RealTime

namespace Bimachine

variable {m : RealTime} {symbols : List Char} {w o y : Word}

theorem functional_unmerged : OutputTable.Functional (unmerged m symbols).table := by
  rw [RealTime.table_unmerged, RealTime.outputTable]
  exact OutputTable.functional_ofEntries

/-- The right automaton accepts the words over the symbols that have an output. -/
theorem accepts_behind_iff : (∃ r, (unmerged m symbols).behind w = some r ∧
      (unmerged m symbols).right.isAccepting r = true) ↔
    (∀ c ∈ w, c ∈ symbols) ∧ ∃ y, m.Relates w y := by
  constructor
  · rintro ⟨r, hr, hacc⟩
    have hrel := m.follow_right symbols w
    rw [show follow (m.right symbols).delta (m.right symbols).start w.reverse = some r from hr]
      at hrel
    obtain ⟨k, hk, hclass⟩ := rel_some_left hrel
    obtain ⟨q, hinit, hq⟩ := (RealTime.isAccepting_right hclass).mp hacc
    obtain ⟨y, hy⟩ := (RealTime.mem_completing_iff hk).mp hq
    exact ⟨RealTime.mem_symbols_of_classOf hk, y, q, hinit, hy⟩
  · rintro ⟨hw, y, q, hinit, hy⟩
    obtain ⟨k, hk⟩ := RealTime.exists_classOf hw hy
    obtain ⟨r, hr, hclass⟩ := RealTime.exists_behind hk
    exact ⟨r, hr, (RealTime.isAccepting_right hclass).mpr
      ⟨q, hinit, (RealTime.mem_completing_iff hk).mpr ⟨y, hy⟩⟩⟩

theorem exists_process_unmerged (hm : m.Closed) (hne : w ≠ []) (hw : ∀ c ∈ w, c ∈ symbols)
    (h : m.Relates w y) : ∃ o, (unmerged m symbols).process w = .ok o ∧ m.Relates w o := by
  obtain ⟨q₀, hinit₀, hy⟩ := h
  obtain ⟨k, hk⟩ := RealTime.exists_classOf hw hy
  obtain ⟨r, hr, hclass⟩ := RealTime.exists_behind hk
  have hq₀ : q₀ ∈ m.completing k := (RealTime.mem_completing_iff hk).mpr ⟨y, hy⟩
  -- the least initial state that completes the word is chosen for its class
  obtain ⟨q, hfind⟩ : ∃ q, m.initialStates.find? (m.completing k).contains = some q := by
    rw [← Option.isSome_iff_exists, List.find?_isSome]
    exact ⟨q₀, RealTime.mem_initialStates.mpr hinit₀, hq₀⟩
  have hq : (m.initialChoice (m.completingSets symbols))[r]? = some (some q) := by
    rw [RealTime.initialChoice, List.getElem?_map, RealTime.getElem?_completingSets hclass,
      Option.map_some, hfind]
  obtain ⟨o, ho, _, hcompletes⟩ := RealTime.emit_unmerged hm hk hclass
    RealTime.fits_initialChoice (Dfa.standsFor_root (Nat.pow_pos (Nat.succ_pos _))) hq
    (List.find?_some hfind)
  refine ⟨o, process_eq_ok_iff.mpr ⟨?_, ho⟩, q, ?_, hcompletes hne⟩
  · exact accepts_behind_iff.mpr ⟨hw, y, q₀, hinit₀, hy⟩
  · exact RealTime.mem_initialStates.mp (List.mem_of_find?_eq_some hfind)

/-- Merging right states keeps the outputs of the bimachine of choices. -/
theorem process_ofRealTime_iff (hsymbols : symbols.Pairwise (· < ·)) :
    (ofRealTime m symbols).process w = .ok o ↔ (unmerged m symbols).process w = .ok o := by
  have hright : (unmerged m symbols).right.WellFormed := RealTime.wellFormed_right hsymbols
  rw [ofRealTime]
  exact process_mergeRight hright functional_unmerged

theorem wellFormed_right_ofRealTime (hsymbols : symbols.Pairwise (· < ·)) :
    (ofRealTime m symbols).right.WellFormed := by
  rw [ofRealTime]
  exact wellFormed_right_mergeRight (RealTime.wellFormed_right hsymbols)

theorem wellFormed_left_ofRealTime (hsymbols : symbols.Pairwise (· < ·)) :
    (ofRealTime m symbols).left.WellFormed := by
  rw [ofRealTime, mergeRight_eq, unmerged]
  exact RealTime.wellFormed_leftAutomaton hsymbols

theorem functional_ofRealTime : OutputTable.Functional (ofRealTime m symbols).table := by
  rw [ofRealTime]
  exact functional_table_mergeRight

theorem exists_process_ofRealTime (hm : m.Closed) (hsymbols : symbols.Pairwise (· < ·))
    (hne : w ≠ []) (hw : ∀ c ∈ w, c ∈ symbols) (h : m.Relates w y) :
    ∃ o, (ofRealTime m symbols).process w = .ok o ∧ m.Relates w o := by
  obtain ⟨o, ho, hrel⟩ := exists_process_unmerged hm hne hw h
  exact ⟨o, (process_ofRealTime_iff hsymbols).mpr ho, hrel⟩

theorem of_process_ofRealTime (hsymbols : symbols.Pairwise (· < ·))
    (h : (ofRealTime m symbols).process w = .ok o) :
    (∀ c ∈ w, c ∈ symbols) ∧ ∃ y, m.Relates w y :=
  accepts_behind_iff.mp (process_eq_ok_iff.mp ((process_ofRealTime_iff hsymbols).mp h)).1

/-- The empty word has the empty output, where it has one at all. -/
theorem process_ofRealTime_nil (hsymbols : symbols.Pairwise (· < ·)) :
    (ofRealTime m symbols).process [] = .ok o ↔ o = [] ∧ ∃ y, m.Relates [] y := by
  rw [process_ofRealTime_iff hsymbols, process_eq_ok_iff, accepts_behind_iff]
  simp [emit, eq_comm, and_comm]

end Bimachine

/-! ### Bimachines of transducers -/

namespace Transducer

variable {f : Transducer} {A : List Char} {m : RealTime} {w o : Word}

theorem closed_of_toRealTime (hf : f.Closed) (h : f.toRealTime = .ok m) : m.Closed := by
  obtain ⟨hb, rfl⟩ := (toRealTime_eq_ok_iff hf).mp h
  have htrim : f.trim.Closed := (Machine.wellFormed_trim hf).closed
  intro q c v t hmem
  have hq : q < f.trim.size := size_folded ▸ RealTime.lt_size_of_mem_moves hmem
  obtain ⟨p, u, w, _, hmove, _⟩ := (mem_moves_folded htrim hb hq).mp hmem
  exact size_folded ▸ htrim p _ t hmove

/-- The bimachine of a transducer is that of its real-time form. -/
theorem toBimachine_eq_ok_iff {b : Bimachine} : f.toBimachine A = .ok b ↔
    ∃ m, f.toRealTime = .ok m ∧ Bimachine.ofRealTime m (ascending A) = b := by
  rw [toBimachine]
  cases f.toRealTime with
  | error e => simp [Except.map]
  | ok m => simp [Except.map]

/-- The bimachine of a transducer as a relation: on the words over the alphabet it
settles on one output of each non-empty input, and on the empty word it writes
nothing. -/
structure Settles (f : Transducer) (A : List Char) (b : Bimachine) : Prop where
  exists_process : ∀ w y, w ≠ [] → (∀ c ∈ w, c ∈ A) → f.Relates w y →
    ∃ o, b.process w = .ok o ∧ f.Relates w o
  of_process : ∀ w o, b.process w = .ok o → (∀ c ∈ w, c ∈ A) ∧ ∃ y, f.Relates w y
  process_nil : ∀ o, b.process [] = .ok o ↔ o = [] ∧ ∃ y, f.Relates [] y
  wellFormed_right : b.right.WellFormed
  functional_table : OutputTable.Functional b.table

theorem settles_toBimachine (hf : f.Closed) (h : f.toRealTime = .ok m) :
    ∃ b, f.toBimachine A = .ok b ∧ f.Settles A b := by
  have hm := closed_of_toRealTime hf h
  have hsymbols := ascending_symbols_pairwise A
  have relates_iff (x y : Word) : m.Relates x y ↔ f.Relates x y := relates_of_toRealTime hf h
  refine ⟨_, toBimachine_eq_ok_iff.mpr ⟨m, h, rfl⟩, ?_, ?_, ?_,
    Bimachine.wellFormed_right_ofRealTime hsymbols, Bimachine.functional_ofRealTime⟩
  · intro w y hne hw hy
    obtain ⟨o, ho, hrel⟩ := Bimachine.exists_process_ofRealTime hm hsymbols hne
      (fun c hc => mem_ascending.mpr (hw c hc)) ((relates_iff w y).mpr hy)
    exact ⟨o, ho, (relates_iff w o).mp hrel⟩
  · intro w o ho
    obtain ⟨hw, y, hy⟩ := Bimachine.of_process_ofRealTime hsymbols ho
    exact ⟨fun c hc => mem_ascending.mp (hw c hc), y, (relates_iff w y).mp hy⟩
  · intro o
    simp only [Bimachine.process_ofRealTime_nil hsymbols, relates_iff]

/-- A bimachine that a transducer has settles on its outputs. -/
theorem settles_of_toBimachine {b : Bimachine} (hf : f.Closed) (h : f.toBimachine A = .ok b) :
    f.Settles A b := by
  obtain ⟨m, hm, _⟩ := toBimachine_eq_ok_iff.mp h
  obtain ⟨b', hb', settles⟩ := settles_toBimachine (A := A) hf hm
  obtain rfl := Except.ok.inj (hb'.symm.trans h)
  exact settles

/-- Wherever a transducer without a writing silent cycle has an output for a word over
the alphabet, its bimachine gives one of them, the empty word excepted, for which it
writes nothing; all other words are outside the domain. -/
theorem bimachine_selects_output (f : Transducer) (hf : f.WellFormed) (A : List Char)
    (m : RealTime) (h : f.toRealTime = .ok m) :
    ∃ b, f.toBimachine A = .ok b ∧ ∀ w, ∃ ys, f.process w = .ok ys ∧
      (w ≠ [] → (∀ c ∈ w, c ∈ A) → ys ≠ [] → ∃ o ∈ ys, b.process w = .ok o) ∧
      (w ≠ [] → ¬((∀ c ∈ w, c ∈ A) ∧ ys ≠ []) → ∃ p, b.process w = .error (.outsideDomain p)) ∧
      (w = [] → ys ≠ [] → b.process w = .ok []) ∧
      (w = [] → ys = [] → ∃ p, b.process w = .error (.outsideDomain p)) := by
  obtain ⟨b, hb, settles⟩ := settles_toBimachine (A := A) hf.closed h
  refine ⟨b, hb, fun w => ?_⟩
  obtain ⟨ys, hys, _, mem_iff⟩ :=
    exists_process hf.closed (finite_outputs_of_toRealTime hf.closed h) w
  -- To have an output is to be related to a word, which is what the bimachine settles on.
  have nonempty_iff : ys ≠ [] ↔ ∃ y, f.Relates w y := by
    constructor
    · intro hne
      obtain ⟨y, hy⟩ := List.exists_mem_of_ne_nil ys hne
      exact ⟨y, (mem_iff y).mp hy⟩
    · exact fun ⟨y, hy⟩ => List.ne_nil_of_mem ((mem_iff y).mpr hy)
  refine ⟨ys, hys, fun hne hw hys => ?_, fun _ hout => ?_, ?_, ?_⟩
  · obtain ⟨y, hy⟩ := nonempty_iff.mp hys
    obtain ⟨o, ho, hrel⟩ := settles.exists_process w y hne hw hy
    exact ⟨o, (mem_iff o).mpr hrel, ho⟩
  · refine Bimachine.process_eq_error_of_not fun o ho => hout ?_
    obtain ⟨hw, hy⟩ := settles.of_process w o ho
    exact ⟨hw, nonempty_iff.mpr hy⟩
  · rintro rfl hys
    exact (settles.process_nil []).mpr ⟨rfl, nonempty_iff.mp hys⟩
  · rintro rfl hys
    refine Bimachine.process_eq_error_of_not fun o ho => ?_
    exact nonempty_iff.mpr ((settles.process_nil o).mp ho).2 hys

/-- Copies `a` up to the last one, which becomes `A` or `B`, and writes `>` at the end. -/
def marksLast : Transducer where
  nodes := #[{ initial := true, moves := [((some 'a', ['a']), 0), ((some 'a', ['A']), 1),
      ((some 'a', ['B']), 1)] },
    { moves := [((none, ['>']), 2)] }, { accepting := true }]

/-- One of the two outputs of `aa` is given, and words without an output are outside. -/
theorem bimachine_selects_output_marksLast :
    marksLast.WellFormed ∧ marksLast.toRealTime = .ok marksLast.trim.folded ∧
    ∃ b, marksLast.toBimachine ['a'] = .ok b ∧
      (∃ o ∈ [['a', 'A', '>'], ['a', 'B', '>']], b.process ['a', 'a'] = .ok o) ∧
      (∃ p, b.process ['a', 'b'] = .error (.outsideDomain p)) ∧
      ∃ p, b.process [] = .error (.outsideDomain p) := by
  have hm : marksLast.WellFormed := by decide
  have real : marksLast.toRealTime = .ok marksLast.trim.folded := by decide
  obtain ⟨b, hb, outputs⟩ := bimachine_selects_output marksLast hm ['a'] _ real
  obtain ⟨ys, hys, both, _⟩ := outputs ['a', 'a']
  obtain ⟨zs, hzs, _, outside, _⟩ := outputs ['a', 'b']
  obtain ⟨es, hes, _, _, _, empty⟩ := outputs []
  have two : marksLast.process ['a', 'a'] = .ok [['a', 'A', '>'], ['a', 'B', '>']] := by decide
  have none : marksLast.process [] = .ok [] := by decide
  obtain rfl := Except.ok.inj (hys.symm.trans two)
  obtain rfl := Except.ok.inj (hes.symm.trans none)
  exact ⟨hm, real, b, hb, both (by simp) (by simp) (by simp),
    outside (by simp) fun h => absurd h.1 (by simp), empty rfl rfl⟩

end Transducer

end Transduction
