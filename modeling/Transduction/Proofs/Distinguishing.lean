/-
States that words tell apart.

The run of a state on a word meets a missing move, or it ends in a state that accepts or does
not.  A word tells two states apart when their runs on it end differently.  Refinement of the
partition by acceptance ends with the classes of states that no word tells apart:

* `Dfa.ending` — how the run of a state on a word ends;
* `Dfa.exists_ending_ne` — some word tells any two states of a minimal automaton apart;
* `Dfa.accepts_apart_or_stops_apart` — it does so by acceptance, or one of the runs is stopped
  and the other one leads to a state that accepts no word;
* `Dfa.reads_as_far_minimizeBy` — the states that are merged read equally far.
-/
import Transduction.Proofs.ErrorPositions
import Transduction.Proofs.Operations
import Transduction.Proofs.Separation

namespace Transduction.Dfa

variable {d m : Dfa} {partition : List Nat} {newState : List (Option Nat)}
  {visit : ClassTable → List (List Nat)} {p q i j r : Nat} {c : Char} {w v : Word}

/-! ### How runs end -/

/-- How the run of a state on a word ends: nowhere if a move is missing, and otherwise in a
state that accepts or does not. -/
def ending (d : Dfa) (q : Nat) (w : Word) : Option Bool := (follow d.delta q w).map d.isAccepting

/-- No word is accepted from the state. -/
def Dead (d : Dfa) (q : Nat) : Prop := ∀ w, (d.trace q w).1 = false

theorem ending_nil : d.ending q [] = some (d.isAccepting q) := rfl

theorem ending_append : d.ending q (w ++ v) = (follow d.delta q w).bind fun r => d.ending r v := by
  rw [ending, follow_append, Option.map_bind]
  rfl

theorem ending_cons : d.ending q (c :: w) = (d.delta q c).bind fun r => d.ending r w := by
  rw [ending, follow_cons, Option.map_bind]
  rfl

theorem trace_fst_eq : (d.trace q w).1 = (d.ending q w).getD false := by
  rw [Bool.eq_iff_iff, trace_eq_true_iff, ending]
  cases follow d.delta q w <;> simp

/-- Runs that are stopped together, or lead to states that accept alike, end alike. -/
theorem ending_eq_of_rel {d' : Dfa} (h : Option.Rel (fun p q => d.isAccepting p = d'.isAccepting q)
    (follow d.delta p w) (follow d'.delta q w)) : d.ending p w = d'.ending q w := by
  rw [ending, ending]
  generalize follow d.delta p w = x, follow d'.delta q w = y at h
  cases h with
  | none => rfl
  | some hr => exact congrArg some hr

/-- Runs that correspond end alike. -/
theorem Merges.ending_eq (h : d.Merges partition m newState)
    (hacc : ∀ p q, p < d.size → q < d.size → partition[p]? = partition[q]? →
      d.isAccepting p = d.isAccepting q)
    (hi : GoesTo newState i q) : m.ending i w = d.ending q w :=
  ending_eq_of_rel (rel_imp (h.follow hi) fun _ _ hr => h.isAccepting_eq hacc hr)

/-! ### Minimal automata -/

section minimal

variable (hv : ∀ t : ClassTable, t.Valid → t.Visits (visit t))

include hv

/-- Refinement by acceptance ends with the classes of states whose runs end alike. -/
theorem classOf_refine_acceptancePartition (hd : d.WellFormed) (hp : p < d.size)
    (hq : q < d.size) : (d.refine visit d.acceptancePartition).classOf[p]? =
        (d.refine visit d.acceptancePartition).classOf[q]? ↔
      ∀ w, d.ending p w = d.ending q w := by
  have hsee (r s : Nat) (hr : r < d.size) (hs : s < d.size) :
      d.acceptancePartition[r]? = d.acceptancePartition[s]? ↔ d.isAccepting r = d.isAccepting s :=
    acceptancePartition_eq_iff hd hr hs
  exact classOf_refine_eq_iff hv hd (by simp [acceptancePartition]) (acceptancePartition_gaps hd)
    hsee hp hq

/-- Some word tells any two states of a minimal automaton apart. -/
theorem exists_ending_ne (hd : d.WellFormed) (hi : i < (d.minimizeBy visit).size)
    (hj : j < (d.minimizeBy visit).size) (hne : i ≠ j) :
    ∃ w, (d.minimizeBy visit).ending i w ≠ (d.minimizeBy visit).ending j w := by
  have hmerges : d.Merges d.acceptancePartition (d.minimizeBy visit) _ :=
    merges_minimizeWithin hv hd (by simp [acceptancePartition]) (acceptancePartition_gaps hd)
  have hacc : ∀ p q, p < d.size → q < d.size →
      d.acceptancePartition[p]? = d.acceptancePartition[q]? → d.isAccepting p = d.isAccepting q :=
    fun _ _ => isAccepting_eq_of_acceptancePartition hd
  obtain ⟨p, _, hp, _⟩ := exists_goesTo hd hi
  obtain ⟨q, _, hq, _⟩ := exists_goesTo hd hj
  have hclass : (d.refine visit d.acceptancePartition).classOf[p]? ≠
      (d.refine visit d.acceptancePartition).classOf[q]? := fun h => hne (eq_of_goesTo hp hq h)
  rw [Ne, classOf_refine_acceptancePartition hv hd (hmerges.lt_size i p hp)
    (hmerges.lt_size j q hq), not_forall] at hclass
  obtain ⟨w, hw⟩ := hclass
  refine ⟨w, ?_⟩
  rw [hmerges.ending_eq hacc hp, hmerges.ending_eq hacc hq]
  exact hw

end minimal

/-! ### Dead states -/

theorem not_dead_iff : ¬d.Dead q ↔ ∃ w, (d.trace q w).1 = true := by
  simp only [Dead, not_forall, Bool.not_eq_false]

/-- Acceptance tells two states apart if a word that leads the first one to a live state stops
the second one. -/
theorem exists_trace_ne_of_stops (hp : follow d.delta p w = some r) (hr : ¬d.Dead r)
    (hq : follow d.delta q w = none) : ∃ u, (d.trace p u).1 ≠ (d.trace q u).1 := by
  obtain ⟨v, hv⟩ := not_dead_iff.mp hr
  refine ⟨w ++ v, ?_⟩
  rw [trace_fst_eq] at hv
  rw [trace_fst_eq, trace_fst_eq, ending_append, ending_append, hp, hq, Option.bind_some, hv]
  exact Bool.noConfusion

/-- The word leads the first state to a dead state and stops the second one. -/
def StopsOnlySecond (d : Dfa) (w : Word) (p q : Nat) : Prop :=
  ∃ r, follow d.delta p w = some r ∧ d.Dead r ∧ follow d.delta q w = none

/-- States that a word tells apart are told apart by acceptance, or by a word that stops one of
them and leads the other one to a dead state. -/
theorem apart_of_ending_ne (h : d.ending p w ≠ d.ending q w) :
    ∃ u, (d.trace p u).1 ≠ (d.trace q u).1 ∨ d.StopsOnlySecond u p q ∨ d.StopsOnlySecond u q p := by
  have hobserved : d.observed d.isAccepting p w ≠ d.observed d.isAccepting q w := h
  obtain ⟨r, hp, hq⟩ | ⟨r, hp, hq⟩ | ⟨r, s, hp, hq, hne⟩ := observed_ne_cases hobserved
  · by_cases hr : d.Dead r
    · exact ⟨w, Or.inr (Or.inl ⟨r, hp, hr, hq⟩)⟩
    · obtain ⟨u, hu⟩ := exists_trace_ne_of_stops hp hr hq
      exact ⟨u, Or.inl hu⟩
  · by_cases hr : d.Dead r
    · exact ⟨w, Or.inr (Or.inr ⟨r, hq, hr, hp⟩)⟩
    · obtain ⟨u, hu⟩ := exists_trace_ne_of_stops hq hr hp
      exact ⟨u, Or.inl hu.symm⟩
  · refine ⟨w, Or.inl ?_⟩
    rw [trace_fst_eq, trace_fst_eq, ending, ending, hp, hq]
    exact hne

/-- Every state has a move on every symbol of the alphabet. -/
def Complete (d : Dfa) : Prop := ∀ q < d.size, ∀ c ∈ d.alphabet, ∃ t, d.delta q c = some t

/-- In a complete automaton a word that some state reads stops no other. -/
theorem Complete.exists_follow (hcomplete : d.Complete) (hd : d.WellFormed) (hq : q < d.size)
    (hp : follow d.delta p w = some r) : ∃ s, follow d.delta q w = some s := by
  induction w generalizing p q with
  | nil => exact ⟨q, rfl⟩
  | cons c w ih =>
    obtain ⟨p', hpc, hp'⟩ := follow_cons_eq_some.mp hp
    obtain ⟨q', hqc⟩ := hcomplete q hq c (hd.mem_alphabet_of_delta hpc)
    obtain ⟨s, hs⟩ := ih (hd.delta_lt hqc) hp'
    exact ⟨s, follow_cons_eq_some.mpr ⟨q', hqc, hs⟩⟩

theorem not_stopsOnlySecond (hd : d.WellFormed) (hq : q < d.size)
    (hlive : (∀ r < d.size, ¬d.Dead r) ∨ d.Complete) (hp : p < d.size) :
    ¬d.StopsOnlySecond w p q := by
  rintro ⟨r, hpr, hdead, hqw⟩
  rcases hlive with hlive | hcomplete
  · exact hlive r (follow_keeps (P := (· < d.size)) (fun _ _ _ _ => hd.delta_lt) hp hpr) hdead
  · obtain ⟨s, hs⟩ := hcomplete.exists_follow hd hq hpr
    rw [hqw] at hs
    cases hs

section obtained

variable (hv : ∀ t : ClassTable, t.Valid → t.Visits (visit t))

include hv

/-- Any two states of a minimal automaton are told apart by acceptance, or by a word that stops
one of them and leads the other one to a dead state.  Where no state is dead or the table is
complete, they are told apart by acceptance. -/
theorem accepts_apart_or_stops_apart (hd : Obtained (.dfa d)) (hp : p < (d.minimizeBy visit).size)
    (hq : q < (d.minimizeBy visit).size) (hne : p ≠ q) :
    (∃ u, ((d.minimizeBy visit).trace p u).1 ≠ ((d.minimizeBy visit).trace q u).1 ∨
      (d.minimizeBy visit).StopsOnlySecond u p q ∨ (d.minimizeBy visit).StopsOnlySecond u q p) ∧
    ((∀ r < (d.minimizeBy visit).size, ¬(d.minimizeBy visit).Dead r) ∨
        (d.minimizeBy visit).Complete →
      ∃ u, ((d.minimizeBy visit).trace p u).1 ≠ ((d.minimizeBy visit).trace q u).1) := by
  have hwf : d.WellFormed := wellFormed_of_obtained hd
  have hm : (d.minimizeBy visit).WellFormed := wellFormed_minimizeBy hv hwf
  obtain ⟨w, hw⟩ := exists_ending_ne hv hwf hp hq hne
  have hapart := apart_of_ending_ne hw
  refine ⟨hapart, fun hlive => ?_⟩
  obtain ⟨u, hu | hstops | hstops⟩ := hapart
  · exact ⟨u, hu⟩
  · exact absurd hstops (not_stopsOnlySecond hm hq hlive hp)
  · exact absurd hstops (not_stopsOnlySecond hm hp hlive hq)

end obtained

/-- The empty word is accepted, and the two states behind it are dead; the first of them has a
move. -/
def deadEnd : Dfa := .ofRows #[[('a', 1)], [('b', 2)], []] 0 #[true, false, false]

/-- States 1 and 3 move alike, and no word leads to state 4. -/
def redundant : Dfa :=
  .ofRows #[[('a', 1), ('b', 2)], [('b', 3)], [('a', 3)], [('b', 1)], [('a', 0)]] 0
    #[false, true, false, true, true]

theorem obtained_of_declare {size start : Nat} {finals : List Nat} {arcs : List (Nat × Char × Nat)}
    (h : declare size start finals arcs = .ok d) : Obtained (.dfa d) :=
  .of (.declareDfa size start finals arcs) (fun _ hu => absurd hu List.not_mem_nil)
    (by rw [Operation.result, h]; rfl)

theorem obtained_deadEnd : Obtained (.dfa deadEnd) :=
  obtained_of_declare (by decide : declare 3 0 [0] [(0, 'a', 1), (1, 'b', 2)] = .ok deadEnd)

theorem obtained_redundant : Obtained (.dfa redundant) :=
  obtained_of_declare (by decide : declare 5 0 [1, 3, 4] [(0, 'a', 1), (0, 'b', 2), (1, 'b', 3),
    (2, 'a', 3), (3, 'b', 1), (4, 'a', 0)] = .ok redundant)

theorem accepts_apart_or_stops_apart_deadEnd :
    (Obtained (.dfa deadEnd) ∧ 2 < deadEnd.minimize.size ∧
      ∃ u, (deadEnd.minimize.trace 1 u).1 ≠ (deadEnd.minimize.trace 2 u).1 ∨
        deadEnd.minimize.StopsOnlySecond u 1 2 ∨ deadEnd.minimize.StopsOnlySecond u 2 1) ∧
    (Obtained (.dfa redundant) ∧ 2 < redundant.minimize.size ∧
      (∀ r < redundant.minimize.size, ¬redundant.minimize.Dead r) ∧
      ∃ u, (redundant.minimize.trace 0 u).1 ≠ (redundant.minimize.trace 2 u).1) := by
  have hdeadEnd : deadEnd.minimize.size = 3 := by decide +kernel
  have hredundant : redundant.minimize.size = 3 := by decide +kernel
  have hvisits : ∀ t : ClassTable, t.Valid → t.Visits t.ascendingClasses :=
    fun _ ht => ht.visits_ascendingClasses
  -- a word of two symbols leads any state to acceptance
  have hlive : ∀ r < redundant.minimize.size, ¬redundant.minimize.Dead r := by
    rw [hredundant]
    intro r hr
    have hwords : (redundant.minimize.trace 0 ['b', 'a']).1 = true ∧
        (redundant.minimize.trace 1 ['b', 'b']).1 = true ∧
        (redundant.minimize.trace 2 ['a', 'b']).1 = true := by decide +kernel
    rw [not_dead_iff]
    match r with
    | 0 => exact ⟨_, hwords.1⟩
    | 1 => exact ⟨_, hwords.2.1⟩
    | 2 => exact ⟨_, hwords.2.2⟩
  have h1 : 1 < deadEnd.minimize.size := by omega
  have h2 : 2 < deadEnd.minimize.size := by omega
  have h0' : 0 < redundant.minimize.size := by omega
  have h2' : 2 < redundant.minimize.size := by omega
  refine ⟨⟨obtained_deadEnd, h2, ?_⟩, obtained_redundant, h2', hlive, ?_⟩
  · exact (accepts_apart_or_stops_apart hvisits obtained_deadEnd h1 h2 (by decide)).1
  · exact (accepts_apart_or_stops_apart hvisits obtained_redundant h0' h2' (by decide)).2
      (Or.inl hlive)

/-- Two states of a minimal automaton that accept the same words: none. -/
theorem accepts_alike_deadEnd : Obtained (.dfa deadEnd) ∧ 2 < deadEnd.minimize.size ∧
    ∀ u, (deadEnd.minimize.trace 1 u).1 = (deadEnd.minimize.trace 2 u).1 := by
  have hminimal : deadEnd.minimize = deadEnd := by decide +kernel
  rw [hminimal]
  have dead_two (w : Word) : (deadEnd.trace 2 w).1 = false := by
    cases w with
    | nil => rfl
    | cons c w => rw [trace_cons_none (by rfl)]
  refine ⟨obtained_deadEnd, by decide, fun u => ?_⟩
  rw [dead_two]
  cases u with
  | nil => rfl
  | cons c u =>
    cases hc : deadEnd.delta 1 c with
    | none => rw [trace_cons_none hc]
    | some t =>
      have hmove := mem_of_lookup hc
      obtain ⟨rfl, rfl⟩ : c = 'b' ∧ t = 2 := by simpa [deadEnd, row, ofRows] using hmove
      rw [trace_cons_some hc]
      exact dead_two u

/-! ### Minimization and reading -/

/-- The minimal automaton reads as much of a word as the automaton does, so that it visits as
many states, and it accepts the same words. -/
theorem reads_as_far_minimizeBy (hv : ∀ t : ClassTable, t.Valid → t.Visits (visit t))
    (hd : Obtained (.dfa d)) (w : Word) :
    longestPrefix (fun v => ∃ r, follow (d.minimizeBy visit).delta (d.minimizeBy visit).start v
        = some r) w = longestPrefix (fun v => ∃ r, follow d.delta d.start v = some r) w ∧
      ((d.minimizeBy visit).forwardTrace w).2.length = (d.forwardTrace w).2.length ∧
      (d.minimizeBy visit).recognizes w = d.recognizes w := by
  have hwf : d.WellFormed := wellFormed_of_obtained hd
  have hlongest : longestPrefix (fun v => ∃ r, follow (d.minimizeBy visit).delta
      (d.minimizeBy visit).start v = some r) w =
      longestPrefix (fun v => ∃ r, follow d.delta d.start v = some r) w :=
    longestPrefix_congr fun v _ _ => rel_exists_iff (follow_minimizeBy hv hwf)
  refine ⟨hlongest, ?_, recognizes_minimizeBy hv hwf⟩
  rw [forwardTrace, forwardTrace, length_trace, length_trace, hlongest]

theorem reads_as_far_redundant : Obtained (.dfa redundant) ∧ redundant.minimize.size = 3 ∧
    (redundant.minimize.forwardTrace ['a', 'b', 'a', 'b']).2.length = 3 ∧
    redundant.minimize.recognizes ['b', 'a', 'b'] = true := by
  have hvisits : ∀ t : ClassTable, t.Valid → t.Visits t.ascendingClasses :=
    fun _ ht => ht.visits_ascendingClasses
  have hreads (w : Word) := reads_as_far_minimizeBy hvisits obtained_redundant w
  refine ⟨obtained_redundant, by decide +kernel, ?_, ?_⟩
  · exact (hreads _).2.1.trans (by decide)
  · exact (hreads _).2.2.trans (by decide)

end Transduction.Dfa
