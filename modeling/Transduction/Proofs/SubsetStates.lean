/-
The states of the subset construction.

A state of the deterministic automaton stands for a set of states of the acceptor: those that runs
reach on the words that lead to it.  Sets are visited from the start on and none is visited twice,
so every state is led to by some word and no two states stand for one set:

* `Acceptor.subsetAt` — the set that a state stands for;
* `Acceptor.mem_subsetAt_iff` — its members, by any word that leads to the state;
* `Acceptor.exists_follow_determinize` — some word leads to every state;
* `Acceptor.nonempty_subsetAt`, `Acceptor.eq_of_subsetAt_eq` — sets are not empty, and different for
  different states;
* `Acceptor.determinize_exact` — runs, sets of states, and states of the deterministic automaton.
-/
import Mathlib.Data.Set.Basic
import Transduction.Proofs.Recognition

namespace Transduction.Acceptor

variable {a : Acceptor} {s t : StateSet} {i j q : Nat} {c : Char} {w : Word}
  {entry : StateSet × List (Char × StateSet)}

/-- The set of states of the acceptor that a state of the deterministic automaton stands for. -/
def subsetAt (a : Acceptor) (i : Nat) : Set Nat :=
  {q | ∃ entry, a.subsets[i]? = some entry ∧ q ∈ entry.1}

theorem mem_subsetAt (h : a.subsets[i]? = some entry) : q ∈ a.subsetAt i ↔ q ∈ entry.1 := by
  show (∃ entry', a.subsets[i]? = some entry' ∧ q ∈ entry'.1) ↔ _
  rw [h]
  simp only [Option.some.injEq, exists_eq_left']

/-! ### Sets that words lead to -/

theorem exists_mem_of_subsetStep (ha : a.Closed) (h : a.subsetStep s c = some t) :
    ∃ q, q ∈ t := by
  rw [subsetStep] at h
  by_cases hc : c ∈ a.alphabet
  · rw [if_pos hc, subsetTarget] at h
    by_cases hempty : (a.advance reads s c).isEmpty = true
    · rw [if_pos hempty] at h
      cases h
    · rw [if_neg hempty] at h
      cases h
      rw [StateSet.isEmpty_iff, not_forall_not] at hempty
      obtain ⟨q, hq⟩ := hempty
      have advanced_lt : ∀ p ∈ a.advance reads s c, p < a.size :=
        fun _ => Machine.lt_size_of_mem_advance ha
      exact ⟨q, (Machine.mem_closeUnder_silentClosures ha advanced_lt).mpr
        ⟨q, hq, [], .nil q, fun _ hl => absurd hl List.not_mem_nil⟩⟩
  · rw [if_neg hc] at h
    cases h

/-- No word leads to the empty set. -/
theorem exists_mem_of_follow_subsets (ha : a.WellFormed)
    (h : follow a.subsetStep a.startSubset w = some s) : ∃ q, q ∈ s := by
  obtain ⟨p, hp⟩ := ha.exists_initial
  have start : ∃ q, q ∈ a.startSubset :=
    ⟨p, (mem_startSubset ha.closed).mpr ⟨p, [], hp, .nil p, rfl⟩⟩
  exact follow_keeps (P := fun s => ∃ q, q ∈ s)
    (fun _ _ _ _ hstep => exists_mem_of_subsetStep ha.closed hstep) start h

/-! ### States of the deterministic automaton -/

theorem exists_getElem?_subsets (hi : i < a.determinize.size) :
    ∃ entry, a.subsets[i]? = some entry := by
  rw [determinize, Dfa.size_ofExploration] at hi
  exact ⟨_, List.getElem?_eq_getElem hi⟩

/-- A set has one state. -/
theorem eq_of_standsFor_subset (hi : Dfa.StandsFor (fun s : StateSet => s.bits) a.subsets i s)
    (hj : Dfa.StandsFor (fun s : StateSet => s.bits) a.subsets j s) : i = j := by
  rw [subsets, subsetMoves_eq] at hi hj
  exact hi.unique hj

/-- Some word leads to every state. -/
theorem exists_follow_determinize (ha : a.Closed) (hi : i < a.determinize.size) :
    ∃ w, follow a.determinize.delta a.determinize.start w = some i := by
  obtain ⟨entry, hentry⟩ := exists_getElem?_subsets hi
  obtain ⟨w, hw⟩ := exists_follow_of_mem_subsets (List.mem_of_getElem? hentry)
  have hfollow := follow_determinize ha (w := w)
  rw [hw] at hfollow
  obtain ⟨j, hj, hjset⟩ := rel_some_right hfollow
  obtain rfl := eq_of_standsFor_subset ⟨entry, hentry, rfl⟩ hjset
  exact ⟨w, hj⟩

/-- The set of a state holds the states that runs reach on any word that leads to it. -/
theorem mem_subsetAt_iff (ha : a.Closed)
    (h : follow a.determinize.delta a.determinize.start w = some i) :
    q ∈ a.subsetAt i ↔ a.Reaches w q := by
  have hfollow := follow_determinize ha (w := w)
  rw [h] at hfollow
  obtain ⟨s, hs, entry, hentry, hkey⟩ := rel_some_left hfollow
  obtain rfl : entry.1 = s := congrArg StateSet.mk hkey
  rw [mem_subsetAt hentry, ← mem_follow_subsets ha, hs, Option.getD_some]

theorem nonempty_subsetAt (ha : a.WellFormed) (hi : i < a.determinize.size) :
    (a.subsetAt i).Nonempty := by
  obtain ⟨entry, hentry⟩ := exists_getElem?_subsets hi
  obtain ⟨w, hw⟩ := exists_follow_of_mem_subsets (List.mem_of_getElem? hentry)
  obtain ⟨q, hq⟩ := exists_mem_of_follow_subsets ha hw
  exact ⟨q, (mem_subsetAt hentry).mpr hq⟩

theorem eq_of_subsetAt_eq (hi : i < a.determinize.size) (hj : j < a.determinize.size)
    (h : a.subsetAt i = a.subsetAt j) : i = j := by
  obtain ⟨entry, hentry⟩ := exists_getElem?_subsets hi
  obtain ⟨entry', hentry'⟩ := exists_getElem?_subsets hj
  have same : entry.1 = entry'.1 := StateSet.ext fun q => by
    rw [← mem_subsetAt hentry, ← mem_subsetAt hentry', h]
  exact eq_of_standsFor_subset ⟨entry, hentry, rfl⟩ ⟨entry', hentry', congrArg _ same.symm⟩

/-- An acceptor recognizes the words of its accepted runs, and so does the deterministic automaton.
Every state of the latter is led to by some word; it stands for the states that runs of the acceptor
reach on such a word, of which there are some; and different states stand for different sets. -/
theorem determinize_exact (a : Acceptor) (ha : a.WellFormed) :
    (∀ w, a.recognizes w = true ↔ a.Accepts w) ∧
    (∀ w, a.determinize.recognizes w = a.recognizes w) ∧
    (∀ i < a.determinize.size,
      ∃ w, follow a.determinize.delta a.determinize.start w = some i) ∧
    (∀ w i, follow a.determinize.delta a.determinize.start w = some i →
      a.subsetAt i = {q | a.Reaches w q}) ∧
    (∀ i < a.determinize.size, (a.subsetAt i).Nonempty ∧ ∀ q ∈ a.subsetAt i, q < a.size) ∧
    (∀ i < a.determinize.size, ∀ j < a.determinize.size, i ≠ j → a.subsetAt i ≠ a.subsetAt j) := by
  refine ⟨fun w => recognizes_iff ha.closed, fun w => ?_,
    fun i hi => exists_follow_determinize ha.closed hi,
    fun w i hw => Set.ext fun q => mem_subsetAt_iff ha.closed hw,
    fun i hi => ⟨nonempty_subsetAt ha hi, fun q hq => ?_⟩,
    fun i hi j hj hij h => hij (eq_of_subsetAt_eq hi hj h)⟩
  · rw [Bool.eq_iff_iff, recognizes_determinize ha.closed, recognizes_iff ha.closed]
  · obtain ⟨entry, hentry⟩ := exists_getElem?_subsets hi
    exact lt_size_of_mem_subsets ha.closed (List.mem_of_getElem? hentry)
      ((mem_subsetAt hentry).mp hq)

/-- States 0 and 1 reach each other silently, states 0 and 2 are initial, and no run reaches
state 4. -/
def entangled : Acceptor where
  nodes := #[{ initial := true, moves := [(none, 1), (some 'a', 2)] },
    { moves := [(none, 0), (some 'b', 3)] }, { initial := true, moves := [(some 'b', 2)] },
    { accepting := true }, { accepting := true, moves := [(some 'a', 0)] }]

theorem determinize_exact_entangled : entangled.WellFormed ∧ entangled.determinize.size = 3 ∧
    (∀ w, entangled.determinize.recognizes w = entangled.recognizes w) ∧
    (∃ w, follow entangled.determinize.delta entangled.determinize.start w = some 2) ∧
    entangled.subsetAt 0 = {q | entangled.Reaches [] q} ∧
    (∀ i < 3, (entangled.subsetAt i).Nonempty) ∧
    entangled.subsetAt 1 ≠ entangled.subsetAt 2 := by
  have hwellFormed : entangled.WellFormed := by decide
  have hsize : entangled.determinize.size = 3 := by decide +kernel
  obtain ⟨_, hrecognizes, hreached, hsets, hnonempty, hdifferent⟩ :=
    determinize_exact entangled hwellFormed
  rw [hsize] at hreached hnonempty hdifferent
  exact ⟨hwellFormed, hsize, hrecognizes, hreached 2 (by omega), hsets [] 0 rfl,
    fun i hi => (hnonempty i hi).1, hdifferent 1 (by omega) 2 (by omega) (by omega)⟩

end Transduction.Acceptor
