/-
The trimmed form of a machine.

Trimming keeps the useful states in their order, and each of them is useful in the trimmed
machine.  A machine in which every state is useful trims to itself, and so does the lone initial
state that is left where no state is useful:

* `Machine.restrict_range` — a machine restricted to all of its states is the machine;
* `Machine.trim_eq_self`, `Machine.trim_trim` — trimming twice is trimming once;
* `Transducer.trim_eq_lone_iff` — a transducer without a pair trims to the lone initial state;
* `Transducer.trim_exact` — the relation, the states and their order, and trimming again.
-/
import Mathlib.Data.List.Range
import Transduction.Proofs.RealTime

namespace Transduction

namespace Machine

variable {L : Type} {m : Machine L} {p q : Nat}

/-! ### Trimming twice -/

theorem pairwise_usefulStates (m : Machine L) : m.usefulStates.Pairwise (· < ·) :=
  List.pairwise_lt_range.filter _

theorem getElem?_numbering_range {n t : Nat} (ht : t < n) :
    (numbering (List.range n))[t]? = some t := by
  rw [getElem?_numbering List.nodup_range, List.getElem?_range ht]

/-- The machine restricted to all of its states is the machine itself. -/
theorem restrict_range (hm : m.Closed) : m.restrict (List.range m.size) = m := by
  have nodes_eq : (m.restrict (List.range m.size)).nodes = m.nodes := by
    refine Array.ext_getElem? fun q => ?_
    simp only [restrict, List.getElem?_toArray, List.getElem?_map]
    by_cases hq : q < m.size
    · have hn : m.nodes[q]? = some m.nodes[q] := Array.getElem?_eq_getElem hq
      -- the targets keep their numbers, and the moves their order
      rw [List.getElem?_range hq, Option.map_some, List.filterMap_congr (g := some),
        List.filterMap_some]
      · simp [isInitial, isAccepting, moves, hn]
      · rintro ⟨l, t⟩ hmove
        simp only [getElem?_numbering_range (hm q l t hmove), Option.map_some]
    · have hle : m.size ≤ q := Nat.le_of_not_lt hq
      rw [List.getElem?_eq_none (List.length_range.trans_le hle), Option.map_none,
        Array.getElem?_eq_none hle]
  exact congrArg Machine.mk nodes_eq

/-- A machine in which every state is useful trims to itself. -/
theorem trim_eq_self (hm : m.Closed) (hpos : 0 < m.size) (h : ∀ q < m.size, m.Useful q) :
    m.trim = m := by
  have states_eq : m.usefulStates = List.range m.size := by
    refine List.filter_eq_self.mpr fun q hq => ?_
    have hmem := (mem_usefulStates_iff hm).mpr (h q (List.mem_range.mp hq))
    exact (mem_usefulStates.mp hmem).2
  rcases m.trim_cases with ⟨_, htrim⟩ | ⟨hnone, _⟩
  · rw [htrim, states_eq, restrict_range hm]
  · rw [states_eq, List.range_eq_nil] at hnone
    omega

theorem trim_lone : (lone : Machine L).trim = lone := by
  have hlone : (lone : Machine L).Closed := fun q l t h => by simp at h
  rcases (lone : Machine L).trim_cases with ⟨hsome, _⟩ | ⟨_, htrim⟩
  · obtain ⟨q, hq⟩ := List.exists_mem_of_ne_nil _ hsome
    obtain ⟨_, r, _, _, hr⟩ := (mem_usefulStates_iff hlone).mp hq
    rw [isAccepting_lone] at hr
    cases hr
  · exact htrim

/-- Trimming a trimmed machine changes nothing. -/
theorem trim_trim (hm : m.Closed) : m.trim.trim = m.trim := by
  rcases m.trim_cases with ⟨hsome, _⟩ | ⟨_, htrim⟩
  · have hwell := wellFormed_trim hm
    obtain ⟨q, hq⟩ := hwell.exists_initial
    exact trim_eq_self hwell.closed (Nat.zero_lt_of_lt (lt_size_of_isInitial hq))
      fun q => useful_trim hm hsome
  · rw [htrim, trim_lone]

end Machine

/-! ### Trimmed transducers -/

namespace Transducer

variable {m : Transducer} {q : Nat}

/-- A state is useful on the way of a pair. -/
theorem exists_relates_of_useful (h : Machine.Useful m q) : ∃ x y, m.Relates x y := by
  obtain ⟨⟨p, front, hp, hfront⟩, r, back, hback, hr⟩ := h
  exact ⟨_, _, relates_iff.mpr ⟨front ++ back, ⟨p, r, hp, hfront.append hback, hr⟩, rfl, rfl⟩⟩

/-- A transducer without a pair trims to a lone initial state, and no other one does. -/
theorem trim_eq_lone_iff (hm : m.Closed) : m.trim = Machine.lone ↔ ∀ x y, ¬m.Relates x y := by
  constructor
  · intro hlone x y h
    obtain ⟨_, ⟨_, r, _, _, hr⟩, _⟩ := relates_iff.mp ((relates_trim hm).mpr h)
    rw [hlone, Machine.isAccepting_lone] at hr
    cases hr
  · intro hnone
    rcases Machine.trim_cases m with ⟨hsome, _⟩ | ⟨_, htrim⟩
    · obtain ⟨q, hq⟩ := List.exists_mem_of_ne_nil _ hsome
      obtain ⟨x, y, h⟩ := exists_relates_of_useful ((Machine.mem_usefulStates_iff hm).mp hq)
      exact absurd h (hnone x y)
    · exact htrim

/-- Trimming keeps the relation.  It keeps the states on a path from an initial to an accepting
state in their order, with their marks and the moves between them, and each of them lies on such a
path afterwards.  Where there is none, a lone initial state without moves and without acceptance is
left, and that is so exactly where the relation is empty.  Trimming again changes nothing. -/
theorem trim_exact (m : Transducer) (hm : m.WellFormed) :
    (∀ x y, m.trim.Relates x y ↔ m.Relates x y) ∧
    ((∀ q < m.trim.size, Machine.Useful m.trim q) ∨ m.trim = Machine.lone) ∧
    (m.trim = Machine.lone ↔ ∀ x y, ¬m.Relates x y) ∧
    (∃ kept : List Nat, kept.Pairwise (· < ·) ∧ (∀ q, q ∈ kept ↔ Machine.Useful m q) ∧
      (kept ≠ [] → Renumbers m.trim kept m.moves m.isInitial m.isAccepting)) ∧
    m.trim.trim = m.trim := by
  have restricted (hsome : m.usefulStates ≠ []) :
      Renumbers m.trim m.usefulStates m.moves m.isInitial m.isAccepting := by
    rcases Machine.trim_cases m with ⟨_, htrim⟩ | ⟨hnone, _⟩
    · rw [trim, htrim]
      exact Machine.renumbers_restrict m.nodup_usefulStates
    · exact absurd hnone hsome
  refine ⟨fun x y => relates_trim hm.closed, ?_, trim_eq_lone_iff hm.closed,
    ⟨m.usefulStates, m.pairwise_usefulStates, fun q => Machine.mem_usefulStates_iff hm.closed,
      restricted⟩, Machine.trim_trim hm.closed⟩
  rcases Machine.trim_cases m with ⟨hsome, _⟩ | ⟨_, htrim⟩
  · exact Or.inl fun q => Machine.useful_trim hm.closed hsome
  · exact Or.inr htrim

/-- A cycle through states 0 and 3, with two moves from the one to the other.  State 1 is a dead
end, and state 2 cannot be reached. -/
def dangling : Transducer where
  nodes := #[{ initial := true, moves := [((some 'a', []), 1), ((some 'a', ['x']), 3),
      ((some 'b', ['x']), 3)] },
    { moves := [((none, ['y']), 1)] },
    { accepting := true, moves := [((some 'c', []), 3)] },
    { accepting := true, moves := [((none, ['z']), 0)] }]

/-- The states on the cycle are left, and the pairs along it. -/
theorem trim_exact_dangling : dangling.WellFormed ∧
    dangling.trim.Relates ['a', 'b'] ['x', 'z', 'x'] ∧
    (∀ q < dangling.trim.size, Machine.Useful dangling.trim q) ∧
    dangling.trim ≠ Machine.lone ∧ dangling.trim.trim = dangling.trim := by
  have hm : dangling.WellFormed := by decide
  obtain ⟨relates_iff', useful_or_lone, lone_iff, _, htwice⟩ := trim_exact dangling hm
  have related : dangling.Relates ['a', 'b'] ['x', 'z', 'x'] :=
    ⟨0, [((some 'a', ['x']), 3), ((none, ['z']), 0), ((some 'b', ['x']), 3)],
      ⟨rfl, 3, by simp [dangling, Machine.moves], rfl⟩, rfl, rfl⟩
  have hlone : dangling.trim ≠ Machine.lone := fun h => lone_iff.mp h _ _ related
  exact ⟨hm, (relates_iff' _ _).mpr related, useful_or_lone.resolve_right hlone, hlone, htwice⟩

end Transducer

end Transduction
