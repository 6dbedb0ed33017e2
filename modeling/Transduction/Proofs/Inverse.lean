/-
Inverse relations.

A spelled transducer writes at most one symbol a move, and no transducer reads more than one.  So
the labels of a run that are exchanged one by one read what the run writes and write what it reads:

* `Transducer.swapped` — what a label reads and writes, exchanged, with
  `Transducer.readsOf_map_swapped` and `Transducer.writesOf_map_swapped`;
* `Transducer.relates_inverse_iff` — the inverse relates the second words to the first;
* `Transducer.spelled_inverse_exact` — a relation, spelled, inverted, and inverted again.
-/
import Transduction.Proofs.Constructions
import Transduction.Proofs.Spelled

namespace Transduction

/-- What holds of the labels of all steps holds of the labels on a path. -/
theorem Path.forall_label {L κ : Type} {next : κ → List (L × κ)} {k r : κ} {ls : List L}
    {P : L → Prop} (h : Path next k ls r) (hP : ∀ k l t, (l, t) ∈ next k → P l) :
    ∀ l ∈ ls, P l := by
  induction h with
  | nil => exact fun l hl => absurd hl List.not_mem_nil
  | cons hl _ ih => exact List.forall_mem_cons.mpr ⟨hP _ _ _ hl, ih⟩

namespace Transducer

variable {m : Transducer} {x y : Word} {ls : List (Option Char × Word)}

/-- The label that reads the symbol which another one writes, and writes the symbol which that one
reads. -/
def swapped (l : Option Char × Word) : Option Char × Word := (l.2.head?, l.1.toList)

theorem toList_head?_of_length_le_one {w : Word} (h : w.length ≤ 1) : w.head?.toList = w := by
  match w with
  | [] => rfl
  | [c] => rfl
  | c :: d :: w => exact absurd h (by simp)

/-- Where no label writes more than one symbol, the exchanged ones read what they write. -/
theorem readsOf_map_swapped (h : ∀ l ∈ ls, l.2.length ≤ 1) :
    readsOf (ls.map swapped) = writesOf ls := by
  induction ls with
  | nil => rfl
  | cons l ls ih =>
    obtain ⟨hl, hls⟩ := List.forall_mem_cons.mp h
    rw [List.map_cons, readsOf_cons, writesOf_cons, ih hls, swapped,
      toList_head?_of_length_le_one hl]

theorem writesOf_map_swapped : writesOf (ls.map swapped) = readsOf ls := by
  induction ls with
  | nil => rfl
  | cons l ls ih => rw [List.map_cons, readsOf_cons, writesOf_cons, ih, swapped]

theorem acceptsLabels_inverse_iff :
    m.inverse.AcceptsLabels ls ↔ ∃ ks, m.spelled.AcceptsLabels ks ∧ ks.map swapped = ls :=
  Machine.acceptsLabels_mapLabels_iff

/-- The inverse of a transducer relates the second word of each pair to the first. -/
theorem relates_inverse_iff (hm : m.Closed) : m.inverse.Relates y x ↔ m.Relates x y := by
  have letters (ks : List (Option Char × Word)) (h : m.spelled.AcceptsLabels ks) :
      ∀ l ∈ ks, l.2.length ≤ 1 := by
    obtain ⟨p, q, _, hpath, _⟩ := h
    exact hpath.forall_label fun _ _ _ hmove => length_le_one_of_mem_moves_spelled hm hmove
  rw [← relates_spelled hm, relates_iff, relates_iff]
  simp only [acceptsLabels_inverse_iff]
  constructor
  · rintro ⟨_, ⟨ks, hks, rfl⟩, rfl, rfl⟩
    exact ⟨ks, hks, writesOf_map_swapped.symm, (readsOf_map_swapped (letters ks hks)).symm⟩
  · rintro ⟨ks, hks, rfl, rfl⟩
    exact ⟨_, ⟨ks, hks, rfl⟩, readsOf_map_swapped (letters ks hks), writesOf_map_swapped⟩

/-- A spelled transducer writes at most one symbol a move and keeps the relation.  The inverse has
the converse relation, and the inverse of the inverse has the relation again. -/
theorem spelled_inverse_exact (m : Transducer) (hm : m.WellFormed) :
    (∀ q l w t, ((l, w), t) ∈ m.spelled.moves q → w.length ≤ 1) ∧
    (∀ x y, m.spelled.Relates x y ↔ m.Relates x y) ∧
    (∀ x y, m.inverse.Relates y x ↔ m.Relates x y) ∧
    (∀ x y, m.inverse.inverse.Relates x y ↔ m.Relates x y) := by
  have hinverse : m.inverse.Closed := (wellFormed_inverse hm).closed
  refine ⟨fun _ _ _ _ => length_le_one_of_mem_moves_spelled hm.closed,
    fun _ _ => relates_spelled hm.closed, fun _ _ => relates_inverse_iff hm.closed,
    fun _ _ => ?_⟩
  rw [relates_inverse_iff hinverse, relates_inverse_iff hm.closed]

/-- Writes three symbols for an `a` and two for nothing, and drops each `b`. -/
def dictates : Transducer where
  nodes := #[{ initial := true, moves := [((none, ['p', 'q']), 1), ((some 'b', []), 0)] },
    { accepting := true, moves := [((none, []), 0), ((some 'a', ['x', 'y', 'z']), 1)] }]

/-- The pair of `ba` is inverted along the chains of both outputs. -/
theorem spelled_inverse_exact_dictates : dictates.WellFormed ∧
    (∀ q l w t, ((l, w), t) ∈ dictates.spelled.moves q → w.length ≤ 1) ∧
    dictates.spelled.Relates ['b', 'a'] ['p', 'q', 'x', 'y', 'z'] ∧
    dictates.inverse.Relates ['p', 'q', 'x', 'y', 'z'] ['b', 'a'] ∧
    dictates.inverse.inverse.Relates ['b', 'a'] ['p', 'q', 'x', 'y', 'z'] := by
  have hm : dictates.WellFormed := by decide
  have related : dictates.Relates ['b', 'a'] ['p', 'q', 'x', 'y', 'z'] :=
    ⟨0, [((some 'b', []), 0), ((none, ['p', 'q']), 1), ((some 'a', ['x', 'y', 'z']), 1)],
      ⟨rfl, 1, by simp [dictates, Machine.moves], rfl⟩, rfl, rfl⟩
  obtain ⟨letters, spelled_iff, inverse_iff, twice_iff⟩ := spelled_inverse_exact dictates hm
  exact ⟨hm, letters, (spelled_iff _ _).mpr related, (inverse_iff _ _).mpr related,
    (twice_iff _ _).mpr related⟩

end Transducer

end Transduction
