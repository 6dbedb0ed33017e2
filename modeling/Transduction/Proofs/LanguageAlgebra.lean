/-
The words of unions, concatenations and iterations.

The runs of the constructions are described label by label, so what is left is to read off the
words.  Nothing is asked of the operands: their initial states may be entered again, their accepting
states may be left, and a silent move that a construction adds may be there already.

* `Acceptor.accepts_union_iff`, `Acceptor.accepts_concat_iff`, with `Acceptor.accepts_plus_iff` and
  `Acceptor.accepts_star_iff` — the words of accepted runs;
* `Acceptor.recognizes_algebra` — the words that are recognized.
-/
import Transduction.Proofs.Constructions
import Transduction.Proofs.Recognition

namespace Transduction.Acceptor

variable {a b : Acceptor} {w : Word}

/-- A union accepts what either operand accepts. -/
theorem accepts_union_iff (ha : a.Closed) :
    (a.union b).Accepts w ↔ a.Accepts w ∨ b.Accepts w := by
  simp only [accepts_iff, union, Machine.acceptsLabels_union_iff ha]
  constructor
  · intro h
    obtain ⟨_, ⟨ls, rfl, hls | hls⟩, rfl⟩ := h
    · exact Or.inl ⟨ls, hls, rfl⟩
    · exact Or.inr ⟨ls, hls, rfl⟩
  · intro h
    obtain ⟨ls, hls, rfl⟩ | ⟨ls, hls, rfl⟩ := h
    · exact ⟨none :: ls, ⟨ls, rfl, Or.inl hls⟩, rfl⟩
    · exact ⟨none :: ls, ⟨ls, rfl, Or.inr hls⟩, rfl⟩

/-- A concatenation accepts the words with an accepted word of the first operand in front of one of
the second. -/
theorem accepts_concat_iff (ha : a.Closed) :
    (a.concat b).Accepts w ↔ ∃ x y, w = x ++ y ∧ a.Accepts x ∧ b.Accepts y := by
  simp only [accepts_iff, concat, Machine.acceptsLabels_concat_iff ha]
  constructor
  · intro h
    obtain ⟨_, ⟨front, back, rfl, hfront, hback⟩, rfl⟩ := h
    exact ⟨_, _, List.filterMap_append, ⟨front, hfront, rfl⟩, back, hback, rfl⟩
  · intro h
    obtain ⟨_, _, rfl, ⟨front, hfront, rfl⟩, back, hback, rfl⟩ := h
    exact ⟨front ++ none :: back, ⟨front, back, rfl, hfront, hback⟩, List.filterMap_append⟩

/-- An iteration that may be empty accepts any number of accepted words in a row. -/
theorem accepts_star_iff_exists :
    a.star.Accepts w ↔ ∃ ws : List Word, (∀ v ∈ ws, a.Accepts v) ∧ ws.flatten = w := by
  rw [accepts_star_iff, accepts_plus_iff]
  constructor
  · intro h
    obtain rfl | ⟨ws, _, hws, hw⟩ := h
    · exact ⟨[], fun v hv => absurd hv List.not_mem_nil, rfl⟩
    · exact ⟨ws, hws, hw⟩
  · intro h
    obtain ⟨ws, hws, rfl⟩ := h
    by_cases hne : ws = []
    · exact Or.inl (congrArg List.flatten hne)
    · exact Or.inr ⟨ws, hne, hws, rfl⟩

/-- Union, concatenation and iteration of acceptors are those of the languages that they
recognize. -/
theorem recognizes_algebra (a b : Acceptor) (ha : a.WellFormed) (hb : b.WellFormed) (w : Word) :
    ((a.union b).recognizes w = true ↔ a.recognizes w = true ∨ b.recognizes w = true) ∧
    ((a.concat b).recognizes w = true ↔
      ∃ x y, w = x ++ y ∧ a.recognizes x = true ∧ b.recognizes y = true) ∧
    (a.plus.recognizes w = true ↔
      ∃ ws : List Word, ws ≠ [] ∧ (∀ v ∈ ws, a.recognizes v = true) ∧ ws.flatten = w) ∧
    (a.star.recognizes w = true ↔
      ∃ ws : List Word, (∀ v ∈ ws, a.recognizes v = true) ∧ ws.flatten = w) := by
  have hunion : (a.union b).Closed := (Machine.wellFormed_union ha hb).closed
  have hconcat : (a.concat b).Closed := (Machine.wellFormed_concat ha hb).closed
  have hplus : a.plus.Closed := Machine.closed_plus ha.closed
  have hstar : a.star.Closed := (Machine.wellFormed_star ha.closed).closed
  simp only [recognizes_iff ha.closed, recognizes_iff hb.closed]
  rw [recognizes_iff hunion, recognizes_iff hconcat, recognizes_iff hplus, recognizes_iff hstar]
  exact ⟨accepts_union_iff ha.closed, accepts_concat_iff ha.closed, accepts_plus_iff,
    accepts_star_iff_exists⟩

/-- Both initial states are entered again, and the accepting state is left: silently for one of
them, by a symbol for the other. -/
def reentered : Acceptor where
  nodes := #[{ initial := true, moves := [(some 'a', 2)] },
    { initial := true, moves := [(some 'b', 0)] },
    { accepting := true, moves := [(none, 1), (some 'c', 0)] }]

/-- Any number of `c`, along a silent cycle. -/
def cycling : Acceptor where
  nodes := #[{ initial := true, accepting := true, moves := [(none, 1)] },
    { moves := [(none, 0), (some 'c', 0)] }]

/-- The word `aba` is one word of the first acceptor, and `aa` two of them. -/
theorem recognizes_algebra_reentered : reentered.WellFormed ∧ cycling.WellFormed ∧
    (reentered.union cycling).recognizes ['a', 'b', 'a'] = true ∧
    (reentered.union cycling).recognizes ['a', 'a'] = false ∧
    (reentered.concat cycling).recognizes ['a', 'c', 'c'] = true ∧
    reentered.plus.recognizes ['a', 'a'] = true ∧
    reentered.star.recognizes [] = true := by
  have ha : reentered.WellFormed := by decide
  have hb : cycling.WellFormed := by decide
  have hunion := fun w => (recognizes_algebra reentered cycling ha hb w).1
  have hiterated := fun w => (recognizes_algebra reentered cycling ha hb w).2.2
  refine ⟨ha, hb, (hunion _).mpr (Or.inl (by decide +kernel)), ?_, ?_, ?_, ?_⟩
  · rw [Bool.eq_false_iff, ne_eq, hunion]
    decide +kernel
  · exact (recognizes_algebra reentered cycling ha hb _).2.1.mpr
      ⟨['a'], ['c', 'c'], rfl, by decide +kernel, by decide +kernel⟩
  · exact (hiterated _).1.mpr ⟨[['a'], ['a']], by decide, by decide +kernel, rfl⟩
  · exact (hiterated _).2.mpr ⟨[], by decide, rfl⟩

end Transduction.Acceptor
