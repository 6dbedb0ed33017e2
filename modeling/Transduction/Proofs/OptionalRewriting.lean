/-
The optional rewriter of a rule.

Under the optional policy nothing is guarded, so every stretch may be copied, also one with a match
inside.  The outputs of a word are those of all its decompositions, whether a match is left or not:

* `Plan.copies_of_optional` — the guard follows every stretch;
* `Transducer.relates_rewriter_optional_iff`, `Transducer.process_rewriter_optional` — the
  optional rewriter of a rule.
-/
import Transduction.Proofs.Decompositions

namespace Transduction

variable {u v w x y z : Word}

/-- Where nothing is guarded, every stretch is copied. -/
theorem Rewriter.Plan.copies_of_optional {plan : Rewriter.Plan}
    (hpolicy : plan.policy = .optional) : plan.Copies u := by
  have copyGuard_eq (guard : StateSet) (c : Char) : plan.copyGuard guard c = some .empty := by
    rw [copyGuard, hpolicy]
  refine ⟨.empty, ?_⟩
  induction u with
  | nil => rfl
  | cons c u ih => exact follow_cons_eq_some.mpr ⟨.empty, copyGuard_eq _ c, ih⟩

namespace Transducer

open Rewriter

variable {rule : Transducer} {A : List Char}

/-- The optional rewriter relates the words over the alphabet to the outputs of all their
decompositions. -/
theorem relates_rewriter_optional_iff (hr : rule.WellFormed) :
    (rule.rewriter A .optional).Relates w z ↔
      (∀ c ∈ w, c ∈ A) ∧ Decomposes (fun _ => True) rule.Relates w z := by
  rw [relates_rewriter_iff_copies hr (by simp)]
  refine and_congr_right fun _ => ⟨fun h => ?_, fun h => ?_⟩
  · exact h.mono (fun _ _ => trivial) fun _ _ _ hy => hy
  · exact h.mono (fun _ _ => Plan.copies_of_optional policy_plan) fun _ _ _ hy => hy

/-- Where the non-empty words over the alphabet have finitely many outputs, the optional
rewriter lists for each word over the alphabet the outputs of all its decompositions into
copied stretches and non-empty matches, and nothing for a word with another symbol. -/
theorem process_rewriter_optional (rule : Transducer) (hr : rule.WellFormed) (A : List Char)
    (hfinite : ∀ v, v ≠ [] → (∀ c ∈ v, c ∈ A) → {y | rule.Relates v y}.Finite) (w : Word) :
    ((∀ c ∈ w, c ∈ A) → ∃ ys, (rule.rewriter A .optional).process w = .ok ys ∧
      (ys.Pairwise fun y z => compare y z = .lt) ∧
      ∀ z, z ∈ ys ↔ Decomposes (fun _ => True) rule.Relates w z) ∧
    ((∃ c ∈ w, c ∉ A) → (rule.rewriter A .optional).process w = .ok []) :=
  process_of_relates_iff_decomposes wellFormed_rewriter.closed
    (fun _ _ => relates_rewriter_optional_iff hr) hfinite w

/-- Writes an `a` between brackets, which silent moves write, an `e` for nothing, and any number
of `q` for a `z`. -/
def brackets : Transducer where
  nodes := #[{ initial := true, moves := [((none, ['(']), 1), ((none, ['e']), 3),
      ((some 'z', []), 4)] },
    { moves := [((some 'a', ['a']), 2)] },
    { moves := [((none, [')']), 3)] },
    { accepting := true },
    { accepting := true, moves := [((none, ['q']), 4)] }]

theorem of_relates_brackets (h : brackets.Relates x y) :
    x = [] ∨ (x = ['a'] ∧ y = ['(', 'a', ')']) ∨ 'z' ∈ x := by
  obtain ⟨ls, ⟨p, q, hp, hpath, hq⟩, rfl, rfl⟩ := relates_iff.mp h
  have start_eq : p = 0 := by
    match p with
    | 0 => rfl
    | 1 | 2 | 3 | 4 => cases hp
    | p + 5 => cases hp
  subst start_eq
  cases hpath with
  | nil => cases hq
  | @cons _ t _ l ls hfirst hrest =>
    have first : (l, t) = ((none, ['(']), 1) ∨ (l, t) = ((none, ['e']), 3) ∨
        (l, t) = ((some 'z', []), 4) := by
      simpa [brackets, Machine.moves] using hfirst
    rcases first with hfirst | hfirst | hfirst
    · cases hfirst
      -- behind the opening bracket there is no choice
      cases hrest with
      | nil => cases hq
      | cons hsecond hrest =>
        cases List.mem_singleton.mp hsecond
        cases hrest with
        | nil => cases hq
        | cons hthird hrest =>
          cases List.mem_singleton.mp hthird
          cases hrest with
          | nil => exact Or.inr (Or.inl ⟨rfl, rfl⟩)
          | cons hfourth _ => exact absurd hfourth List.not_mem_nil
    · cases hfirst
      cases hrest with
      | nil => exact Or.inl rfl
      | cons hsecond _ => exact absurd hsecond List.not_mem_nil
    · cases hfirst
      exact Or.inr (Or.inr List.mem_cons_self)

/-- Each of two symbols is copied or rewritten.  The output for nothing is not written, and the
branch with any number of outputs, which reads another symbol, does not matter. -/
theorem process_rewriter_optional_brackets :
    brackets.WellFormed ∧
    (∀ v, v ≠ [] → (∀ c ∈ v, c ∈ ['a']) → {y | brackets.Relates v y}.Finite) ∧
    (∃ ys, (brackets.rewriter ['a'] .optional).process ['a', 'a'] = .ok ys ∧ ['a', 'a'] ∈ ys ∧
      ['a', '(', 'a', ')'] ∈ ys ∧ ['(', 'a', ')', '(', 'a', ')'] ∈ ys ∧ ['e', 'a', 'a'] ∉ ys) ∧
    (brackets.rewriter ['a'] .optional).process ['z'] = .ok [] := by
  have hr : brackets.WellFormed := by decide
  have only (v y : Word) (hne : v ≠ []) (hv : ∀ c ∈ v, c ∈ ['a']) (h : brackets.Relates v y) :
      v = ['a'] ∧ y = ['(', 'a', ')'] :=
    ((of_relates_brackets h).resolve_left hne).resolve_right
      fun hz => absurd (hv 'z' hz) (by decide)
  have finite : ∀ v, v ≠ [] → (∀ c ∈ v, c ∈ ['a']) → {y | brackets.Relates v y}.Finite :=
    fun v hne hv => (Set.finite_singleton _).subset fun y hy => (only v y hne hv hy).2
  have bracketed : brackets.Relates ['a'] ['(', 'a', ')'] :=
    ⟨0, [((none, ['(']), 1), ((some 'a', ['a']), 2), ((none, [')']), 3)],
      ⟨rfl, 3, by simp [brackets, Machine.moves], rfl⟩, rfl, rfl⟩
  have outputs := process_rewriter_optional brackets hr ['a'] finite
  obtain ⟨ys, hys, _, mem_iff⟩ := (outputs ['a', 'a']).1 (by simp)
  have last : Decomposes (fun _ => True) brackets.Relates ['a'] ['(', 'a', ')'] :=
    .next (u := []) (w := []) trivial (List.cons_ne_nil _ _) bracketed (.last trivial)
  refine ⟨hr, finite, ⟨ys, hys, (mem_iff _).mpr (.last trivial), (mem_iff _).mpr ?_,
    (mem_iff _).mpr ?_, fun he => ?_⟩, (outputs ['z']).2 ⟨'z', by decide, by decide⟩⟩
  · exact .next (u := ['a']) (w := []) trivial (List.cons_ne_nil _ _) bracketed (.last trivial)
  · exact .next (u := []) trivial (List.cons_ne_nil _ _) bracketed last
  · have hdecomposes := (mem_iff _).mp he
    generalize hz : ['e', 'a', 'a'] = z at hdecomposes
    generalize hw : ['a', 'a'] = w at hdecomposes
    cases hdecomposes with
    | last _ => exact absurd (hw.trans hz.symm) (by decide)
    | @next u v y w z _ hne hy _ =>
      have hv : ∀ c ∈ v, c ∈ ['a'] := fun c hc => by
        have hmem : c ∈ ['a', 'a'] :=
          hw ▸ List.mem_append_right u (List.mem_append_left w hc)
        simpa using hmem
      -- the brackets of a match would be in the output
      obtain ⟨_, rfl⟩ := only v y hne hv hy
      have hbracket : '(' ∈ ['e', 'a', 'a'] := hz ▸ List.mem_append_right u List.mem_cons_self
      exact absurd hbracket (by decide)

end Transducer

end Transduction
