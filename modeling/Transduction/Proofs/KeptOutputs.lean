/-
How many outputs the leftmost-longest rewriter has.

A rule settles on one output for each match through its bimachine.  A rule with an input
of infinitely many outputs has no bimachine, and then all of its outputs are kept, also
for the other inputs:

* `Rewriter.appliedRule_of_infinite` — when a rule keeps all of its outputs;
* `Rewriter.appliedRule_unique` — when it has one output for a match;
* `Transducer.keepsTies` — a rule with two outputs for a text over the alphabet, because of
  an input that no such text has;
* `Transducer.outputs_leftmostLongest` — the outputs of a text, in each case.
-/
import Transduction.Proofs.AppliedRules

namespace Transduction

variable {rule : Transducer} {A : List Char} {v w y y' z : Word}

namespace Rewriter

/-- A rule with infinitely many outputs for some input keeps all of its outputs. -/
theorem appliedRule_of_infinite (hr : rule.WellFormed)
    (h : ∃ v, v ≠ [] ∧ {y | rule.Relates v y}.Infinite) :
    appliedRule rule .leftmostLongest = properRule rule := by
  obtain ⟨v, hne, hinfinite⟩ := h
  rw [appliedRule, singleOutput]
  split
  · rename_i b hb
    obtain ⟨m, hm, _⟩ := Transducer.toBimachine_eq_ok_iff.mp hb
    have finite := Transducer.finite_outputs_of_toRealTime wellFormed_properRule.closed hm v
    simp only [relates_properRule_iff hr.closed, and_iff_right hne] at finite
    exact absurd finite hinfinite
  · rfl

/-- A match has one output where the rule settles on one, and where it has no other. -/
theorem appliedRule_unique (hr : rule.WellFormed)
    (h : (∀ v, v ≠ [] → {y | rule.Relates v y}.Finite) ∨
      (∀ v, v ≠ [] → v <:+: w → {y | rule.Relates v y}.Subsingleton)) :
    ∀ v y y', v ≠ [] → v <:+: w → (appliedRule rule .leftmostLongest).Relates v y →
      (appliedRule rule .leftmostLongest).Relates v y' → y = y' := by
  intro v y y' hne hinfix hy hy'
  rcases h with hfinite | hone
  · have hsettled := ((relates_appliedRule_iff hr hfinite).mp hy).2.2
    have hsettled' := ((relates_appliedRule_iff hr hfinite).mp hy').2.2
    exact hsettled.trans hsettled'.symm
  · exact hone v hne hinfix (relates_of_appliedRule hr hy) (relates_of_appliedRule hr hy')

end Rewriter

namespace Transducer

open Rewriter

/-- Writes `x` or `y` for an `a`, and any number of `q` for a `z`. -/
def keepsTies : Transducer where
  nodes := #[{ initial := true, moves := [((some 'a', ['x']), 1), ((some 'a', ['y']), 1),
      ((some 'z', []), 2)] }, { accepting := true },
    { accepting := true, moves := [((none, ['q']), 2)] }]

/-- One `a` has two outputs, over an alphabet without `z`. -/
theorem two_outputs_keepsTies :
    keepsTies.WellFormed ∧ (∀ c ∈ ['a'], c ∈ ['a']) ∧
      (keepsTies.rewriter ['a'] .leftmostLongest).process ['a'] = .ok [['x'], ['y']] :=
  ⟨by decide, fun _ hc => hc, by decide +kernel⟩

theorem infinite_outputs_keepsTies : {y | keepsTies.Relates ['z'] y}.Infinite := by
  have rounds : ∀ n : Nat, ∃ ls, Path keepsTies.moves 2 ls 2 ∧ readsOf ls = [] ∧
      writesOf ls = List.replicate n 'q' := by
    intro n
    induction n with
    | zero => exact ⟨[], .nil 2, rfl, rfl⟩
    | succ n ih =>
      obtain ⟨ls, hpath, hreads, hwrites⟩ := ih
      refine ⟨(none, ['q']) :: ls, .cons List.mem_cons_self hpath, by simpa using hreads, ?_⟩
      rw [writesOf_cons, hwrites, List.replicate_succ]
      rfl
  refine Set.infinite_of_injective_forall_mem (f := fun n => List.replicate n 'q') ?_ fun n => ?_
  · exact fun a b hab => by simpa using congrArg List.length hab
  · obtain ⟨ls, hpath, hreads, hwrites⟩ := rounds n
    have enters : ((some 'z', []), 2) ∈ keepsTies.moves 0 := by decide
    exact relates_iff.mpr ⟨(some 'z', []) :: ls, ⟨0, 2, rfl, .cons enters hpath, rfl⟩,
      by simp [hreads], by simpa using hwrites⟩

/-- A text over the alphabet that is processed has an output.  It has only one if no input
of the rule has infinitely many outputs, or if none that lies in the text has two.  If some
input has infinitely many outputs, the outputs of the text are those of all scans that
rewrite each longest match to any of its outputs. -/
theorem outputs_leftmostLongest (rule : Transducer) (hr : rule.WellFormed) (A : List Char)
    (w : Word) (hw : ∀ c ∈ w, c ∈ A) (ys : List Word)
    (h : (rule.rewriter A .leftmostLongest).process w = .ok ys) :
    ys ≠ [] ∧
    ((∀ v, v ≠ [] → {y | rule.Relates v y}.Finite) ∨
        (∀ v, v ≠ [] → v <:+: w → {y | rule.Relates v y}.Subsingleton) → ∃ z, ys = [z]) ∧
    ((∃ v, v ≠ [] ∧ {y | rule.Relates v y}.Infinite) → ∀ z, z ∈ ys ↔
      LeftmostLongestBy (fun v => ∃ y, rule.Relates v y) rule.Relates w z) := by
  have mem_iff (z : Word) : z ∈ ys ↔ LeftmostLongestBy (fun v => ∃ y, rule.Relates v y)
      (appliedRule rule .leftmostLongest).Relates w z := by
    rw [mem_of_process_iff wellFormed_rewriter.closed h, relates_rewriter_iff_leftmostLongestBy hr]
    exact and_iff_right hw
  -- Wherever the rule has an output the applied rule has kept one, so some scan gets to the end.
  obtain ⟨z, hz⟩ : ∃ z, z ∈ ys := by
    simp only [mem_iff]
    exact exists_leftmostLongestBy
      (fun v hne hv => (exists_output_appliedRule_iff hr).mpr ⟨hne, hv⟩) w
  refine ⟨List.ne_nil_of_mem hz, fun hone => ⟨z, ?_⟩, fun hinfinite y => ?_⟩
  · refine eq_singleton_of_ascending (process_ascending h) fun y => ⟨fun hy => ?_, ?_⟩
    · exact ((mem_iff y).mp hy).unique ((mem_iff z).mp hz) (appliedRule_unique hr hone)
    · rintro rfl
      exact hz
  -- With infinitely many outputs the applied rule is the whole rule on non-empty inputs.
  · rw [mem_iff, appliedRule_of_infinite hr hinfinite]
    constructor
    · intro hscan
      exact hscan.congr (fun _ _ => Iff.rfl) fun v y hne hy =>
        ((relates_properRule_iff hr.closed).mp hy).2
    · intro hscan
      exact hscan.congr (fun _ _ => Iff.rfl) fun v y hne hy =>
        (relates_properRule_iff hr.closed).mpr ⟨hne, hy⟩

/-- Two `a` have the four outputs of the scans that write `x` or `y` for each. -/
theorem outputs_leftmostLongest_keepsTies :
    keepsTies.WellFormed ∧ (∃ v, v ≠ [] ∧ {y | keepsTies.Relates v y}.Infinite) ∧
    (keepsTies.rewriter ['a'] .leftmostLongest).process ['a', 'a'] =
      .ok [['x', 'x'], ['x', 'y'], ['y', 'x'], ['y', 'y']] ∧
    ∀ z, z ∈ [['x', 'x'], ['x', 'y'], ['y', 'x'], ['y', 'y']] ↔
      LeftmostLongestBy (fun v => ∃ y, keepsTies.Relates v y) keepsTies.Relates ['a', 'a'] z := by
  have hr : keepsTies.WellFormed := by decide
  have infinite : ∃ v, v ≠ [] ∧ {y | keepsTies.Relates v y}.Infinite :=
    ⟨['z'], List.cons_ne_nil _ _, infinite_outputs_keepsTies⟩
  have processed : (keepsTies.rewriter ['a'] .leftmostLongest).process ['a', 'a'] =
      .ok [['x', 'x'], ['x', 'y'], ['y', 'x'], ['y', 'y']] := by decide +kernel
  obtain ⟨_, _, outputs⟩ := outputs_leftmostLongest keepsTies hr ['a'] ['a', 'a'] (by simp) _
    processed
  exact ⟨hr, infinite, processed, outputs infinite⟩

end Transducer

end Transduction
