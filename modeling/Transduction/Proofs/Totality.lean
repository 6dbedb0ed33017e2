/-
Rewriters have an output for every text.

A guard forbids some ways to go on, and it is not clear from one step that any way is
left.  The leftmost-longest scan of a text is one that no guard ever stops, so the
texts over the alphabet have an output under every policy:

* `Plan.exists_relates_build_iff` — the texts that have an output;
* `Transducer.recognizes_domain_rewriter` — the domain of a rewriter.
-/
import Transduction.Proofs.AppliedRules
import Transduction.Proofs.Recognition

namespace Transduction

namespace Rewriter.Plan

variable {plan : Plan} {w : Word}

/-- The texts over the symbols have an output, and no others do. -/
theorem exists_relates_build_iff (hp : plan.Proper) :
    (∃ z, plan.build.Relates w z) ↔ ∀ c ∈ w, c ∈ plan.symbols := by
  simp only [relates_build_iff hp]
  constructor
  · intro h
    obtain ⟨z, hz⟩ := h
    exact hz.mem_symbols
  · intro hsymbols
    obtain ⟨z, hscan⟩ := exists_leftmostLongestBy (D := plan.Matches) (R := plan.rule.Relates)
      (fun v _ hv => (hp.matches_iff v).mp hv) w
    exact ⟨z, rewrites_of_leftmostLongestBy hsymbols clear_empty hscan⟩

end Rewriter.Plan

namespace Transducer

open Rewriter

/-- The domain of a rewriter is the words over its alphabet, whatever the rule and the
policy. -/
theorem recognizes_domain_rewriter (rule : Transducer) (hr : rule.WellFormed) (A : List Char)
    (policy : Policy) (w : Word) :
    (rule.rewriter A policy).domain.recognizes w = true ↔ ∀ c ∈ w, c ∈ A := by
  have closed : (rule.rewriter A policy).domain.Closed :=
    Machine.closed_mapLabels wellFormed_rewriter.closed
  rw [Acceptor.recognizes_iff closed, accepts_domain_iff, rewriter,
    Plan.exists_relates_build_iff (proper_plan_appliedRule hr)]
  simp only [mem_symbols_plan]

/-- Writes any number of `x` for two `a`. -/
def pairWritesOn : Transducer where
  nodes := #[{ initial := true, moves := [((some 'a', []), 1)] },
    { moves := [((some 'a', []), 2)] },
    { accepting := true, moves := [((none, ['x']), 2)] }]

/-- Three symbols have an output, though the copy of the first rules out a match there
and a match has infinitely many outputs. -/
theorem recognizes_domain_rewriter_pairWritesOn :
    pairWritesOn.WellFormed ∧ ∀ policy,
      (pairWritesOn.rewriter ['a', 'b'] policy).domain.recognizes ['a', 'a', 'a', 'b'] = true ∧
      (pairWritesOn.rewriter ['a', 'b'] policy).domain.recognizes ['a', 'c'] = false := by
  have hr : pairWritesOn.WellFormed := by decide
  refine ⟨hr, fun policy => ⟨?_, Bool.eq_false_iff.mpr fun h => ?_⟩⟩
  · exact (recognizes_domain_rewriter pairWritesOn hr _ policy _).mpr (by simp)
  · have hc := (recognizes_domain_rewriter pairWritesOn hr _ policy _).mp h 'c' (by simp)
    simp at hc

end Transducer

end Transduction
