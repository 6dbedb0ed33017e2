/-
Guards of rewriters.

A guard is a set of matcher runs that must not end in a match.  Whether it lets a
text pass depends on the matches ahead alone:

* `Plan.Clear`, `Plan.clear_append_iff` — the texts that a guard lets pass, which it
  does step by step;
* `Plan.clear_start_iff`, `Plan.exists_step?_start_iff` — the run that starts here lets
  pass the texts without a match at the start;
* `Plan.clear_anchor_iff` — the run of a match that is complete lets pass the texts
  that make it no longer.
-/
import Transduction.Proofs.Deterministic
import Transduction.Proofs.LeftmostLongest
import Transduction.Rewriter

namespace Transduction.Rewriter.Plan

variable {plan : Plan} {guard guard' : StateSet} {a r : Nat} {c : Char} {v w : Word}

/-- No run of the guard ends in a match on a non-empty prefix of the text. -/
def Clear (plan : Plan) (guard : StateSet) (w : Word) : Prop :=
  ∀ q ∈ guard, ∀ v, v ≠ [] → v <+: w → ∀ r, follow plan.matcher.delta q v = some r →
    plan.matcher.isAccepting r = false

theorem step?_eq_some_iff : plan.step? guard c = some guard' ↔
    (∀ q ∈ guard, ∀ r, plan.matcher.delta q c = some r → plan.matcher.isAccepting r = false) ∧
      guard' = StateSet.ofList (guard.toList.filterMap fun q => plan.matcher.delta q c) := by
  -- The step fails exactly if some run of the guard would end in a match.
  have none_accepts : ((guard.toList.filterMap fun q => plan.matcher.delta q c).any
      plan.matcher.isAccepting) = true ↔
      ¬∀ q ∈ guard, ∀ r, plan.matcher.delta q c = some r →
        plan.matcher.isAccepting r = false := by
    simp only [List.any_eq_true, List.mem_filterMap, StateSet.mem_toList]
    constructor
    · rintro ⟨r, ⟨q, hq, hr⟩, hacc⟩ hall
      rw [hall q hq r hr] at hacc
      cases hacc
    · intro hall
      by_contra hnone
      refine hall fun q hq r hr => Bool.eq_false_iff.mpr fun hacc => ?_
      exact hnone ⟨r, ⟨q, hq, hr⟩, hacc⟩
  rw [step?]
  split
  · rename_i h
    simp only [reduceCtorEq, false_iff]
    exact fun hall => none_accepts.mp h hall.1
  · rename_i h
    rw [none_accepts, not_not] at h
    constructor
    · exact fun he => ⟨h, (Option.some.inj he).symm⟩
    · rintro ⟨_, rfl⟩
      rfl

theorem mem_of_step? (h : plan.step? guard c = some guard') :
    r ∈ guard' ↔ ∃ q ∈ guard, plan.matcher.delta q c = some r := by
  obtain ⟨_, rfl⟩ := step?_eq_some_iff.mp h
  rw [StateSet.mem_ofList, List.mem_filterMap]
  simp only [StateSet.mem_toList]

@[simp] theorem clear_nil : plan.Clear guard [] := by
  intro q _ v hne hv
  exact absurd (List.prefix_nil.mp hv) hne

/-- A guard lets a text pass when it makes a step and lets the rest pass. -/
theorem clear_cons_iff : plan.Clear guard (c :: w) ↔
    ∃ guard', plan.step? guard c = some guard' ∧ plan.Clear guard' w := by
  constructor
  · intro h
    have step : ∀ q ∈ guard, ∀ r, plan.matcher.delta q c = some r →
        plan.matcher.isAccepting r = false := fun q hq r hr =>
      h q hq [c] (List.cons_ne_nil c []) ⟨w, rfl⟩ r (follow_cons_eq_some.mpr ⟨r, hr, rfl⟩)
    refine ⟨_, step?_eq_some_iff.mpr ⟨step, rfl⟩, fun r hr v hne hv t ht => ?_⟩
    obtain ⟨q, hq, hdelta⟩ := (mem_of_step? (step?_eq_some_iff.mpr ⟨step, rfl⟩)).mp hr
    exact h q hq (c :: v) (List.cons_ne_nil c v) (List.prefix_cons_inj c |>.mpr hv) t
      (follow_cons_eq_some.mpr ⟨r, hdelta, ht⟩)
  · rintro ⟨guard', hstep, hrest⟩ q hq v hne hv t ht
    cases v with
    | nil => exact absurd rfl hne
    | cons d v =>
      obtain ⟨rfl, hvw⟩ := List.cons_prefix_cons.mp hv
      obtain ⟨r, hdelta, ht⟩ := follow_cons_eq_some.mp ht
      -- A prefix of one symbol is what the step checks; a longer one is left to the rest.
      by_cases hempty : v = []
      · subst hempty
        cases ht
        exact (step?_eq_some_iff.mp hstep).1 q hq _ hdelta
      · exact hrest r ((mem_of_step? hstep).mpr ⟨q, hq, hdelta⟩) v hempty hvw t ht

theorem clear_append_iff : plan.Clear guard (v ++ w) ↔
    ∃ guard', follow plan.step? guard v = some guard' ∧ plan.Clear guard' w := by
  induction v generalizing guard with
  | nil => simp
  | cons c v ih =>
    rw [List.cons_append, clear_cons_iff]
    simp only [follow_cons_eq_some, ih]
    constructor
    · rintro ⟨guard₁, hstep, guard₂, hfollow, hclear⟩
      exact ⟨guard₂, ⟨guard₁, hstep, hfollow⟩, hclear⟩
    · rintro ⟨guard₂, ⟨guard₁, hstep, hfollow⟩, hclear⟩
      exact ⟨guard₁, hstep, guard₂, hfollow, hclear⟩

theorem clear_insert_iff : plan.Clear (guard.insert a) w ↔
    plan.Clear (StateSet.ofList [a]) w ∧ plan.Clear guard w := by
  simp only [Clear, StateSet.mem_insert, StateSet.mem_ofList, List.mem_singleton]
  constructor
  · exact fun h => ⟨fun q hq => h q (Or.inl hq), fun q hq => h q (Or.inr hq)⟩
  · rintro ⟨h, h'⟩ q (hq | hq)
    · exact h q hq
    · exact h' q hq

theorem clear_empty : plan.Clear .empty w := fun q hq => absurd hq (StateSet.not_mem_empty q)

/-- The matcher recognizes the matches. -/
abbrev Matches (plan : Plan) (w : Word) : Prop := plan.matcher.recognizes w = true

/-- The run of a match at the start lets pass the texts without a match. -/
theorem clear_start_iff :
    plan.Clear (StateSet.ofList [plan.matcher.start]) w ↔ NoMatch plan.Matches w := by
  simp only [Clear, NoMatch, StateSet.mem_ofList, List.mem_singleton, forall_eq, Matches,
    Dfa.recognizes_iff]
  constructor
  · rintro h v hne hv ⟨r, hr, hacc⟩
    rw [h v hne hv r hr] at hacc
    cases hacc
  · exact fun h v hne hv r hr => Bool.eq_false_iff.mpr fun hacc => h v hne hv ⟨r, hr, hacc⟩

/-- A symbol is passed with the run that starts in front of it, and so is the rest, when
no match starts there and the guard lets all of it pass. -/
theorem exists_step?_start_iff :
    (∃ guard', plan.step? (guard.insert plan.matcher.start) c = some guard' ∧
      plan.Clear guard' w) ↔ NoMatch plan.Matches (c :: w) ∧ plan.Clear guard (c :: w) := by
  rw [← clear_cons_iff, clear_insert_iff, clear_start_iff]

/-- The run of a match that is complete lets pass the texts that make it no longer. -/
theorem clear_anchor_iff (ha : follow plan.matcher.delta plan.matcher.start v = some a) :
    plan.Clear (StateSet.ofList [a]) w ↔
      ∀ v', v' <+: v ++ w → plan.Matches v' → v'.length ≤ v.length := by
  simp only [Clear, StateSet.mem_ofList, List.mem_singleton, forall_eq, Matches,
    Dfa.recognizes_iff]
  constructor
  · rintro h v' hv' ⟨r, hr, hacc⟩
    by_contra hlong
    -- a longer match extends the one that is complete
    obtain ⟨u, rfl⟩ : v <+: v' :=
      List.prefix_of_prefix_length_le (List.prefix_append v w) hv' (by omega)
    have hne : u ≠ [] := by
      rintro rfl
      simp at hlong
    rw [follow_append, ha, Option.bind_some] at hr
    rw [h u hne ((List.prefix_append_right_inj v).mp hv') r hr] at hacc
    cases hacc
  · intro h u hne hu r hr
    refine Bool.eq_false_iff.mpr fun hacc => ?_
    have hlength := h (v ++ u) ((List.prefix_append_right_inj v).mpr hu)
      ⟨r, by rw [follow_append, ha, Option.bind_some, hr], hacc⟩
    have hpos : 0 < u.length := List.length_pos_iff.mpr hne
    rw [List.length_append] at hlength
    omega

end Transduction.Rewriter.Plan
