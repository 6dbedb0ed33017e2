/-
Leftmost-longest scans as rewritings.

Under the leftmost-longest policy the guard is, inside a match, that of the copied text,
and the run of the match joins it at the end.  A guard that lets the rest pass then
excludes a longer match, so what a guard admits depends on the matches ahead alone.  Under
the other policies a guard admits more, but it never stops such a scan either:

* `Plan.exists_matchGuard_iff` — a match is rewritten when it is the longest one and the
  guard lets all of it and the rest pass;
* `Plan.rewrites_of_leftmostLongestBy` — under every policy, the scans of the texts that
  the guard lets pass are rewritings;
* `Plan.rewrites_iff_leftmostLongestBy` — and there are no others under the
  leftmost-longest policy;
* `Plan.relates_build_iff_leftmostLongestBy` — the relation of the rewriter.
-/
import Transduction.Proofs.Rewriting

namespace Transduction.Rewriter.Plan

variable {plan : Plan} {guard guard' : StateSet} {a : Nat} {c : Char} {v w z : Word}
  {kept : Kept}

section policy

variable (hpolicy : plan.policy = .leftmostLongest)

include hpolicy

theorem copyGuard_of_leftmostLongest :
    plan.copyGuard guard c = plan.step? (guard.insert plan.matcher.start) c := by
  rw [copyGuard, hpolicy]

/-- Inside a match the guard and the run of the match go along side by side. -/
theorem follow_read?_iff : follow plan.read? (guard, some a) v = some kept ↔
    ∃ next b, follow plan.step? guard v = some next ∧ follow plan.matcher.delta a v = some b ∧
      kept = (next, some b) := by
  induction v generalizing guard a with
  | nil => simp [eq_comm]
  | cons c v ih =>
    -- One symbol is read by the guard and by the anchor alike.
    have read_iff (kept : Kept) : plan.read? (guard, some a) c = some kept ↔
        ∃ next b, plan.step? guard c = some next ∧ plan.matcher.delta a c = some b ∧
          kept = (next, some b) := by
      simp only [read?, hpolicy, Option.bind_eq_bind, Option.bind_some, Option.bind_eq_some_iff,
        Option.some.injEq]
      constructor
      · rintro ⟨b, hdelta, next, hstep, rfl⟩
        exact ⟨next, b, hstep, hdelta, rfl⟩
      · rintro ⟨next, b, hstep, hdelta, rfl⟩
        exact ⟨b, hdelta, next, hstep, rfl⟩
    simp only [follow_cons_eq_some, read_iff]
    constructor
    · rintro ⟨_, ⟨next, b, hstep, hdelta, rfl⟩, hrest⟩
      obtain ⟨next', b', hnext, hb, rfl⟩ := ih.mp hrest
      exact ⟨next', b', ⟨next, hstep, hnext⟩, ⟨b, hdelta, hb⟩, rfl⟩
    · rintro ⟨next', b', ⟨next, hstep, hnext⟩, ⟨b, hdelta, hb⟩, rfl⟩
      exact ⟨_, ⟨next, b, hstep, hdelta, rfl⟩, ih.mpr ⟨next', b', hnext, hb, rfl⟩⟩

theorem matchGuard_iff : plan.matchGuard guard v = some guard' ↔
    ∃ next b, follow plan.step? guard v = some next ∧
      follow plan.matcher.delta plan.matcher.start v = some b ∧ next.insert b = guard' := by
  have enter_eq : plan.enter guard = (guard, some plan.matcher.start) := by
    rw [enter, hpolicy]
  simp only [matchGuard_eq_some_iff, enter_eq, follow_read?_iff hpolicy]
  constructor
  · rintro ⟨_, ⟨next, b, hnext, hb, rfl⟩, rfl⟩
    exact ⟨next, b, hnext, hb, rfl⟩
  · rintro ⟨next, b, hnext, hb, rfl⟩
    exact ⟨_, ⟨next, b, hnext, hb, rfl⟩, rfl⟩

/-- A match is passed, and so is the rest, when no longer match starts there and the
guard lets all of it pass. -/
theorem exists_matchGuard_iff (hv : plan.Matches v) :
    (∃ guard', plan.matchGuard guard v = some guard' ∧ plan.Clear guard' w) ↔
      (∀ v', v' <+: v ++ w → plan.Matches v' → v'.length ≤ v.length) ∧
        plan.Clear guard (v ++ w) := by
  obtain ⟨b, hb, _⟩ := Dfa.recognizes_iff.mp hv
  rw [← clear_anchor_iff hb, clear_append_iff]
  constructor
  · rintro ⟨_, hguard, hclear⟩
    obtain ⟨next, b', hnext, hb', rfl⟩ := (matchGuard_iff hpolicy).mp hguard
    obtain rfl := Option.some.inj (hb.symm.trans hb')
    obtain ⟨hanchor, hrest⟩ := clear_insert_iff.mp hclear
    exact ⟨hanchor, next, hnext, hrest⟩
  · rintro ⟨hanchor, next, hnext, hrest⟩
    exact ⟨_, (matchGuard_iff hpolicy).mpr ⟨next, b, hnext, hb, rfl⟩,
      clear_insert_iff.mpr ⟨hanchor, hrest⟩⟩

end policy

/-! ### Scans -/

/-- Where no match starts, a symbol may be copied, and the rest is let pass. -/
theorem exists_copyGuard (hnone : NoMatch plan.Matches (c :: w))
    (hclear : plan.Clear guard (c :: w)) :
    ∃ next, plan.copyGuard guard c = some next ∧ plan.Clear next w := by
  rw [copyGuard]
  split
  · exact ⟨.empty, rfl, clear_empty⟩
  · exact exists_step?_start_iff.mpr ⟨hnone, hclear⟩

/-- The longest match that starts here may be rewritten, and the rest is let pass. -/
theorem exists_matchGuard (hlongest : IsLongestMatch plan.Matches (v ++ w) v)
    (hclear : plan.Clear guard (v ++ w)) :
    ∃ next, plan.matchGuard guard v = some next ∧ plan.Clear next w := by
  by_cases hpolicy : plan.policy = .leftmostLongest
  · exact (exists_matchGuard_iff hpolicy hlongest.isMatch).mpr ⟨hlongest.longest, hclear⟩
  · exact ⟨.empty, matchGuard_eq_empty hpolicy, clear_empty⟩

/-- The scan of a text that the guard lets pass is a rewriting, whatever the policy. -/
theorem rewrites_of_leftmostLongestBy (hsymbols : ∀ c ∈ w, c ∈ plan.symbols)
    (hclear : plan.Clear guard w) (hscan : LeftmostLongestBy plan.Matches plan.rule.Relates w z) :
    plan.Rewrites guard w z := by
  induction hscan generalizing guard with
  | done => exact .done
  | @copy c w z hnone _ ih =>
    obtain ⟨next, hnext, hrest⟩ := exists_copyGuard hnone hclear
    exact .copy (hsymbols c List.mem_cons_self) hnext
      (ih (fun d hd => hsymbols d (List.mem_cons_of_mem c hd)) hrest)
  | @rewrite v y w z hlongest hy _ ih =>
    obtain ⟨next, hnext, hrest⟩ := exists_matchGuard hlongest hclear
    exact .rewrite (fun c hc => hsymbols c (List.mem_append_left w hc)) hy hnext
      (ih (fun d hd => hsymbols d (List.mem_append_right v hd)) hrest)

section policy

variable (hpolicy : plan.policy = .leftmostLongest)

include hpolicy

/-- A guard admits the scans of the texts over the symbols that it lets pass. -/
theorem rewrites_iff_leftmostLongestBy (hp : plan.Proper) : plan.Rewrites guard w z ↔
    (∀ c ∈ w, c ∈ plan.symbols) ∧ plan.Clear guard w ∧
      LeftmostLongestBy plan.Matches plan.rule.Relates w z := by
  constructor
  -- The guard forbids all matches that were begun earlier and would end in the text still to
  -- come; each step passes that on.
  · intro h
    refine ⟨h.mem_symbols, ?_⟩
    induction h with
    | done => exact ⟨clear_nil, .done⟩
    | copy _ hguard _ ih =>
      obtain ⟨hclear, hscan⟩ := ih
      rw [copyGuard_of_leftmostLongest hpolicy] at hguard
      obtain ⟨hnone, hpass⟩ := exists_step?_start_iff.mp ⟨_, hguard, hclear⟩
      exact ⟨hpass, .copy hnone hscan⟩
    | @rewrite guard _ v y w z _ hrelates hguard _ ih =>
      obtain ⟨hclear, hscan⟩ := ih
      have hv : plan.Matches v := (hp.matches_iff v).mpr ⟨y, hrelates⟩
      obtain ⟨hlongest, hpass⟩ := (exists_matchGuard_iff hpolicy hv).mp ⟨_, hguard, hclear⟩
      exact ⟨hpass, .rewrite ⟨hp.ne_nil v y hrelates, hv, List.prefix_append v w, hlongest⟩
        hrelates hscan⟩
  · intro h
    exact rewrites_of_leftmostLongestBy h.1 h.2.1 h.2.2

/-- The rewriter relates a text over the symbols to its scans. -/
theorem relates_build_iff_leftmostLongestBy (hp : plan.Proper) : plan.build.Relates w z ↔
    (∀ c ∈ w, c ∈ plan.symbols) ∧ LeftmostLongestBy plan.Matches plan.rule.Relates w z := by
  rw [relates_build_iff hp, rewrites_iff_leftmostLongestBy hpolicy hp,
    and_iff_right (clear_empty (w := w))]

end policy

end Transduction.Rewriter.Plan
