/-
What a rewriter makes of a text.

Under the leftmost-longest policy a rule is applied through its own bimachine, which
settles on one output for each match.  So the rewriter of a rule is a scan:

* `Rewriter.settledOutput`, `Rewriter.relates_settledOutput` — the output that a rule
  settles on, which depends on the rule and the match alone;
* `Rewriter.appliedRule_cases` — the rule as a policy applies it;
* `Rewriter.exists_output_appliedRule_iff`, `Rewriter.relates_appliedRule_iff` — its
  inputs under any policy, and its outputs where it settles on one;
* `Transducer.relates_rewriter_iff_leftmostLongestBy` — the relation of the rewriter of
  any rule;
* `Transducer.rewritten`, `Transducer.relates_rewriter_iff` — the scan by a rule, and
  the relation of its rewriter;
* `Transducer.rewritten_renames` — the scan by a renaming of one symbol;
* `Transducer.process_rewriter` — what the rewriter makes of a word.
-/
import Transduction.Proofs.Choices
import Transduction.Proofs.LeftmostRewriting
import Transduction.Proofs.Unfolding

namespace Transduction

variable {rule : Transducer} {A : List Char} {v w y z : Word}

namespace Rewriter

/-- The output that a rule settles on for a match: the one that the bimachine of the
rule gives. -/
def settledOutput (rule : Transducer) (v : Word) : Word :=
  match (properRule rule).toBimachine (properRule rule).inputAlphabet with
  | .ok b => (b.process v).toOption.getD []
  | .error _ => []

theorem settledOutput_eq {b : Bimachine} {o : Word}
    (hb : (properRule rule).toBimachine (properRule rule).inputAlphabet = .ok b)
    (ho : b.process v = .ok o) : settledOutput rule v = o := by
  rw [settledOutput, hb]
  simp only [ho]
  rfl

section applied

variable {policy : Policy}

/-- A policy applies the rule without its empty input, or the transducer of a bimachine
that settles on its outputs. -/
theorem appliedRule_cases (rule : Transducer) (policy : Policy) :
    appliedRule rule policy = properRule rule ∨ ∃ b,
      (properRule rule).Settles (properRule rule).inputAlphabet b ∧
        appliedRule rule policy = b.toTransducer := by
  cases policy with
  | leftmostLongest =>
    rw [appliedRule, singleOutput]
    split
    · rename_i b hb
      exact Or.inr ⟨b, Transducer.settles_of_toBimachine wellFormed_properRule.closed hb, rfl⟩
    · exact Or.inl rfl
  | _ => exact Or.inl rfl

theorem wellFormed_appliedRule : (appliedRule rule policy).WellFormed := by
  rcases appliedRule_cases rule policy with happlied | ⟨b, _, happlied⟩
  · rw [happlied]
    exact wellFormed_properRule
  · rw [happlied]
    exact Bimachine.wellFormed_toTransducer

variable (hr : rule.WellFormed)

include hr

/-- The rule as a policy applies it has outputs for the non-empty inputs of the rule. -/
theorem exists_output_appliedRule_iff :
    (∃ y, (appliedRule rule policy).Relates v y) ↔ v ≠ [] ∧ ∃ y, rule.Relates v y := by
  have proper_iff : (∃ y, (properRule rule).Relates v y) ↔ v ≠ [] ∧ ∃ y, rule.Relates v y := by
    simp only [relates_properRule_iff hr.closed, exists_and_left]
  rw [← proper_iff]
  rcases appliedRule_cases rule policy with happlied | ⟨b, settles, happlied⟩
  · rw [happlied]
  · simp only [happlied,
      Bimachine.relates_toTransducer settles.wellFormed_right settles.functional_table]
    constructor
    · exact fun ⟨y, hy⟩ => (settles.of_process v y hy).2
    · intro h
      obtain ⟨hne, _⟩ := proper_iff.mp h
      obtain ⟨z, hz⟩ := h
      obtain ⟨o, ho, _⟩ := settles.exists_process v z hne
        (Transducer.mem_inputAlphabet_of_relates hz) hz
      exact ⟨o, ho⟩

/-- The outputs of the rule as a policy applies it are outputs of the rule. -/
theorem relates_of_appliedRule (h : (appliedRule rule policy).Relates v y) :
    rule.Relates v y := by
  suffices hproper : (properRule rule).Relates v y from
    ((relates_properRule_iff hr.closed).mp hproper).2
  rcases appliedRule_cases rule policy with happlied | ⟨b, settles, happlied⟩
  · rwa [happlied] at h
  · rw [happlied,
      Bimachine.relates_toTransducer settles.wellFormed_right settles.functional_table] at h
    obtain ⟨hsymbols, z, hz⟩ := settles.of_process v y h
    obtain ⟨hne, _⟩ := (relates_properRule_iff hr.closed).mp hz
    obtain ⟨o, ho, hrelates⟩ := settles.exists_process v z hne hsymbols hz
    rwa [Except.ok.inj (h.symm.trans ho)]

theorem proper_plan_appliedRule : (plan (appliedRule rule policy) A policy).Proper :=
  proper_plan wellFormed_appliedRule.closed fun _ y h =>
    ((exists_output_appliedRule_iff hr).mp ⟨y, h⟩).1

/-- The matches of a rewriter are the non-empty inputs of its rule. -/
theorem matches_plan_appliedRule_iff (hne : v ≠ []) :
    (plan (appliedRule rule policy) A policy).Matches v ↔ ∃ y, rule.Relates v y := by
  rw [(proper_plan_appliedRule hr).matches_iff, rule_plan, exists_output_appliedRule_iff hr]
  exact and_iff_right hne

end applied

section finite

variable (hr : rule.WellFormed) (hfinite : ∀ v, v ≠ [] → {y | rule.Relates v y}.Finite)

include hr hfinite

/-- The rule has a bimachine, for without the empty input no input has infinitely many
outputs. -/
theorem settles_properRule : ∃ b,
    (properRule rule).toBimachine (properRule rule).inputAlphabet = .ok b ∧
      (properRule rule).Settles (properRule rule).inputAlphabet b := by
  have finite (v : Word) : {y | (properRule rule).Relates v y}.Finite := by
    by_cases hne : v = []
    · refine Set.finite_empty.subset fun y hy => ?_
      exact ((relates_properRule_iff hr.closed).mp hy).1 hne
    · exact (hfinite v hne).subset fun y hy => ((relates_properRule_iff hr.closed).mp hy).2
  obtain ⟨m, hm⟩ := Transducer.exists_toRealTime wellFormed_properRule.closed finite
  exact Transducer.settles_toBimachine wellFormed_properRule.closed hm

/-- The rule as it is applied: its non-empty matches, each with the output that the
rule settles on. -/
theorem relates_appliedRule_iff : (appliedRule rule .leftmostLongest).Relates v y ↔
    v ≠ [] ∧ (∃ z, rule.Relates v z) ∧ y = settledOutput rule v := by
  obtain ⟨b, hb, settles⟩ := settles_properRule hr hfinite
  have applied_eq : appliedRule rule .leftmostLongest = b.toTransducer := by
    rw [appliedRule, singleOutput, hb]
  rw [applied_eq, Bimachine.relates_toTransducer settles.wellFormed_right settles.functional_table]
  constructor
  · intro h
    obtain ⟨_, z, hz⟩ := settles.of_process v y h
    obtain ⟨hne, hz⟩ := (relates_properRule_iff hr.closed).mp hz
    exact ⟨hne, ⟨z, hz⟩, (settledOutput_eq hb h).symm⟩
  · rintro ⟨hne, ⟨z, hz⟩, hy⟩
    have hproper := (relates_properRule_iff hr.closed).mpr ⟨hne, hz⟩
    obtain ⟨o, ho, _⟩ := settles.exists_process v z hne
      (Transducer.mem_inputAlphabet_of_relates hproper) hproper
    rw [hy, settledOutput_eq hb ho, ho]

/-- The output that a rule settles on is one of its outputs. -/
theorem relates_settledOutput (hne : v ≠ []) (h : ∃ z, rule.Relates v z) :
    rule.Relates v (settledOutput rule v) :=
  relates_of_appliedRule hr ((relates_appliedRule_iff hr hfinite).mpr ⟨hne, h, rfl⟩)

end finite

end Rewriter

namespace Transducer

open Rewriter

open Classical in
/-- What the scan by a rule makes of a text: it rewrites the longest match wherever one
starts. -/
noncomputable def rewritten (rule : Transducer) (w : Word) : Word :=
  scan (fun v => ∃ y, rule.Relates v y) (settledOutput rule) w

theorem wellFormed_rewriter {policy : Policy} : (rule.rewriter A policy).WellFormed :=
  Plan.wellFormed_build _

/-- The rewriter relates the words over the alphabet to the scans that write the outputs
of the rule as the policy applies it. -/
theorem relates_rewriter_iff_leftmostLongestBy (hr : rule.WellFormed) :
    (rule.rewriter A .leftmostLongest).Relates w z ↔ (∀ c ∈ w, c ∈ A) ∧
      LeftmostLongestBy (fun v => ∃ y, rule.Relates v y)
        (appliedRule rule .leftmostLongest).Relates w z := by
  rw [rewriter, Plan.relates_build_iff_leftmostLongestBy policy_plan (proper_plan_appliedRule hr),
    rule_plan]
  simp only [mem_symbols_plan]
  refine and_congr_right fun _ => ⟨fun h => ?_, fun h => ?_⟩
  · exact h.congr (fun v hne => matches_plan_appliedRule_iff hr hne) fun _ _ _ hy => hy
  · exact h.congr (fun v hne => (matches_plan_appliedRule_iff hr hne).symm) fun _ _ _ hy => hy

section finite

variable (hr : rule.WellFormed) (hfinite : ∀ v, v ≠ [] → {y | rule.Relates v y}.Finite)

include hr hfinite

open Classical in
/-- The rewriter relates the words over the alphabet to what the scan makes of them. -/
theorem relates_rewriter_iff : (rule.rewriter A .leftmostLongest).Relates w z ↔
    (∀ c ∈ w, c ∈ A) ∧ z = rule.rewritten w := by
  rw [relates_rewriter_iff_leftmostLongestBy hr, rewritten, eq_comm, ← leftmostLongest_iff]
  refine and_congr_right fun _ => ⟨fun h => ?_, fun h => ?_⟩
  · exact h.leftmostLongest fun v y _ _ hy => ((relates_appliedRule_iff hr hfinite).mp hy).2.2
  · exact .of_leftmostLongest h fun v hne hv =>
      (relates_appliedRule_iff hr hfinite).mpr ⟨hne, hv, rfl⟩

/-- The rewriter has one output for a word over the alphabet. -/
theorem finite_outputs_rewriter (w : Word) :
    {z | (rule.rewriter A .leftmostLongest).Relates w z}.Finite :=
  (Set.finite_singleton (rule.rewritten w)).subset fun _ hz =>
    ((relates_rewriter_iff hr hfinite).mp hz).2

end finite

/-! ### Renaming a symbol -/

/-- Maps one symbol to another. -/
def renames (a b : Char) : Transducer where
  nodes := #[{ initial := true, moves := [((some a, [b]), 1)] }, { accepting := true }]

section renames

variable {a b : Char} {x y : Word}

theorem relates_renames_iff : (renames a b).Relates x y ↔ x = [a] ∧ y = [b] := by
  have moves_one (l : Option Char × Word) (t : Nat) : (l, t) ∉ (renames a b).moves 1 :=
    List.not_mem_nil
  rw [relates_iff]
  constructor
  · rintro ⟨ls, ⟨p, q, hp, hpath, hq⟩, rfl, rfl⟩
    have start_eq : p = 0 := by
      match p with
      | 0 => rfl
      | 1 => cases hp
      | p + 2 => cases hp
    subst start_eq
    cases hpath with
    | nil => cases hq
    | cons hfirst hrest =>
      cases List.mem_singleton.mp hfirst
      cases hrest with
      | nil => exact ⟨rfl, rfl⟩
      | cons hsecond _ => exact absurd hsecond (moves_one _ _)
  · rintro ⟨rfl, rfl⟩
    exact ⟨_, ⟨0, 1, rfl, .single List.mem_cons_self, rfl⟩, rfl, rfl⟩

theorem wellFormed_renames : (renames a b).WellFormed :=
  Machine.wellFormed_iff.mpr (by simp +contextual [renames, Machine.size])

theorem finite_outputs_renames (v : Word) (_ : v ≠ []) : {y | (renames a b).Relates v y}.Finite :=
  (Set.finite_singleton [b]).subset fun _ hy => (relates_renames_iff.mp hy).2

open Classical in
/-- The scan by a renaming goes through a text symbol by symbol. -/
theorem rewritten_renames (w : Word) :
    (renames a b).rewritten w = w.map fun c => if c = a then b else c := by
  rw [Transducer.rewritten]
  induction w with
  | nil =>
    rw [scan]
    rfl
  | cons c w ih =>
    by_cases hc : c = a
    · subst hc
      -- The symbol renamed is a longest match of its own, and nothing matches at any other.
      have longest : IsLongestMatch (fun v => ∃ y, (renames c b).Relates v y) ([c] ++ w) [c] := by
        refine ⟨by simp, ⟨[b], relates_renames_iff.mpr ⟨rfl, rfl⟩⟩, List.prefix_append [c] w, ?_⟩
        rintro v _ ⟨y, hy⟩
        exact (congrArg List.length (relates_renames_iff.mp hy).1).le
      have settled := (relates_renames_iff.mp (relates_settledOutput wellFormed_renames
        finite_outputs_renames longest.ne_nil longest.isMatch)).2
      rw [← List.singleton_append, scan_of_isLongestMatch longest, settled, ih, List.map_append,
        List.map_singleton, if_pos rfl]
    · have none_starts : NoMatch (fun v => ∃ y, (renames a b).Relates v y) (c :: w) := by
        rintro v _ hv ⟨y, hy⟩
        obtain rfl := (relates_renames_iff.mp hy).1
        exact hc (List.cons_prefix_cons.mp hv).1.symm
      rw [scan_of_noMatch none_starts, ih, List.map_cons, if_neg hc]

end renames

open Classical in
/-- Under the leftmost-longest policy a rule settles on one of its outputs for each
match, and the rewriter maps every word over the alphabet to what the scan that writes
these outputs makes of it, and no other word. -/
theorem process_rewriter (rule : Transducer) (hr : rule.WellFormed)
    (hfinite : ∀ v, v ≠ [] → {y | rule.Relates v y}.Finite) :
    (∀ v, v ≠ [] → (∃ y, rule.Relates v y) → rule.Relates v (settledOutput rule v)) ∧
    ∀ A w, ((∀ c ∈ w, c ∈ A) → (rule.rewriter A .leftmostLongest).process w =
        .ok [scan (fun v => ∃ y, rule.Relates v y) (settledOutput rule) w]) ∧
      ((∃ c ∈ w, c ∉ A) → (rule.rewriter A .leftmostLongest).process w = .ok []) := by
  refine ⟨fun v => relates_settledOutput hr hfinite, fun A w => ?_⟩
  obtain ⟨ys, hys, hascending, mem_iff⟩ :=
    exists_process wellFormed_rewriter.closed (finite_outputs_rewriter hr hfinite) w
  rw [hys]
  simp only [relates_rewriter_iff hr hfinite] at mem_iff
  constructor
  · intro hw
    refine congrArg _ (eq_singleton_of_ascending hascending fun y => ?_)
    rw [mem_iff]
    exact and_iff_right hw
  · rintro ⟨c, hc, hA⟩
    refine congrArg _ (List.eq_nil_iff_forall_not_mem.mpr fun y hy => ?_)
    exact hA (((mem_iff y).mp hy).1 c hc)

/-- Writes `x` for one `a`, and `y` or `z` for two. -/
def shortens : Transducer where
  nodes := #[{ initial := true, moves := [((some 'a', ['x']), 1), ((some 'a', ['y']), 2),
      ((some 'a', ['z']), 2)] }, { accepting := true }, { moves := [((some 'a', []), 1)] }]

open Classical in
/-- Three symbols are a match of two and one of one, and a text with another symbol has
no output. -/
theorem process_rewriter_shortens :
    shortens.WellFormed ∧ (∀ v, v ≠ [] → {y | shortens.Relates v y}.Finite) ∧
    (∃ o ∈ [['y'], ['z']], (shortens.rewriter ['a'] .leftmostLongest).process ['a', 'a', 'a'] =
      .ok [o ++ ['x']]) ∧
    (shortens.rewriter ['a'] .leftmostLongest).process ['a', 'b'] = .ok [] := by
  have hm : shortens.WellFormed := by decide
  have real : shortens.toRealTime = .ok shortens.trim.folded := by decide
  have finite : ∀ v, v ≠ [] → {y | shortens.Relates v y}.Finite := fun v _ =>
    finite_outputs_of_toRealTime hm.closed real v
  have one : shortens.process ['a'] = .ok [['x']] := by decide
  have two : shortens.process ['a', 'a'] = .ok [['y'], ['z']] := by decide
  have three : shortens.process ['a', 'a', 'a'] = .ok [] := by decide
  obtain ⟨settled, scans⟩ := process_rewriter shortens hm finite
  -- At the front of three `a` two are the longest match, since three have no output.
  have pair : IsLongestMatch (fun v => ∃ y, shortens.Relates v y) ['a', 'a', 'a'] ['a', 'a'] := by
    refine ⟨by simp, ⟨['y'], (mem_of_process_iff hm.closed two).mp (by simp)⟩, ⟨['a'], rfl⟩, ?_⟩
    rintro v hv ⟨y, hy⟩
    by_contra hlong
    obtain rfl := hv.eq_of_length (Nat.le_antisymm hv.length_le (Nat.lt_of_not_le hlong))
    exact List.not_mem_nil ((mem_of_process_iff hm.closed three).mpr hy)
  -- What is left is one `a`, and a match of its own.
  have last : IsLongestMatch (fun v => ∃ y, shortens.Relates v y) ['a'] ['a'] :=
    ⟨by simp, ⟨['x'], (mem_of_process_iff hm.closed one).mp (by simp)⟩, ⟨[], rfl⟩,
      fun v hv _ => hv.length_le⟩
  have scanned : LeftmostLongest (fun v => ∃ y, shortens.Relates v y) (settledOutput shortens)
      ['a', 'a', 'a'] (settledOutput shortens ['a', 'a'] ++ (settledOutput shortens ['a'] ++ [])) :=
    .rewrite (v := ['a', 'a']) (w := ['a']) pair (.rewrite (v := ['a']) (w := []) last .done)
  have hpair := (mem_of_process_iff hm.closed two).mpr (settled _ pair.ne_nil pair.isMatch)
  have hlast := (mem_of_process_iff hm.closed one).mpr (settled _ last.ne_nil last.isMatch)
  refine ⟨hm, finite, ⟨_, hpair, ?_⟩, (scans ['a'] ['a', 'b']).2 ⟨'b', by simp, by decide⟩⟩
  rw [(scans ['a'] ['a', 'a', 'a']).1 (by simp), leftmostLongest_iff.mp scanned,
    List.mem_singleton.mp hlast, List.append_nil]

end Transducer

end Transduction
