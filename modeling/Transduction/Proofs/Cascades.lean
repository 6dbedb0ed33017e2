/-
Cascades of leftmost-longest scans.

The relation of a cascade links the relations of its rewriters, and each of them is
the scan by a rule over the alphabet:

* `Stage.IsScan` — the stages with a leftmost-longest scan;
* `Cascade.textAfter`, `Cascade.StaysOver` — the texts between the stages, and when
  all of them that enter a stage are over the alphabet;
* `Cascade.relates_toTransducer_iff` — the relation of a cascade;
* `Cascade.process_toBimachine` — the compiled bimachine.
-/
import Transduction.Cascade
import Transduction.Proofs.AppliedRules

namespace Transduction

/-- A stage with the leftmost-longest policy whose rule has finitely many outputs for
each non-empty input. -/
structure Stage.IsScan (stage : Stage) : Prop where
  policy_eq : stage.policy = .leftmostLongest
  wellFormed_rule : stage.rule.WellFormed
  finite_outputs : ∀ v, v ≠ [] → {y | stage.rule.Relates v y}.Finite

namespace Cascade

variable {A : List Char} {stage : Stage} {stages : List Stage} {c : Cascade} {k : Nat}
  {w z : Word}

/-- The text after the scans of the first `k` stages. -/
noncomputable def textAfter (stages : List Stage) (k : Nat) (w : Word) : Word :=
  (stages.take k).foldl (fun text stage => stage.rule.rewritten text) w

/-- The text that enters the cascade and those that enter its later stages are over the
alphabet. -/
def StaysOver (c : Cascade) (w : Word) : Prop :=
  ∀ k, k = 0 ∨ k < c.stages.length → ∀ s ∈ textAfter c.stages k w, s ∈ c.alphabet

@[simp] theorem textAfter_zero : textAfter stages 0 w = w := rfl

@[simp] theorem textAfter_cons_succ : textAfter (stage :: stages) (k + 1) w =
    textAfter stages k (stage.rule.rewritten w) := rfl

@[simp] theorem textAfter_nil : textAfter stages k [] = [] := by
  induction stages generalizing k with
  | nil => rw [textAfter, List.take_nil, List.foldl_nil]
  | cons stage stages ih =>
    cases k with
    | zero => rfl
    | succ k => rw [textAfter_cons_succ, Transducer.rewritten, scan, ih]

/-- Rewriters one after the other make the scans one after the other, as long as each
text that enters one of them is over the alphabet. -/
theorem relatesThrough_rewriters_iff (h : ∀ stage ∈ stages, stage.IsScan) :
    Transducer.RelatesThrough (stages.map (rewriter A)) w z ↔
      (∀ k < stages.length, ∀ s ∈ textAfter stages k w, s ∈ A) ∧
        z = textAfter stages stages.length w := by
  induction stages generalizing w with
  | nil => simp [Transducer.RelatesThrough, eq_comm]
  | cons stage stages ih =>
    obtain ⟨hpolicy, hrule, hfinite⟩ := h stage List.mem_cons_self
    -- A stage relates a text over the alphabet to its rewritten form and nothing else.
    have relates_iff (y : Word) : (rewriter A stage).Relates w y ↔
        (∀ s ∈ w, s ∈ A) ∧ y = stage.rule.rewritten w := by
      rw [rewriter, hpolicy]
      exact Transducer.relates_rewriter_iff hrule hfinite
    have rest := ih (fun stage hstage => h stage (List.mem_cons_of_mem _ hstage))
      (w := stage.rule.rewritten w)
    simp only [List.map_cons, Transducer.RelatesThrough, relates_iff, List.length_cons,
      Nat.forall_lt_succ_left, textAfter_zero, textAfter_cons_succ]
    constructor
    · rintro ⟨_, ⟨hw, rfl⟩, hrest⟩
      obtain ⟨hlater, hz⟩ := rest.mp hrest
      exact ⟨⟨hw, hlater⟩, hz⟩
    · rintro ⟨⟨hw, hlater⟩, hz⟩
      exact ⟨_, ⟨hw, rfl⟩, rest.mpr ⟨hlater, hz⟩⟩

theorem wellFormed_toTransducer : c.toTransducer.WellFormed := by
  rw [toTransducer]
  cases c.stages with
  | nil =>
    have hletters := (Acceptor.wellFormed_ofSymbols c.alphabet).closed
    rw [List.map_nil, composition, Acceptor.identity]
    exact Machine.wellFormed_mapLabels (Machine.wellFormed_star hletters)
  | cons stage stages =>
    exact Transducer.wellFormed_composeAll Transducer.wellFormed_rewriter

/-- A cascade relates a text to what its scans make of it, if it stays over the
alphabet. -/
theorem relates_toTransducer_iff (h : ∀ stage ∈ c.stages, stage.IsScan) :
    c.toTransducer.Relates w z ↔ c.StaysOver w ∧ z = textAfter c.stages c.stages.length w := by
  obtain ⟨A, stages⟩ := c
  simp only [toTransducer, StaysOver] at h ⊢
  cases stages with
  | nil =>
    simp only [List.map_nil, composition, Acceptor.relates_identity_iff,
      Acceptor.accepts_star_ofSymbols_iff, List.length_nil, Nat.not_lt_zero, or_false, forall_eq,
      textAfter_zero]
    rw [and_comm, eq_comm]
  | cons first others =>
    have first_enters (k : Nat) : (k = 0 ∨ k < (first :: others).length) ↔
        k < (first :: others).length := by
      rw [List.length_cons]
      omega
    simp only [first_enters, ← relatesThrough_rewriters_iff h, List.map_cons, composition]
    refine Transducer.relates_composeAll Transducer.wellFormed_rewriter fun m hm => ?_
    obtain ⟨stage, _, rfl⟩ := List.mem_map.mp hm
    exact Transducer.wellFormed_rewriter

/-- A cascade of leftmost-longest scans compiles, and the bimachine maps a text to what
the scans make of it one after the other, if the text that enters the cascade and those
that enter its later stages are over the alphabet; all other texts are outside the
domain. -/
theorem process_toBimachine (c : Cascade) (h : ∀ stage ∈ c.stages, stage.IsScan) :
    ∃ b, c.toBimachine = .ok b ∧ ∀ w,
      (c.StaysOver w → b.process w = .ok (textAfter c.stages c.stages.length w)) ∧
      (¬c.StaysOver w → ∃ p, b.process w = .error (.outsideDomain p)) := by
  have finite (w : Word) : {z | c.toTransducer.Relates w z}.Finite :=
    (Set.finite_singleton (textAfter c.stages c.stages.length w)).subset fun z hz =>
      ((relates_toTransducer_iff h).mp hz).2
  obtain ⟨m, hm⟩ := Transducer.exists_toRealTime wellFormed_toTransducer.closed finite
  obtain ⟨b, hb, settles⟩ :=
    Transducer.settles_toBimachine (A := c.alphabet) wellFormed_toTransducer.closed hm
  refine ⟨b, hb, fun w => ⟨fun hover => ?_, fun hleaves => ?_⟩⟩
  · have hrelates := (relates_toTransducer_iff h).mpr ⟨hover, rfl⟩
    by_cases hne : w = []
    · subst hne
      exact (settles.process_nil _).mpr ⟨textAfter_nil, _, hrelates⟩
    · obtain ⟨o, ho, hrel⟩ := settles.exists_process w _ hne (hover 0 (Or.inl rfl)) hrelates
      rw [ho, ((relates_toTransducer_iff h).mp hrel).2]
  · refine Bimachine.process_eq_error_of_not fun o ho => ?_
    obtain ⟨_, z, hz⟩ := settles.of_process w o ho
    exact hleaves ((relates_toTransducer_iff h).mp hz).1

theorem isScan_renames {name : String} {a b : Char} {policy : Policy}
    (h : policy = .leftmostLongest) :
    Stage.IsScan { name := name, rule := Transducer.renames a b, policy := policy } where
  policy_eq := h
  wellFormed_rule := Transducer.wellFormed_renames
  finite_outputs := Transducer.finite_outputs_renames

/-- Over `a` and `b`, the first stage writes `c`, and the second one reads `b`. -/
def leavesBetween : Cascade where
  alphabet := ['a', 'b']
  stages := [{ name := "first", rule := Transducer.renames 'a' 'c' },
    { name := "second", rule := Transducer.renames 'b' 'd' }]

/-- A symbol that is not in the alphabet may be written by the last stage, but not
between the stages. -/
theorem process_toBimachine_leavesBetween :
    (∀ stage ∈ leavesBetween.stages, stage.IsScan) ∧
    ∃ b, leavesBetween.toBimachine = .ok b ∧ b.process ['b'] = .ok ['d'] ∧
      ∃ p, b.process ['a'] = .error (.outsideDomain p) := by
  have scans : ∀ stage ∈ leavesBetween.stages, stage.IsScan := by
    intro stage hstage
    rcases List.mem_cons.mp hstage with rfl | hstage
    · exact isScan_renames rfl
    · exact List.mem_singleton.mp hstage ▸ isScan_renames rfl
  -- What stands between the stages has `c` where the text has `a`.
  have between (w : Word) : textAfter leavesBetween.stages 1 w = w.map fun c =>
      if c = 'a' then 'c' else c := Transducer.rewritten_renames w
  have finally_eq : textAfter leavesBetween.stages 2 ['b'] = ['d'] := by
    simp [textAfter, leavesBetween, Transducer.rewritten_renames]
  obtain ⟨b, hb, outputs⟩ := process_toBimachine leavesBetween scans
  refine ⟨scans, b, hb, ?_, (outputs ['a']).2 fun hover => ?_⟩
  · rw [(outputs ['b']).1, ← finally_eq]
    · rfl
    · intro k hk
      have hk : k < 2 := by
        rcases hk with rfl | hk
        · exact Nat.zero_lt_two
        · exact hk
      match k with
      | 0 => simp [leavesBetween]
      | 1 =>
        rw [between]
        simp [leavesBetween]
  -- So `a` brings a symbol before the second stage that is not in the alphabet.
  · have hc := hover 1 (Or.inr Nat.one_lt_two) 'c'
    rw [between] at hc
    exact absurd (hc (by simp)) (by simp [leavesBetween])

end Cascade

end Transduction
