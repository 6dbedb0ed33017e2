/-
Rewritings by decompositions.

A policy that looks for no longest match splits a text into copied stretches and
matches.  A match forgets the guard in front of it, so each stretch is copied as if the
text began with it:

* `Decomposes` — the outputs of the decompositions of a text, and `finite_decomposes`,
  which bounds them;
* `Plan.rewrites_iff_decomposes` — the rewritings of a plan are the outputs of the
  decompositions with stretches that its guard follows;
* `Plan.copies_iff_noInfix` — under the obligatory policy the guard follows the stretches
  without a match inside;
* `Transducer.relates_rewriter_iff_copies`, `Transducer.process_of_relates_iff_decomposes` —
  the rewriter of a rule under either policy, and what it lists;
* `Transducer.relates_rewriter_iff_decomposes`, `process_rewriter_obligatory` — the
  obligatory rewriter of a rule.
-/
import Mathlib.Data.Finite.Prod
import Mathlib.Data.List.Sublists
import Mathlib.Data.Set.Finite.Lattice
import Transduction.Proofs.AppliedRules

namespace Transduction

variable {Copied Copied' : Word → Prop} {R R' : Word → Word → Prop} {D D' : Word → Prop}
  {c : Char} {u v w x y z : Word}

/-- No non-empty infix of the text is a match. -/
def NoInfix (D : Word → Prop) (u : Word) : Prop := ∀ v, v ≠ [] → v <:+: u → ¬D v

theorem NoInfix.congr (hD : ∀ v, v ≠ [] → (D v ↔ D' v)) (h : NoInfix D u) : NoInfix D' u :=
  fun v hne hv hv' => h v hne hv ((hD v hne).mpr hv')

theorem noInfix_nil : NoInfix D [] := fun _ hne hv => absurd (List.infix_nil.mp hv) hne

/-- A match inside a text starts at its first symbol or inside the rest. -/
theorem noInfix_cons_iff : NoInfix D (c :: u) ↔ NoMatch D (c :: u) ∧ NoInfix D u := by
  constructor
  · intro h
    exact ⟨fun v hne hv => h v hne hv.isInfix,
      fun v hne hv => h v hne (List.infix_cons_iff.mpr (Or.inr hv))⟩
  · intro h v hne hv
    rcases List.infix_cons_iff.mp hv with hprefix | hinfix
    · exact h.1 v hne hprefix
    · exact h.2 v hne hinfix

/-- The second text comes from the first one by copying stretches and rewriting the
non-empty matches between them. -/
inductive Decomposes (Copied : Word → Prop) (R : Word → Word → Prop) : Word → Word → Prop where
  | last {u : Word} : Copied u → Decomposes Copied R u u
  | next {u v y w z : Word} : Copied u → v ≠ [] → R v y → Decomposes Copied R w z →
      Decomposes Copied R (u ++ (v ++ w)) (u ++ (y ++ z))

theorem Decomposes.mono (hC : ∀ u, Copied u → Copied' u) (hR : ∀ v y, v ≠ [] → R v y → R' v y)
    (h : Decomposes Copied R w z) : Decomposes Copied' R' w z := by
  induction h with
  | last hu => exact .last (hC _ hu)
  | next hu hne hy _ ih => exact .next (hC _ hu) hne (hR _ _ hne hy) ih

/-- A text has finitely many splits around a match. -/
theorem finite_splits (w : Word) : {split : Word × Word × Word |
    w = split.1 ++ (split.2.1 ++ split.2.2) ∧ split.2.1 ≠ []}.Finite := by
  have finite_parts : {v : Word | v ∈ w.sublists}.Finite := List.finite_toSet _
  refine (finite_parts.prod (finite_parts.prod finite_parts)).subset ?_
  rintro ⟨u, v, x⟩ ⟨rfl, _⟩
  have rest : (v ++ x).Sublist (u ++ (v ++ x)) := List.sublist_append_right u _
  exact ⟨List.mem_sublists.mpr (List.sublist_append_left u _),
    List.mem_sublists.mpr ((List.sublist_append_left v x).trans rest),
    List.mem_sublists.mpr ((List.sublist_append_right v x).trans rest)⟩

/-- Where each part of a text has finitely many outputs, so do its decompositions. -/
theorem finite_decomposes (h : ∀ v, v ≠ [] → v <:+: w → {y | R v y}.Finite) :
    {z | Decomposes Copied R w z}.Finite := by
  induction hn : w.length using Nat.strongRecOn generalizing w with
  | ind n ih =>
    subst hn
    -- an output behind the first match is one of the match and one of the rest
    have finite_behind : ∀ split ∈ {split : Word × Word × Word |
        w = split.1 ++ (split.2.1 ++ split.2.2) ∧ split.2.1 ≠ []},
        (Set.image2 (fun y z => split.1 ++ (y ++ z)) {y | R split.2.1 y}
          {z | Decomposes Copied R split.2.2 z}).Finite := by
      rintro ⟨u, v, x⟩ ⟨rfl, hne⟩
      have hshorter : x.length < (u ++ (v ++ x)).length := by
        have hpos : 0 < v.length := List.length_pos_iff.mpr hne
        simp only [List.length_append]
        omega
      have hx : x <:+ u ++ (v ++ x) := (List.suffix_append v x).trans (List.suffix_append u _)
      refine (h v hne ⟨u, x, List.append_assoc u v x⟩).image2 _ (ih x.length hshorter ?_ rfl)
      exact fun v hne hv => h v hne (hv.trans hx.isInfix)
    refine (((finite_splits w).biUnion finite_behind).insert w).subset fun z hz => ?_
    cases hz with
    | last _ => exact Set.mem_insert _ _
    | @next u v y x z' _ hne hy hz' =>
      exact Set.mem_insert_of_mem _
        (Set.mem_biUnion (x := (u, v, x)) ⟨rfl, hne⟩ ⟨y, hy, z', hz', rfl⟩)

/-! ### Plans whose matches forget the guard -/

namespace Rewriter.Plan

variable {plan : Plan} {guard guard' : StateSet}

/-- The guard follows a stretch that is copied from where nothing is guarded. -/
def Copies (plan : Plan) (u : Word) : Prop := ∃ guard, follow plan.copyGuard .empty u = some guard

theorem Rewrites.copies (hsymbols : ∀ c ∈ u, c ∈ plan.symbols)
    (hguard : follow plan.copyGuard guard u = some guard') (h : plan.Rewrites guard' w z) :
    plan.Rewrites guard (u ++ w) (u ++ z) := by
  induction u generalizing guard with
  | nil =>
    cases hguard
    exact h
  | cons c u ih =>
    obtain ⟨next, hnext, hguard⟩ := follow_cons_eq_some.mp hguard
    exact .copy (hsymbols c List.mem_cons_self) hnext
      (ih (fun d hd => hsymbols d (List.mem_cons_of_mem c hd)) hguard)

section policy

variable (hpolicy : plan.policy ≠ .leftmostLongest)

include hpolicy

/-- A rewriting behind a stretch that has been copied is the output of a
decomposition. -/
theorem Rewrites.decomposes (hp : plan.Proper) (h : plan.Rewrites guard w z) :
    ∀ front, follow plan.copyGuard .empty front = some guard →
      Decomposes plan.Copies plan.rule.Relates (front ++ w) (front ++ z) := by
  induction h with
  | @done guard =>
    intro front hfront
    rw [List.append_nil]
    exact .last ⟨guard, hfront⟩
  | @copy guard next c w z _ hnext _ ih =>
    intro front hfront
    -- the symbol joins the stretch that has been copied
    have hlonger := ih (front ++ [c]) (by rw [follow_concat, hfront, Option.bind_some, hnext])
    rwa [List.append_assoc, List.append_assoc] at hlonger
  | @rewrite guard next v y w z _ hy hnext _ ih =>
    intro front hfront
    obtain rfl := Option.some.inj (hnext.symm.trans (matchGuard_eq_empty hpolicy))
    exact .next ⟨guard, hfront⟩ (hp.ne_nil v y hy) hy (ih [] rfl)

/-- Without a guard, the rewritings are the outputs of the decompositions of the texts
over the symbols. -/
theorem rewrites_iff_decomposes (hp : plan.Proper) : plan.Rewrites .empty w z ↔
    (∀ c ∈ w, c ∈ plan.symbols) ∧ Decomposes plan.Copies plan.rule.Relates w z := by
  constructor
  · exact fun h => ⟨h.mem_symbols, h.decomposes hpolicy hp [] rfl⟩
  · intro h
    obtain ⟨hsymbols, hdecomposes⟩ := h
    induction hdecomposes with
    | @last u hu =>
      obtain ⟨guard, hguard⟩ := hu
      have hcopied := Rewrites.copies hsymbols hguard .done
      rwa [List.append_nil] at hcopied
    | @next u v y w z hu _ hy _ ih =>
      obtain ⟨guard, hguard⟩ := hu
      refine Rewrites.copies (fun c hc => hsymbols c (List.mem_append_left _ hc)) hguard
        (.rewrite (fun c hc => ?_) hy (matchGuard_eq_empty hpolicy) (ih fun c hc => ?_))
      · exact hsymbols c (List.mem_append_right u (List.mem_append_left w hc))
      · exact hsymbols c (List.mem_append_right u (List.mem_append_right v hc))

end policy

/-! ### Stretches without a match -/

/-- Under the obligatory policy a guard follows the stretches that it lets pass and that
have no match inside. -/
theorem exists_follow_copyGuard_iff (hpolicy : plan.policy = .obligatory) :
    (∃ guard', follow plan.copyGuard guard u = some guard') ↔
      plan.Clear guard u ∧ NoInfix plan.Matches u := by
  induction u generalizing guard with
  | nil =>
    rw [and_iff_left noInfix_nil, follow_nil]
    exact iff_of_true ⟨guard, rfl⟩ clear_nil
  | cons c u ih =>
    have copyGuard_eq : plan.copyGuard guard c =
        plan.step? (guard.insert plan.matcher.start) c := by
      rw [copyGuard, hpolicy]
    calc (∃ guard', follow plan.copyGuard guard (c :: u) = some guard')
        ↔ ∃ next, plan.step? (guard.insert plan.matcher.start) c = some next ∧
            plan.Clear next u ∧ NoInfix plan.Matches u := by
          simp only [follow_cons_eq_some, copyGuard_eq]
          rw [exists_comm]
          simp only [exists_and_left, ih]
      _ ↔ (NoMatch plan.Matches (c :: u) ∧ plan.Clear guard (c :: u)) ∧
            NoInfix plan.Matches u := by
          simp only [← exists_step?_start_iff, ← and_assoc, exists_and_right]
      _ ↔ plan.Clear guard (c :: u) ∧ NoInfix plan.Matches (c :: u) := by
          rw [noInfix_cons_iff, and_comm (a := NoMatch _ _), and_assoc]

theorem copies_iff_noInfix (hpolicy : plan.policy = .obligatory) :
    plan.Copies u ↔ NoInfix plan.Matches u :=
  (exists_follow_copyGuard_iff hpolicy).trans (and_iff_right clear_empty)

end Rewriter.Plan

/-! ### Rewriters that look for no longest match -/

namespace Transducer

open Rewriter

variable {rule m : Transducer} {A : List Char} {policy : Policy}

/-- The rewriter relates the words over the alphabet to the outputs of the decompositions
whose stretches the guard follows. -/
theorem relates_rewriter_iff_copies (hr : rule.WellFormed) (hpolicy : policy ≠ .leftmostLongest) :
    (rule.rewriter A policy).Relates w z ↔ (∀ c ∈ w, c ∈ A) ∧
      Decomposes (plan (appliedRule rule policy) A policy).Copies rule.Relates w z := by
  have hp : (plan (appliedRule rule policy) A policy).Proper := proper_plan_appliedRule hr
  have applied_eq : appliedRule rule policy = properRule rule := by
    cases policy with
    | leftmostLongest => exact absurd rfl hpolicy
    | _ => rfl
  have applied_iff (v y : Word) (hne : v ≠ []) :
      (appliedRule rule policy).Relates v y ↔ rule.Relates v y := by
    rw [applied_eq, relates_properRule_iff hr.closed, and_iff_right hne]
  rw [rewriter, Plan.relates_build_iff hp, Plan.rewrites_iff_decomposes (by simpa) hp, rule_plan]
  simp only [mem_symbols_plan]
  refine and_congr_right fun _ => ⟨fun h => ?_, fun h => ?_⟩
  · exact h.mono (fun _ hu => hu) fun v y hne => (applied_iff v y hne).mp
  · exact h.mono (fun _ hu => hu) fun v y hne => (applied_iff v y hne).mpr

/-- Where the words over the alphabet are related to the outputs of their decompositions, and
the matches have finitely many outputs, all of the outputs are listed. -/
theorem process_of_relates_iff_decomposes (hm : m.Closed)
    (hrelates : ∀ x z, m.Relates x z ↔ (∀ c ∈ x, c ∈ A) ∧ Decomposes Copied rule.Relates x z)
    (hfinite : ∀ v, v ≠ [] → (∀ c ∈ v, c ∈ A) → {y | rule.Relates v y}.Finite) (w : Word) :
    ((∀ c ∈ w, c ∈ A) → ∃ ys, m.process w = .ok ys ∧
      (ys.Pairwise fun y z => compare y z = .lt) ∧
      ∀ z, z ∈ ys ↔ Decomposes Copied rule.Relates w z) ∧
    ((∃ c ∈ w, c ∉ A) → m.process w = .ok []) := by
  -- Every word has finitely many outputs: over the alphabet by assumption, elsewhere none.
  have finite (x : Word) : {z | m.Relates x z}.Finite := by
    simp only [hrelates]
    by_cases hx : ∀ c ∈ x, c ∈ A
    · refine (finite_decomposes fun v hne hv => ?_).subset fun z hz => hz.2
      exact hfinite v hne fun c hc => hx c (hv.subset hc)
    · exact Set.finite_empty.subset fun z hz => hx hz.1
  obtain ⟨ys, hys, hascending, mem_iff⟩ := exists_process hm finite w
  simp only [hrelates] at mem_iff
  constructor
  · intro hw
    exact ⟨ys, hys, hascending, fun z => (mem_iff z).trans (and_iff_right hw)⟩
  · rintro ⟨c, hc, hA⟩
    have none_listed : ys = [] :=
      List.eq_nil_iff_forall_not_mem.mpr fun z hz => hA (((mem_iff z).mp hz).1 c hc)
    rw [hys, none_listed]

/-! ### The obligatory rewriter of a rule -/

/-- The obligatory rewriter relates the words over the alphabet to the outputs of their
decompositions without a match in a copied stretch. -/
theorem relates_rewriter_iff_decomposes (hr : rule.WellFormed) :
    (rule.rewriter A .obligatory).Relates w z ↔ (∀ c ∈ w, c ∈ A) ∧
      Decomposes (NoInfix fun v => ∃ y, rule.Relates v y) rule.Relates w z := by
  rw [relates_rewriter_iff_copies hr (by simp)]
  refine and_congr_right fun _ => ⟨fun h => ?_, fun h => ?_⟩
  · refine h.mono (fun u hu => ?_) fun _ _ _ hy => hy
    exact ((Plan.copies_iff_noInfix policy_plan).mp hu).congr fun v hne =>
      matches_plan_appliedRule_iff hr hne
  · refine h.mono (fun u hu => ?_) fun _ _ _ hy => hy
    exact (Plan.copies_iff_noInfix policy_plan).mpr
      (hu.congr fun v hne => (matches_plan_appliedRule_iff hr hne).symm)

/-- Where the non-empty words over the alphabet have finitely many outputs, the
obligatory rewriter lists for each of them the outputs of all its decompositions with no
match inside a copied stretch, and nothing for a word with another symbol. -/
theorem process_rewriter_obligatory (rule : Transducer) (hr : rule.WellFormed) (A : List Char)
    (hfinite : ∀ v, v ≠ [] → (∀ c ∈ v, c ∈ A) → {y | rule.Relates v y}.Finite) (w : Word) :
    ((∀ c ∈ w, c ∈ A) → ∃ ys, (rule.rewriter A .obligatory).process w = .ok ys ∧
      (ys.Pairwise fun y z => compare y z = .lt) ∧
      ∀ z, z ∈ ys ↔ Decomposes (NoInfix fun v => ∃ y, rule.Relates v y) rule.Relates w z) ∧
    ((∃ c ∈ w, c ∉ A) → (rule.rewriter A .obligatory).process w = .ok []) :=
  process_of_relates_iff_decomposes wellFormed_rewriter.closed
    (fun _ _ => relates_rewriter_iff_decomposes hr) hfinite w

/-- Writes `b` for two `a`, and any number of `q` for a `z`. -/
def pairsAway : Transducer where
  nodes := #[{ initial := true, moves := [((some 'a', []), 1), ((some 'z', []), 3)] },
    { moves := [((some 'a', ['b']), 2)] }, { accepting := true },
    { accepting := true, moves := [((none, ['q']), 3)] }]

theorem of_relates_pairsAway (h : pairsAway.Relates x y) :
    (x = ['a', 'a'] ∧ y = ['b']) ∨ 'z' ∈ x := by
  obtain ⟨ls, ⟨p, q, hp, hpath, hq⟩, rfl, rfl⟩ := relates_iff.mp h
  have start_eq : p = 0 := by
    match p with
    | 0 => rfl
    | 1 | 2 | 3 => cases hp
    | p + 4 => cases hp
  subst start_eq
  cases hpath with
  | nil => cases hq
  | @cons _ t _ l ls hfirst hrest =>
    have first : (l, t) = ((some 'a', []), 1) ∨ (l, t) = ((some 'z', []), 3) := by
      simpa [pairsAway, Machine.moves] using hfirst
    rcases first with hfirst | hfirst
    · cases hfirst
      cases hrest with
      | nil => cases hq
      | cons hsecond hrest =>
        cases List.mem_singleton.mp hsecond
        cases hrest with
        | nil => exact Or.inl ⟨rfl, rfl⟩
        | cons hthird _ => exact absurd hthird List.not_mem_nil
    · cases hfirst
      exact Or.inr List.mem_cons_self

/-- Three symbols have one match in two places, and the branch with any number of
outputs, which reads another symbol, does not matter. -/
theorem process_rewriter_obligatory_pairsAway :
    pairsAway.WellFormed ∧
    (∀ v, v ≠ [] → (∀ c ∈ v, c ∈ ['a']) → {y | pairsAway.Relates v y}.Finite) ∧
    (∃ ys, (pairsAway.rewriter ['a'] .obligatory).process ['a', 'a', 'a'] = .ok ys ∧
      ['a', 'b'] ∈ ys ∧ ['b', 'a'] ∈ ys) ∧
    (pairsAway.rewriter ['a'] .obligatory).process ['z'] = .ok [] := by
  have hr : pairsAway.WellFormed := by decide
  -- Over `a` the rule has one pair only.
  have only (v y : Word) (hv : ∀ c ∈ v, c ∈ ['a']) (h : pairsAway.Relates v y) :
      v = ['a', 'a'] ∧ y = ['b'] :=
    (of_relates_pairsAway h).resolve_right fun hz => absurd (hv 'z' hz) (by decide)
  have finite : ∀ v, v ≠ [] → (∀ c ∈ v, c ∈ ['a']) → {y | pairsAway.Relates v y}.Finite :=
    fun v _ hv => (Set.finite_singleton ['b']).subset fun y hy => (only v y hv hy).2
  have pair : pairsAway.Relates ['a', 'a'] ['b'] :=
    relates_iff.mpr ⟨[(some 'a', []), (some 'a', ['b'])],
      ⟨0, 2, rfl, .cons (t := 1) List.mem_cons_self (.single List.mem_cons_self), rfl⟩, rfl, rfl⟩
  have single : NoInfix (fun v => ∃ y, pairsAway.Relates v y) ['a'] := by
    rintro v _ hv ⟨y, hy⟩
    obtain ⟨rfl, _⟩ := only v y (fun c hc => hv.subset hc) hy
    exact absurd hv.length_le (by decide)
  have outputs := process_rewriter_obligatory pairsAway hr ['a'] finite
  obtain ⟨ys, hys, _, mem_iff⟩ := (outputs ['a', 'a', 'a']).1 (by simp)
  refine ⟨hr, finite, ⟨ys, hys, (mem_iff _).mpr ?_, (mem_iff _).mpr ?_⟩,
    (outputs ['z']).2 ⟨'z', by decide, by decide⟩⟩
  · exact .next (u := ['a']) (w := []) single (List.cons_ne_nil _ _) pair (.last noInfix_nil)
  · exact .next (u := []) noInfix_nil (List.cons_ne_nil _ _) pair (.last single)

end Transducer

end Transduction
