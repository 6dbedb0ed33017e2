/-
The first thing wrong with a declaration.

A declaration has to meet requirements, which stand in a fixed order: that states exist, that some
state is initial, and what the labels or the earlier transitions ask for.  It is refused with the
error of the first one that does not hold, and otherwise it succeeds.  A deterministic automaton
compares a transition with the rows entered so far, and those are the transitions in front of it:

* `FirstViolation` — the first of some requirements that does not hold;
* `Checks`, `Checks.bind`, `checks_forM` — computations that fail with the first violation, one
  behind the other;
* `Machine.requirements`, `Machine.checks_declare` — the requirements of a machine;
* `Dfa.requirements`, `Dfa.Entered`, `Dfa.checks_enter`, `Dfa.Entered.next` — those of a
  deterministic automaton, and what the rows hold in front of every transition;
* `declare_exact` — when declarations succeed, and how they fail.
-/
import Transduction.Proofs.Declared
import Transduction.RangeAcceptor
import Transduction.Transducer.Basic

namespace Transduction

/-! ### Requirements -/

/-- What a declaration has to meet, and the error if it does not. -/
structure Requirement where
  holds : Prop
  error : ConstructionError

/-- The first requirement that does not hold has the error. -/
inductive FirstViolation : List Requirement → ConstructionError → Prop where
  | here {r : Requirement} {rs : List Requirement} : ¬r.holds → FirstViolation (r :: rs) r.error
  | later {r : Requirement} {rs : List Requirement} {e : ConstructionError} :
      r.holds → FirstViolation rs e → FirstViolation (r :: rs) e

variable {rs rs' : List Requirement} {r : Requirement} {e e' : ConstructionError}

@[simp] theorem firstViolation_cons_iff :
    FirstViolation (r :: rs) e ↔ ¬r.holds ∧ r.error = e ∨ r.holds ∧ FirstViolation rs e := by
  constructor
  · rintro (hr | ⟨hr, h⟩)
    · exact Or.inl ⟨hr, rfl⟩
    · exact Or.inr ⟨hr, h⟩
  · rintro (⟨hr, rfl⟩ | ⟨hr, h⟩)
    · exact .here hr
    · exact .later hr h

theorem FirstViolation.append (h : FirstViolation rs e) : FirstViolation (rs ++ rs') e := by
  induction h with
  | here hr => exact .here hr
  | later hr _ ih => exact .later hr ih

theorem FirstViolation.behind (hrs : ∀ r ∈ rs, r.holds) (h : FirstViolation rs' e) :
    FirstViolation (rs ++ rs') e := by
  induction rs with
  | nil => exact h
  | cons r rs ih =>
    obtain ⟨hr, hrs⟩ := List.forall_mem_cons.mp hrs
    exact .later hr (ih hrs)

theorem FirstViolation.exists_not_holds (h : FirstViolation rs e) : ∃ r ∈ rs, ¬r.holds := by
  induction h with
  | here hr => exact ⟨_, List.mem_cons_self, hr⟩
  | later _ _ ih =>
    obtain ⟨s, hs, hviolated⟩ := ih
    exact ⟨s, List.mem_cons_of_mem _ hs, hviolated⟩

/-- There is one first violation only. -/
theorem FirstViolation.unique (h : FirstViolation rs e) (h' : FirstViolation rs e') : e = e' := by
  induction h with
  | here hr =>
    cases h' with
    | here _ => rfl
    | later hr' _ => exact absurd hr' hr
  | later hr _ ih =>
    cases h' with
    | here hr' => exact absurd hr hr'
    | later _ h' => exact ih h'

/-- Where every requirement is the same one, it is the first. -/
theorem firstViolation_of_forall_eq (hr : ¬r.holds) (hne : rs ≠ []) (h : ∀ s ∈ rs, s = r) :
    FirstViolation rs r.error := by
  cases rs with
  | nil => exact absurd rfl hne
  | cons s rs =>
    obtain rfl := h s List.mem_cons_self
    exact .here hr

/-! ### Computations that check requirements -/

variable {α β : Type} {x : Except ConstructionError α} {f : α → Except ConstructionError β}

/-- A computation succeeds only if all requirements hold, and fails only with the first
violation. -/
def Checks (x : Except ConstructionError α) (rs : List Requirement) : Prop :=
  match x with
  | .ok _ => ∀ r ∈ rs, r.holds
  | .error e => FirstViolation rs e

theorem Checks.exists_ok_iff (h : Checks x rs) : (∃ a, x = .ok a) ↔ ∀ r ∈ rs, r.holds := by
  cases x with
  | ok a => exact ⟨fun _ => h, fun _ => ⟨a, rfl⟩⟩
  | error e =>
    obtain ⟨r, hr, hviolated⟩ := FirstViolation.exists_not_holds h
    refine ⟨fun ⟨_, he⟩ => ?_, fun hrs => absurd (hrs r hr) hviolated⟩
    cases he

theorem Checks.eq_error_iff (h : Checks x rs) : x = .error e ↔ FirstViolation rs e := by
  cases x with
  | ok a =>
    refine ⟨fun he => ?_, fun hfirst => ?_⟩
    · cases he
    · obtain ⟨r, hr, hviolated⟩ := hfirst.exists_not_holds
      exact absurd (h r hr) hviolated
  | error e' =>
    rw [Except.error.injEq]
    exact ⟨fun he => he ▸ h, FirstViolation.unique h⟩

theorem checks_ok {a : α} : Checks (.ok a) [] := fun _ hr => absurd hr List.not_mem_nil

/-- What comes second is checked only if the first part succeeds. -/
theorem Checks.bind (hx : Checks x rs) (hf : ∀ a, x = .ok a → Checks (f a) rs') :
    Checks (x >>= f) (rs ++ rs') := by
  cases x with
  | error e => exact FirstViolation.append hx
  | ok a =>
    have hfirst : ∀ r ∈ rs, r.holds := hx
    have hsecond := hf a rfl
    show Checks (f a) (rs ++ rs')
    cases hfa : f a with
    | error e =>
      rw [hfa] at hsecond
      exact FirstViolation.behind hfirst hsecond
    | ok b =>
      rw [hfa] at hsecond
      exact fun r hr => (List.mem_append.mp hr).elim (hfirst r) (hsecond r)

/-- What is returned in the end is not checked. -/
theorem Checks.bind_ok (hx : Checks x rs) (g : α → β) : Checks (x >>= fun a => .ok (g a)) rs := by
  have h := hx.bind (f := fun a => .ok (g a)) fun _ _ => checks_ok
  rwa [List.append_nil] at h

/-- A requirement that holds may stand in front. -/
theorem Checks.cons (hr : r.holds) (hx : Checks x rs) : Checks x (r :: rs) := by
  cases x with
  | ok a => exact List.forall_mem_cons.mpr ⟨hr, hx⟩
  | error e => exact .later hr hx

/-- The entries of a list are checked in order. -/
theorem checks_forM {f : β → Except ConstructionError Unit} {rs : β → List Requirement}
    (h : ∀ b, Checks (f b) (rs b)) (xs : List β) : Checks (xs.forM f) (xs.flatMap rs) := by
  induction xs with
  | nil => exact checks_ok
  | cons b xs ih => exact (h b).bind fun _ _ => ih

/-- A state that is named is to be declared. -/
def Requirement.declaredState (size q : Nat) : Requirement := ⟨q < size, .undeclaredState q size⟩

open Requirement (declaredState)

theorem checks_checkState (size q : Nat) : Checks (checkState size q) [declaredState size q] := by
  rw [checkState]
  split
  · rename_i hq
    exact List.forall_mem_singleton.mpr hq
  · rename_i hq
    exact FirstViolation.here (r := declaredState size q) hq

theorem checks_states (size : Nat) (qs : List Nat) :
    Checks (qs.forM (checkState size)) (qs.map (declaredState size)) := by
  rw [List.map_eq_flatMap]
  exact checks_forM (checks_checkState size) qs

/-! ### Machines -/

namespace Machine

variable {L : Type} {checkLabel : L → Except ConstructionError Unit}
  {arrange : List (L × Nat) → List (L × Nat)} {ofLabel : L → List Requirement} {size : Nat}
  {initial finals : List Nat} {arcs : List (Nat × L × Nat)}

/-- The requirements of a declaration in order: initial states, that there is one, accepting
states, and for each arc its source, its target and its label. -/
def requirements (ofLabel : L → List Requirement) (size : Nat) (initial finals : List Nat)
    (arcs : List (Nat × L × Nat)) : List Requirement :=
  initial.map (declaredState size) ++ ⟨initial ≠ [], .missingInitialState⟩ ::
    (finals.map (declaredState size) ++ arcs.flatMap fun (p, l, q) =>
      declaredState size p :: declaredState size q :: ofLabel l)

/-- A declaration names states below the size, and among them an initial one. -/
structure NamesStates (size : Nat) (initial finals : List Nat) (arcs : List (Nat × L × Nat)) :
    Prop where
  initial_lt : ∀ q ∈ initial, q < size
  initial_ne_nil : initial ≠ []
  finals_lt : ∀ q ∈ finals, q < size
  source_lt : ∀ p l q, (p, l, q) ∈ arcs → p < size
  target_lt : ∀ p l q, (p, l, q) ∈ arcs → q < size

theorem checks_declare (hlabel : ∀ l, Checks (checkLabel l) (ofLabel l)) :
    Checks (declare checkLabel arrange size initial finals arcs)
      (requirements ofLabel size initial finals arcs) := by
  refine (checks_states size initial).bind fun _ _ => ?_
  by_cases hempty : initial.isEmpty = true
  · rw [if_pos hempty]
    exact FirstViolation.here (r := ⟨initial ≠ [], .missingInitialState⟩)
      (not_not_intro (List.isEmpty_iff.mp hempty))
  · rw [if_neg hempty]
    refine Checks.cons (mt List.isEmpty_iff.mpr hempty) ?_
    refine (checks_states size finals).bind fun _ _ => ?_
    exact (checks_forM (fun (p, l, q) => (checks_checkState size p).bind fun _ _ =>
      (checks_checkState size q).bind fun _ _ => hlabel l) arcs).bind_ok _

theorem forall_requirements_iff : (∀ r ∈ requirements ofLabel size initial finals arcs, r.holds) ↔
    NamesStates size initial finals arcs ∧
      ∀ p l q, (p, l, q) ∈ arcs → ∀ r ∈ ofLabel l, r.holds := by
  simp only [requirements, List.forall_mem_append, List.forall_mem_map, List.forall_mem_cons,
    List.forall_mem_flatMap, declaredState, Prod.forall]
  constructor
  · rintro ⟨hinitial, hne, hfinals, harcs⟩
    exact ⟨⟨hinitial, hne, hfinals, fun p l q harc => (harcs p l q harc).1,
      fun p l q harc => (harcs p l q harc).2.1⟩, fun p l q harc => (harcs p l q harc).2.2⟩
  · rintro ⟨h, hlabels⟩
    exact ⟨h.initial_lt, h.initial_ne_nil, h.finals_lt, fun p l q harc =>
      ⟨h.source_lt p l q harc, h.target_lt p l q harc, hlabels p l q harc⟩⟩

end Machine

/-! ### Deterministic automata -/

namespace Dfa

variable {size start p t : Nat} {c : Char} {finals : List Nat} {rows : Array (List (Char × Nat))}
  {earlier arcs : List (Nat × Char × Nat)}

/-- A transition is to lead where the earlier ones of its state and symbol lead. -/
def agreements (earlier : List (Nat × Char × Nat)) (p : Nat) (c : Char) (t : Nat) :
    List Requirement :=
  earlier.filterMap fun (q, d, first) =>
    if q = p ∧ d = c then some ⟨first = t, .nondeterministic p c first t⟩ else none

/-- The requirements of transitions behind earlier ones: for each its source, its target, and that
there is no other target. -/
def arcRequirements (size : Nat) (earlier : List (Nat × Char × Nat)) :
    List (Nat × Char × Nat) → List Requirement
  | [] => []
  | (p, c, t) :: arcs =>
    declaredState size p :: declaredState size t :: agreements earlier p c t ++
      arcRequirements size (earlier ++ [(p, c, t)]) arcs

/-- The requirements of a declaration in order: the start state, accepting states, transitions. -/
def requirements (size start : Nat) (finals : List Nat) (arcs : List (Nat × Char × Nat)) :
    List Requirement :=
  declaredState size start :: (finals.map (declaredState size) ++ arcRequirements size [] arcs)

theorem mem_agreements_iff {r : Requirement} : r ∈ agreements earlier p c t ↔
    ∃ first, (p, c, first) ∈ earlier ∧ r = ⟨first = t, .nondeterministic p c first t⟩ := by
  rw [agreements, List.mem_filterMap]
  constructor
  · rintro ⟨⟨q, d, first⟩, harc, he⟩
    simp only at he
    by_cases hkey : q = p ∧ d = c
    · obtain ⟨rfl, rfl⟩ := hkey
      rw [if_pos ⟨rfl, rfl⟩] at he
      exact ⟨first, harc, (Option.some.inj he).symm⟩
    · rw [if_neg hkey] at he
      cases he
  · rintro ⟨first, harc, rfl⟩
    exact ⟨_, harc, if_pos ⟨rfl, rfl⟩⟩

theorem forall_agreements_iff : (∀ r ∈ agreements earlier p c t, r.holds) ↔
    ∀ first, (p, c, first) ∈ earlier → first = t := by
  simp only [mem_agreements_iff, forall_exists_index, and_imp]
  constructor
  · exact fun h first harc => h _ first harc rfl
  · rintro h _ first harc rfl
    exact h first harc

/-- The rows hold the transitions that are entered, and no others. -/
structure Entered (size : Nat) (rows : Array (List (Char × Nat)))
    (arcs : List (Nat × Char × Nat)) : Prop where
  size_eq : rows.size = size
  lookup_iff : ∀ p c t, ((rows[p]?).getD []).lookup c = some t ↔ (p, c, t) ∈ arcs

theorem entered_replicate : Entered size (Array.replicate size []) [] where
  size_eq := Array.size_replicate
  lookup_iff p c t := by
    rw [Array.getElem?_replicate]
    split <;> simp

/-- The comparison with the rows is the comparison with the transitions in front. -/
theorem checks_enter (hrows : Entered size rows earlier) : Checks (enter size rows (p, c, t))
    (declaredState size p :: declaredState size t :: agreements earlier p c t) := by
  refine (checks_checkState size p).bind fun _ _ => (checks_checkState size t).bind fun _ _ => ?_
  have entered (first : Nat) := hrows.lookup_iff p c first
  cases hfirst : ((rows[p]?).getD []).lookup c with
  | none =>
    rw [hfirst] at entered
    refine forall_agreements_iff.mpr fun first harc => ?_
    cases (entered first).mpr harc
  | some first =>
    rw [hfirst] at entered
    have only {other : Nat} (harc : (p, c, other) ∈ earlier) : other = first :=
      (Option.some.inj ((entered other).mpr harc)).symm
    by_cases ht : first = t
    · simp only [ht, ne_eq, not_true_eq_false, if_false]
      exact forall_agreements_iff.mpr fun other harc => (only harc).trans ht
    -- the earlier transitions lead to one target, so each of them tells of the same violation
    · simp only [ne_eq, ht, not_false_eq_true, if_true]
      refine firstViolation_of_forall_eq (r := ⟨first = t, .nondeterministic p c first t⟩) ht
        (List.ne_nil_of_mem (mem_agreements_iff.mpr ⟨first, (entered first).mp rfl, rfl⟩)) ?_
      intro r hr
      obtain ⟨other, harc, rfl⟩ := mem_agreements_iff.mp hr
      rw [only harc]

/-- A transition that passes is entered. -/
theorem Entered.next {rows' : Array (List (Char × Nat))} (hrows : Entered size rows earlier)
    (h : enter size rows (p, c, t) = .ok rows') : Entered size rows' (earlier ++ [(p, c, t)]) := by
  have passed := (checks_enter hrows).exists_ok_iff.mp ⟨rows', h⟩
  rw [List.forall_mem_cons, List.forall_mem_cons, forall_agreements_iff] at passed
  obtain ⟨hp, -, agrees⟩ := passed
  obtain ⟨-, rfl⟩ := of_enter h
  constructor
  · rw [Array.size_modify, hrows.size_eq]
  · intro q d u
    have hold := hrows.lookup_iff q d u
    rw [Array.getElem?_modify, List.mem_append, List.mem_singleton, Prod.mk.injEq, Prod.mk.injEq]
    by_cases hq : p = q
    · subst hq
      have hp : p < rows.size := hrows.size_eq.symm ▸ hp
      rw [Array.getElem?_eq_getElem hp, Option.getD_some] at hold
      rw [if_pos rfl, Array.getElem?_eq_getElem hp, Option.map_some, Option.getD_some,
        Row.lookup_set, ← hold]
      -- Entering the symbol again is allowed only with the target that it already has.
      by_cases hd : d = c
      · subst hd
        rw [if_pos rfl, hold, Option.some.injEq]
        exact ⟨fun ht => Or.inr ⟨rfl, rfl, ht.symm⟩,
          fun h => h.elim (fun harc => (agrees u harc).symm) fun ht => ht.2.2.symm⟩
      · rw [if_neg hd]
        exact ⟨Or.inl, fun h => h.resolve_right fun hnew => hd hnew.2.1⟩
    · rw [if_neg hq, hold]
      exact ⟨Or.inl, fun h => h.resolve_right fun hnew => hq hnew.1.symm⟩

theorem checks_foldlM_enter (hrows : Entered size rows earlier) :
    Checks (arcs.foldlM (enter size) rows) (arcRequirements size earlier arcs) := by
  induction arcs generalizing rows earlier with
  | nil => exact checks_ok
  | cons arc arcs ih =>
    obtain ⟨p, c, t⟩ := arc
    rw [List.foldlM_cons]
    exact (checks_enter hrows).bind fun _ hnext => ih (hrows.next hnext)

theorem Entered.all {rows' : Array (List (Char × Nat))} (hrows : Entered size rows earlier)
    (h : arcs.foldlM (enter size) rows = .ok rows') : Entered size rows' (earlier ++ arcs) := by
  induction arcs generalizing rows earlier with
  | nil =>
    cases h
    rwa [List.append_nil]
  | cons arc arcs ih =>
    obtain ⟨p, c, t⟩ := arc
    rw [List.foldlM_cons] at h
    obtain ⟨next, hnext, h⟩ := bind_eq_ok_iff.mp h
    rw [List.append_cons]
    exact ih (hrows.next hnext) h

theorem checks_declare :
    Checks (declare size start finals arcs) (requirements size start finals arcs) :=
  (checks_checkState size start).bind fun _ _ => (checks_states size finals).bind fun _ _ =>
    (checks_foldlM_enter entered_replicate).bind_ok _

/-- The moves of a declared automaton are the listed transitions. -/
theorem delta_declare_iff {d : Dfa} (h : declare size start finals arcs = .ok d) :
    d.delta p c = some t ↔ (p, c, t) ∈ arcs := by
  obtain ⟨_, _, h⟩ := bind_eq_ok_iff.mp h
  obtain ⟨_, _, h⟩ := bind_eq_ok_iff.mp h
  obtain ⟨rows, hrows, h⟩ := bind_eq_ok_iff.mp h
  cases h
  exact (entered_replicate.all hrows).lookup_iff p c t

theorem forall_arcRequirements_iff : (∀ r ∈ arcRequirements size earlier arcs, r.holds) ↔
    (∀ p c t, (p, c, t) ∈ arcs → p < size ∧ t < size) ∧
    ∀ p c t t', (p, c, t) ∈ earlier ++ arcs → (p, c, t') ∈ arcs → t = t' := by
  induction arcs generalizing earlier with
  | nil => simp [arcRequirements]
  | cons arc arcs ih =>
    obtain ⟨q, d, u⟩ := arc
    rw [arcRequirements, List.forall_mem_append, List.forall_mem_cons, List.forall_mem_cons,
      forall_agreements_iff, ih, ← List.append_cons]
    constructor
    · rintro ⟨⟨hq, hu, agrees⟩, named, together⟩
      refine ⟨fun p c t harc => ?_, fun p c t t' harc harc' => ?_⟩
      · rcases List.mem_cons.mp harc with he | harc
        · cases he
          exact ⟨hq, hu⟩
        · exact named p c t harc
      · rcases List.mem_cons.mp harc' with he | harc'
        · cases he
          rcases List.mem_append.mp harc with harc | harc
          · exact agrees t harc
          · rcases List.mem_cons.mp harc with he | harc
            · cases he
              rfl
            -- a later transition agrees with this one, since it comes behind it
            · exact (together q d u t (by simp) harc).symm
        · exact together p c t t' harc harc'
    · rintro ⟨named, together⟩
      obtain ⟨hq, hu⟩ := named q d u List.mem_cons_self
      refine ⟨⟨hq, hu, fun first harc => ?_⟩, fun p c t harc => ?_, fun p c t t' harc harc' => ?_⟩
      · exact together q d first u (List.mem_append_left _ harc) List.mem_cons_self
      · exact named p c t (List.mem_cons_of_mem _ harc)
      · exact together p c t t' harc (List.mem_cons_of_mem _ harc')

theorem forall_requirements_iff : (∀ r ∈ requirements size start finals arcs, r.holds) ↔
    start < size ∧ (∀ q ∈ finals, q < size) ∧
    (∀ p c t, (p, c, t) ∈ arcs → p < size ∧ t < size) ∧
    ∀ p c t t', (p, c, t) ∈ arcs → (p, c, t') ∈ arcs → t = t' := by
  rw [requirements, List.forall_mem_cons, List.forall_mem_append, List.forall_mem_map,
    forall_arcRequirements_iff, List.nil_append]
  rfl

end Dfa

/-! ### Declarations -/

theorem Machine.exists_declare_iff {L : Type} {checkLabel : L → Except ConstructionError Unit}
    {arrange : List (L × Nat) → List (L × Nat)} {ofLabel : L → List Requirement} {size : Nat}
    {initial finals : List Nat} {arcs : List (Nat × L × Nat)}
    (hlabel : ∀ l, Checks (checkLabel l) (ofLabel l)) :
    (∃ m, declare checkLabel arrange size initial finals arcs = .ok m) ↔
      NamesStates size initial finals arcs ∧
        ∀ p l q, (p, l, q) ∈ arcs → ∀ r ∈ ofLabel l, r.holds := by
  rw [(checks_declare hlabel).exists_ok_iff, forall_requirements_iff]

/-- Both ends of a range are to be in order. -/
def RangeAcceptor.endsInOrder : Option (Char × Char) → List Requirement
  | none => []
  | some (first, last) => [⟨first ≤ last, .invalidRange first last⟩]

theorem RangeAcceptor.checks_checkRange (l : Option (Char × Char)) :
    Checks (checkRange l) (endsInOrder l) := by
  match l with
  | none => exact checks_ok
  | some (first, last) =>
    rw [checkRange]
    split
    · rename_i hle
      exact List.forall_mem_singleton.mpr hle
    · rename_i hgt
      exact FirstViolation.here (r := ⟨first ≤ last, .invalidRange first last⟩) hgt

theorem RangeAcceptor.exists_declare_iff {size : Nat} {initial finals : List Nat}
    {arcs : List (Nat × Option (Char × Char) × Nat)} :
    (∃ a, declare size initial finals arcs = .ok a) ↔
      Machine.NamesStates size initial finals arcs ∧
        ∀ p first last q, (p, some (first, last), q) ∈ arcs → first ≤ last := by
  refine (Machine.exists_declare_iff checks_checkRange).trans (and_congr_right fun _ => ?_)
  constructor
  · exact fun h p first last q harc => h p _ q harc _ List.mem_cons_self
  · intro h p l q harc r hr
    match l with
    | none => cases hr
    | some (first, last) =>
      obtain rfl := List.mem_singleton.mp hr
      exact h p first last q harc

/-- A declaration succeeds exactly when it names states only, some of them as initial ones, and
when ranges have their ends in order and no state and symbol have two targets.  Otherwise its error
is that of the first violation.  The moves of a deterministic automaton are the listed ones. -/
theorem declare_exact :
    (∀ (size : Nat) (initial finals : List Nat) (arcs : List (Nat × Option Char × Nat)),
      ((∃ a, Acceptor.declare size initial finals arcs = .ok a) ↔
        Machine.NamesStates size initial finals arcs) ∧
      ∀ e, Acceptor.declare size initial finals arcs = .error e ↔
        FirstViolation (Machine.requirements (fun _ => []) size initial finals arcs) e) ∧
    (∀ (size : Nat) (initial finals : List Nat)
        (arcs : List (Nat × Option (Char × Char) × Nat)),
      ((∃ a, RangeAcceptor.declare size initial finals arcs = .ok a) ↔
        Machine.NamesStates size initial finals arcs ∧
          ∀ p first last q, (p, some (first, last), q) ∈ arcs → first ≤ last) ∧
      ∀ e, RangeAcceptor.declare size initial finals arcs = .error e ↔
        FirstViolation
          (Machine.requirements RangeAcceptor.endsInOrder size initial finals arcs) e) ∧
    (∀ (size : Nat) (initial finals : List Nat)
        (arcs : List (Nat × (Option Char × Word) × Nat)),
      ((∃ m, Transducer.declare size initial finals arcs = .ok m) ↔
        Machine.NamesStates size initial finals arcs) ∧
      ∀ e, Transducer.declare size initial finals arcs = .error e ↔
        FirstViolation (Machine.requirements (fun _ => []) size initial finals arcs) e) ∧
    ∀ (size start : Nat) (finals : List Nat) (arcs : List (Nat × Char × Nat)),
      ((∃ d, Dfa.declare size start finals arcs = .ok d) ↔
        start < size ∧ (∀ q ∈ finals, q < size) ∧
        (∀ p c t, (p, c, t) ∈ arcs → p < size ∧ t < size) ∧
        ∀ p c t t', (p, c, t) ∈ arcs → (p, c, t') ∈ arcs → t = t') ∧
      (∀ e, Dfa.declare size start finals arcs = .error e ↔
        FirstViolation (Dfa.requirements size start finals arcs) e) ∧
      ∀ d, Dfa.declare size start finals arcs = .ok d →
        ∀ q c t, d.delta q c = some t ↔ (q, c, t) ∈ arcs := by
  -- labels without ends are not checked and add no requirement
  have unchecked {L : Type} (l : L) : Checks ((fun _ => .ok ()) l) [] := checks_ok
  refine ⟨fun size initial finals arcs => ⟨?_, fun e => ?_⟩,
    fun size initial finals arcs => ⟨RangeAcceptor.exists_declare_iff, fun e => ?_⟩,
    fun size initial finals arcs => ⟨?_, fun e => ?_⟩,
    fun size start finals arcs => ⟨?_, fun e => Dfa.checks_declare.eq_error_iff,
      fun d h q c t => Dfa.delta_declare_iff h⟩⟩
  · exact (Machine.exists_declare_iff unchecked).trans (by simp)
  · exact (Machine.checks_declare unchecked).eq_error_iff
  · exact (Machine.checks_declare RangeAcceptor.checks_checkRange).eq_error_iff
  · exact (Machine.exists_declare_iff unchecked).trans (by simp)
  · exact (Machine.checks_declare unchecked).eq_error_iff
  · rw [Dfa.checks_declare.exists_ok_iff, Dfa.forall_requirements_iff]

/-- Transitions of which one is listed twice. -/
def repeatedArcs : List (Nat × Char × Nat) := [(0, 'a', 1), (1, 'b', 0), (0, 'a', 1)]

/-- A transition may be repeated.  Of two violations the first one counts: a second target comes in
front of a state that is not declared. -/
theorem declare_exact_repeatedArcs :
    (∃ d, Dfa.declare 2 0 [1] repeatedArcs = .ok d ∧ d.delta 0 'a' = some 1 ∧
      d.delta 1 'b' = some 0 ∧ d.delta 1 'a' ≠ some 0) ∧
    Dfa.declare 2 0 [1] (repeatedArcs ++ [(0, 'a', 0), (2, 'a', 0)]) =
      .error (.nondeterministic 0 'a' 1 0) := by
  obtain ⟨-, -, -, deterministic⟩ := declare_exact
  have named : ∀ arc ∈ repeatedArcs, arc.1 < 2 ∧ arc.2.2 < 2 := by decide
  have together : ∀ arc ∈ repeatedArcs, ∀ arc' ∈ repeatedArcs,
      arc.1 = arc'.1 → arc.2.1 = arc'.2.1 → arc.2.2 = arc'.2.2 := by decide
  constructor
  · obtain ⟨succeeds, -, moves⟩ := deterministic 2 0 [1] repeatedArcs
    obtain ⟨d, hd⟩ := succeeds.mpr ⟨by decide, by decide, fun p c t => named (p, c, t),
      fun p c t t' harc harc' => together _ harc _ harc' rfl rfl⟩
    refine ⟨d, hd, (moves d hd 0 'a' 1).mpr ?_, (moves d hd 1 'b' 0).mpr ?_,
      mt (moves d hd 1 'a' 0).mp ?_⟩
    all_goals decide
  · refine ((deterministic _ _ _ _).2.1 _).mpr ?_
    simp [Dfa.requirements, Dfa.arcRequirements, Dfa.agreements, declaredState, repeatedArcs]

end Transduction
