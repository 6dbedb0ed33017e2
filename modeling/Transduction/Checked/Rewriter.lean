/-
Rewriters and cascades, with every run looked up.

A rewriter is searched for like any machine.  Its rule is read out of containers, and a guard is a
row with one bit for each state of the matcher.  The rule is prepared by operations that look up
all they need themselves:

* `PlanStorage.moves?`, `PlanStorage.build?`, with `PlanStorage.build?_ofPlan` — the rewriter of a
  plan;
* `Storage.appliedRule?`, `Storage.rewriter?`, with an equation for each — the rewriter of a rule;
* `Storage.cascade?`, with `Storage.cascade?_eq` — the composition of the rewriters of all stages.
-/
import Transduction.Cascade
import Transduction.Checked.Bimachine
import Transduction.Checked.Composition
import Transduction.Proofs.AppliedRules

namespace Transduction

open Rewriter (Phase Plan Scan)
open Rewriter.Plan (Kept)

/-- A plan for a rule in separate containers. -/
structure PlanStorage where
  rule : Storage (Option Char × Word)
  matcher : Dfa
  symbols : List Char
  policy : Policy

namespace PlanStorage

/-- The containers of a plan. -/
def ofPlan (plan : Plan) : PlanStorage where
  rule := .ofMachine (.ordered (·.1)) plan.rule
  matcher := plan.matcher
  symbols := plan.symbols
  policy := plan.policy

/-! ### The moves of a rewriter -/

/-- The guard after a symbol, unless one of its runs ends in a match. -/
def step? (s : PlanStorage) (guard : StateSet) (c : Char) : Option (Option StateSet) := do
  let runs := guard.toList.filterMap fun q => s.matcher.delta q c
  let next ← StateSet.ofList? s.matcher.size runs
  return if runs.any s.matcher.isAccepting then none else some next

/-- The guard behind a symbol that is copied, if it may be. -/
def copyGuard? (s : PlanStorage) (guard : StateSet) (c : Char) : Option (Option StateSet) :=
  match s.policy with
  | .optional => some (some .empty)
  | _ => do
    let runs ← guard.insert? s.matcher.size s.matcher.start
    s.step? runs c

/-- The moves that copy one symbol of the text. -/
def copyMoves? (s : PlanStorage) (guard : StateSet) :
    Option (List ((Option Char × Word) × Scan)) :=
  filterMap? (fun c => (s.copyGuard? guard c).map fun next? =>
    next?.map fun next => ((some c, [c]), ⟨.copying, next⟩)) s.symbols

/-- The silent moves from copying into the rule. -/
def beginMoves (s : PlanStorage) (guard : StateSet) : List ((Option Char × Word) × Scan) :=
  let (guard, anchor) :=
    match s.policy with
    | .leftmostLongest => (guard, some s.matcher.start)
    | _ => (StateSet.empty, none)
  (Storage.ones s.rule.initial).map fun q => (Transducer.silent, ⟨.matching q anchor, guard⟩)

/-- What is kept after a symbol of a match, if it may be read. -/
def keep? (s : PlanStorage) (kept : Kept) (c : Char) : Option (Option Kept) :=
  match s.policy with
  | .leftmostLongest =>
    match kept.2.bind fun a => s.matcher.delta a c with
    | none => some none
    | anchor => (s.step? kept.1 c).map fun guard? => guard?.map fun guard => (guard, anchor)
  | _ => some (some kept)

/-- What is kept behind a move of the rule, if it may be taken. -/
def behind? (s : PlanStorage) (kept : Kept) (l : Option Char) : Option (Option Kept) :=
  match l with
  | none => some (some kept)
  | some c => if c ∈ s.symbols then s.keep? kept c else some none

/-- The moves of the rule inside a match. -/
def matchMoves? (s : PlanStorage) (rule : Nat) (anchor : Option Nat) (guard : StateSet) :
    Option (List ((Option Char × Word) × Scan)) := do
  let row ← s.rule.rows[rule]?
  filterMap? (fun ((l, w), t) => (s.behind? (guard, anchor) l).map fun kept? =>
    kept?.map fun kept => ((l, w), ⟨.matching t kept.2, kept.1⟩)) row

/-- The silent move from a match that is complete back to copying. -/
def endMoves? (s : PlanStorage) (rule : Nat) (anchor : Option Nat) (guard : StateSet) :
    Option (List ((Option Char × Word) × Scan)) := do
  let accepted ← s.rule.accepting[rule]?
  if accepted then
    let guard ← anchor.elim (some guard) (guard.insert? s.matcher.size)
    return [(Transducer.silent, ⟨.copying, guard⟩)]
  else return []

/-- The moves of a rewriter state. -/
def moves? (s : PlanStorage) (scan : Scan) : Option (List ((Option Char × Word) × Scan)) :=
  match scan.phase with
  | .copying => (s.copyMoves? scan.guard).map fun copies => copies ++ s.beginMoves scan.guard
  | .matching rule anchor => do
    let inside ← s.matchMoves? rule anchor scan.guard
    let ends ← s.endMoves? rule anchor scan.guard
    return inside ++ ends

/-- The rewriter of a plan. -/
def build? (s : PlanStorage) : Option (Storage (Option Char × Word)) := do
  let scans ← Storage.explored? (·.1) Scan.key s.moves?
    ((1 + s.rule.size * (s.matcher.size + 1)) * 2 ^ s.matcher.size) [Plan.start]
    (fun scan => some (scan.phase = .copying))
  scans.trim? (·.1)

end PlanStorage

namespace Storage

/-! ### Rewriters of rules -/

/-- The identity of the non-empty words over the symbols that a rule reads. -/
def nonEmptyInputs? (rule : Storage (Option Char × Word)) :
    Option (Storage (Option Char × Word)) := do
  let symbols ← symbols? rule.symbols
  let words ← symbols.plus? id none
  words.identity?

/-- The rule restricted to non-empty inputs. -/
def properRule? (rule : Storage (Option Char × Word)) : Option (Storage (Option Char × Word)) := do
  let inputs ← rule.nonEmptyInputs?
  inputs.compose? rule

/-- The rule restricted to one output an input, if it has a bimachine. -/
def singleOutput? (rule : Storage (Option Char × Word)) :
    Option (Storage (Option Char × Word)) := do
  match ← rule.toBimachine? rule.symbols with
  | .ok b => b.toTransducer?
  | .error _ => return rule

/-- The rule as a policy applies it. -/
def appliedRule? (rule : Storage (Option Char × Word)) (policy : Policy) :
    Option (Storage (Option Char × Word)) := do
  let rule ← rule.properRule?
  match policy with
  | .leftmostLongest => rule.singleOutput?
  | _ => return rule

/-- The rewriter of a rule over an alphabet. -/
def rewriter? (rule : Storage (Option Char × Word)) (alphabet : List Char) (policy : Policy) :
    Option (Storage (Option Char × Word)) := do
  let applied ← rule.appliedRule? policy
  let domain ← applied.domain?
  let subsets ← domain.determinize?
  let matcher ← subsets.minimizeBy? ClassTable.ascendingClasses
  PlanStorage.build? ⟨applied, matcher, ascending alphabet, policy⟩

/-! ### Cascades -/

/-- The composition of rewriters over an alphabet; the identity if there is none. -/
def composition? (alphabet : List Char) :
    List (Storage (Option Char × Word)) → Option (Storage (Option Char × Word))
  | [] => do
    let symbols ← symbols? alphabet
    let words ← symbols.star? id none
    words.identity?
  | first :: others => first.composeAll? others

/-- The transducer of rules with their policies, in order. -/
def cascade? (alphabet : List Char) (stages : List (Storage (Option Char × Word) × Policy)) :
    Option (Storage (Option Char × Word)) := do
  let rewriters ← stages.mapM fun (rule, policy) => rule.rewriter? alphabet policy
  composition? alphabet rewriters

end Storage

/-! ### No run is missed -/

namespace PlanStorage

variable {plan : Plan} {guard : StateSet} {anchor : Option Nat} {scan : Scan} {c : Char}
  {l : Option Char} {rule t : Nat}

theorem policy_ofPlan : (ofPlan plan).policy = plan.policy := rfl

section matcher

variable (hm : plan.matcher.WellFormed)

include hm

theorem step?_ofPlan : (ofPlan plan).step? guard c = some (plan.step? guard c) := by
  have hnext : StateSet.ofList? plan.matcher.size
      (guard.toList.filterMap fun q => plan.matcher.delta q c) =
      some (StateSet.ofList (guard.toList.filterMap fun q => plan.matcher.delta q c)) := by
    refine StateSet.ofList?_eq fun r hr => ?_
    obtain ⟨q, _, hdelta⟩ := List.mem_filterMap.mp hr
    exact hm.delta_lt hdelta
  exact Option.bind_eq_some_iff.mpr ⟨_, hnext, rfl⟩

theorem copyGuard?_ofPlan : (ofPlan plan).copyGuard? guard c = some (plan.copyGuard guard c) := by
  have hrun : guard.insert? plan.matcher.size plan.matcher.start =
      some (guard.insert plan.matcher.start) := StateSet.insert?_eq hm.start_lt
  have hstep : (ofPlan plan).step? (guard.insert plan.matcher.start) c =
      some (plan.step? (guard.insert plan.matcher.start) c) := step?_ofPlan hm
  rw [copyGuard?, Plan.copyGuard, policy_ofPlan]
  cases plan.policy with
  | optional => rfl
  | obligatory | leftmostLongest => exact Option.bind_eq_some_iff.mpr ⟨_, hrun, hstep⟩

theorem copyMoves?_ofPlan : (ofPlan plan).copyMoves? guard = some (plan.copyMoves guard) := by
  rw [Plan.copyMoves_eq]
  exact filterMap?_eq fun c _ => by rw [copyGuard?_ofPlan hm, Option.map_some]

theorem keep?_ofPlan {kept : Kept} :
    (ofPlan plan).keep? kept c = some (plan.read? kept c) := by
  rw [keep?, Plan.read?, policy_ofPlan]
  cases plan.policy with
  | leftmostLongest =>
    obtain ⟨guard, anchor⟩ := kept
    cases anchor with
    | none => rfl
    | some a =>
      have hstep : (ofPlan plan).step? guard c = some (plan.step? guard c) := step?_ofPlan hm
      show (match plan.matcher.delta a c with
        | none => some none
        | anchor => ((ofPlan plan).step? guard c).map _) = some ((plan.matcher.delta a c).bind _)
      rw [hstep]
      cases plan.matcher.delta a c with
      | none => rfl
      | some a' => cases plan.step? guard c <;> rfl
  | obligatory | optional => rfl

end matcher

theorem beginMoves_ofPlan : (ofPlan plan).beginMoves guard = plan.beginMoves guard := by
  have hinitial : Storage.ones (ofPlan plan).rule.initial = plan.rule.initialStates :=
    Storage.ones_initial_ofMachine
  rw [beginMoves, Plan.beginMoves, policy_ofPlan, hinitial]
  rfl

section met

variable (hm : plan.matcher.WellFormed) (hr : plan.rule.Closed)

include hm

theorem matchMoves?_ofPlan (hrule : rule < plan.rule.size) :
    (ofPlan plan).matchMoves? rule anchor guard = some (plan.matchMoves rule anchor guard) := by
  have hrow : (ofPlan plan).rule.rows[rule]? = some (plan.rule.moves rule) :=
    Storage.rows_ofMachine hrule
  rw [matchMoves?, hrow, Option.bind_eq_bind, Option.bind_some, Plan.matchMoves_eq]
  refine filterMap?_eq fun ((l, w), t) _ => ?_
  cases l with
  | none => rfl
  | some c =>
    dsimp only [behind?]
    by_cases hc : c ∈ plan.symbols
    · rw [if_pos hc, if_pos (show c ∈ (ofPlan plan).symbols from hc), keep?_ofPlan hm,
        Option.map_some]
    · rw [if_neg hc, if_neg (show c ∉ (ofPlan plan).symbols from hc)]
      rfl

omit hm in
theorem endMoves?_ofPlan (hrule : rule < plan.rule.size)
    (ha : ∀ a ∈ anchor, a < plan.matcher.size) :
    (ofPlan plan).endMoves? rule anchor guard = some (plan.endMoves rule anchor guard) := by
  have haccepted : (ofPlan plan).rule.accepting[rule]? = some (plan.rule.isAccepting rule) :=
    Storage.accepting_ofMachine hrule
  have hguard : anchor.elim (some guard) (guard.insert? (ofPlan plan).matcher.size) =
      some (anchor.elim guard guard.insert) := by
    cases anchor with
    | none => rfl
    | some a => exact StateSet.insert?_eq (ha a rfl)
  rw [endMoves?, haccepted, Option.bind_eq_bind, Option.bind_some, Plan.endMoves, hguard]
  split <;> rfl

theorem moves?_ofPlan (hscan : scan.key ∈ plan.keys) :
    (ofPlan plan).moves? scan = some (plan.moves scan) := by
  obtain ⟨phase, guard⟩ := scan
  cases phase with
  | copying =>
    rw [moves?, Plan.moves]
    dsimp only
    rw [copyMoves?_ofPlan hm, beginMoves_ofPlan, Option.map_some]
  | matching rule anchor =>
    obtain ⟨⟨hrule, ha⟩, _⟩ := Plan.mem_keys_matching_iff.mp hscan
    rw [moves?, Plan.moves]
    dsimp only
    rw [matchMoves?_ofPlan hm hrule, endMoves?_ofPlan hrule ha]
    rfl

include hr

/-- The search for the states of a rewriter fails nowhere. -/
theorem build?_ofPlan :
    (ofPlan plan).build? = some (.ofMachine (.ordered (·.1)) plan.build) := by
  have hstart : Plan.start.key ∈ plan.keys :=
    Plan.mem_keys_copying_iff.mpr fun r hr => absurd hr (StateSet.not_mem_empty r)
  have hsize : (ofPlan plan).rule.size = plan.rule.size := Storage.size_ofMachine
  have hmatcher : (ofPlan plan).matcher = plan.matcher := rfl
  rw [build?, hsize, hmatcher]
  refine Option.bind_eq_some_iff.mpr ⟨_, Storage.explored?_eq
    (P := fun scan => scan.key ∈ plan.keys) (List.forall_mem_singleton.mpr hstart)
    (fun scan hscan => ⟨moves?_ofPlan hm hscan, fun l t => Plan.mem_keys_of_mem_moves hm hr hscan⟩)
    (fun _ _ => rfl) (fun scan _ => ?_) (fun _ hscan => hscan) Plan.length_keys.le,
    Storage.trim?_eq (Machine.closed_explored Plan.key_injective) Machine.ascending_explored⟩
  rw [decide_eq_true_eq]
  constructor
  · exact fun h => ⟨_, List.mem_singleton_self _, congrArg Scan.key h.symm⟩
  · rintro ⟨_, hroot, hkey⟩
    rw [List.mem_singleton.mp hroot] at hkey
    exact (Plan.key_injective hkey).symm

end met

end PlanStorage

namespace Storage

open Rewriter (nonEmptyInputs properRule singleOutput appliedRule)

variable {rule : Transducer} {alphabet : List Char} {policy : Policy}

theorem symbols_ofMachine :
    (ofMachine (.ordered (·.1)) rule).symbols = rule.inputAlphabet := rfl

theorem nonEmptyInputs?_eq : (ofMachine (.ordered (·.1)) rule).nonEmptyInputs? =
    some (ofMachine (.ordered (·.1)) (nonEmptyInputs rule)) := by
  have hplus : (ofMachine (.ordered id) (Acceptor.ofSymbols rule.inputAlphabet)).plus? id none =
      some (ofMachine (.ordered id) (Acceptor.ofSymbols rule.inputAlphabet).plus) :=
    plus?_eq (Acceptor.ascending_ofSymbols _)
  simp only [nonEmptyInputs?, symbols_ofMachine, symbols?_eq, hplus, Option.bind_eq_bind,
    Option.bind_some]
  exact identity?_eq

theorem properRule?_eq (hr : rule.Closed) : (ofMachine (.ordered (·.1)) rule).properRule? =
    some (ofMachine (.ordered (·.1)) (properRule rule)) := by
  rw [properRule?, nonEmptyInputs?_eq, Option.bind_eq_bind, Option.bind_some]
  exact compose?_eq Rewriter.wellFormed_nonEmptyInputs.closed hr

theorem singleOutput?_eq (hr : rule.Closed) (hascending : rule.Ascending) :
    (ofMachine (.ordered (·.1)) rule).singleOutput? =
      some (ofMachine (.ordered (·.1)) (singleOutput rule)) := by
  rw [singleOutput?, symbols_ofMachine, toBimachine?_eq hr hascending, Option.bind_eq_bind,
    Option.bind_some, singleOutput]
  cases rule.toBimachine rule.inputAlphabet with
  | error e => rfl
  | ok b => exact Bimachine.toTransducer?_eq

theorem appliedRule?_eq (hr : rule.Closed) :
    (ofMachine (.ordered (·.1)) rule).appliedRule? policy =
      some (ofMachine (.ordered (·.1)) (appliedRule rule policy)) := by
  have hproper : (properRule rule).Closed := Rewriter.wellFormed_properRule.closed
  rw [appliedRule?, properRule?_eq hr, Option.bind_eq_bind, Option.bind_some]
  cases policy with
  | leftmostLongest => exact singleOutput?_eq hproper Transducer.ascending_compose
  | obligatory | optional => rfl

/-- A rewriter is made without a failure. -/
theorem rewriter?_eq (hr : rule.Closed) :
    (ofMachine (.ordered (·.1)) rule).rewriter? alphabet policy =
      some (ofMachine (.ordered (·.1)) (rule.rewriter alphabet policy)) := by
  have happlied : (appliedRule rule policy).Closed := Rewriter.wellFormed_appliedRule.closed
  have hdomain : (appliedRule rule policy).domain.Closed := Machine.closed_mapLabels happlied
  have hsubsets := Acceptor.wellFormed_determinize (appliedRule rule policy).domain
  have hvisits (t : ClassTable) (ht : t.Valid) : t.Visits t.ascendingClasses :=
    ht.visits_ascendingClasses
  have hmatcher := Dfa.minimizeBy?_eq hvisits hsubsets
  simp only [rewriter?, appliedRule?_eq hr, domain?_eq, determinize?_eq hdomain, hmatcher,
    Option.bind_eq_bind, Option.bind_some]
  show (PlanStorage.ofPlan (Rewriter.plan (appliedRule rule policy) alphabet policy)).build? = _
  exact PlanStorage.build?_ofPlan (Dfa.wellFormed_minimize hsubsets) happlied

theorem composition?_eq {rewriters : List Transducer} (h : ∀ m ∈ rewriters, m.Closed) :
    composition? alphabet (rewriters.map (ofMachine (.ordered (·.1)))) =
      some (ofMachine (.ordered (·.1)) (Cascade.composition alphabet rewriters)) := by
  cases rewriters with
  | nil =>
    have hstar : (ofMachine (.ordered id) (Acceptor.ofSymbols alphabet)).star? id none =
        some (ofMachine (.ordered id) (Acceptor.ofSymbols alphabet).star) :=
      star?_eq (Acceptor.ascending_ofSymbols _)
    simp only [List.map_nil, composition?, symbols?_eq, hstar, Option.bind_eq_bind,
      Option.bind_some]
    exact identity?_eq
  | cons first others =>
    obtain ⟨hfirst, hothers⟩ := List.forall_mem_cons.mp h
    exact composeAll?_eq hfirst hothers

/-- A cascade is composed without a failure. -/
theorem cascade?_eq {c : Cascade} (h : ∀ stage ∈ c.stages, stage.rule.Closed) :
    cascade? c.alphabet (c.stages.map fun stage =>
        (ofMachine (.ordered (·.1)) stage.rule, stage.policy)) =
      some (ofMachine (.ordered (·.1)) c.toTransducer) := by
  have hrewriters : (c.stages.map fun stage =>
      (ofMachine (.ordered (·.1)) stage.rule, stage.policy)).mapM
        (fun (rule, policy) => rule.rewriter? c.alphabet policy) =
      some ((c.stages.map (Cascade.rewriter c.alphabet)).map (ofMachine (.ordered (·.1)))) := by
    rw [List.mapM_map, List.map_map]
    refine mapM_eq_some_map fun stage hstage => ?_
    rw [Function.comp_apply, Function.comp_apply, Cascade.rewriter]
    exact rewriter?_eq (h stage hstage)
  rw [cascade?, hrewriters, Option.bind_eq_bind, Option.bind_some]
  refine composition?_eq fun m hm => ?_
  obtain ⟨stage, _, rfl⟩ := List.mem_map.mp hm
  exact Transducer.wellFormed_rewriter.closed

end Storage

end Transduction
