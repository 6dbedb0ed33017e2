/-
Runs of a rewriter.

A run goes from copying to copying.  What it has met is kept in a guard, which a symbol
that is copied and a match that is finished change in ways of their own, by the policy:

* `Plan.copyGuard`, `Plan.matchGuard` — the guard behind a symbol that is copied, and
  behind a match;
* `Plan.ScanMove`, `Plan.mem_moves_iff` — the moves under any policy;
* `Plan.Rewrites` — the rewritings of a text that a guard admits, piece by piece;
* `Plan.rewrites_of_path`, `Plan.exists_path_of_rewrites` — runs and rewritings;
* `Plan.Proper`, `proper_plan` — plans whose matches are the inputs of the rule;
* `Plan.relates_build_iff` — the relation of the rewriter.
-/
import Mathlib.Data.List.ProdSigma
import Transduction.Proofs.Guards
import Transduction.Proofs.Languages
import Transduction.Proofs.Minimization
import Transduction.Proofs.Subsets

namespace Transduction.Rewriter

namespace Plan

variable {plan : Plan} {guard guard' : StateSet} {anchor anchor' : Option Nat} {q t : Nat}
  {c : Char} {v w x y z : Word} {l : Option Char × Word} {ls : List (Option Char × Word)}
  {s e : Scan}

/-! ### Guards along a run -/

/-- The guard after a symbol is copied, unless a match ends with it that may not be
copied. -/
def copyGuard (plan : Plan) (guard : StateSet) (c : Char) : Option StateSet :=
  match plan.policy with
  | .optional => some .empty
  | _ => plan.step? (guard.insert plan.matcher.start) c

/-- What is kept inside a match: the guard, and the run of the match where longer
matches matter. -/
abbrev Kept := StateSet × Option Nat

/-- What is kept at the start of a match. -/
def enter (plan : Plan) (guard : StateSet) : Kept :=
  match plan.policy with
  | .leftmostLongest => (guard, some plan.matcher.start)
  | _ => (.empty, none)

/-- What is kept after a symbol of a match, if it may be read. -/
def read? (plan : Plan) (kept : Kept) (c : Char) : Option Kept :=
  match plan.policy with
  | .leftmostLongest => do
    let anchor ← plan.matcher.delta (← kept.2) c
    let guard ← plan.step? kept.1 c
    some (guard, some anchor)
  | _ => some kept

/-- The guard behind a match that ends with what is kept. -/
def leave (kept : Kept) : StateSet := kept.2.elim kept.1 kept.1.insert

/-- The guard behind a match, if the match may be read. -/
def matchGuard (plan : Plan) (guard : StateSet) (v : Word) : Option StateSet :=
  (follow plan.read? (plan.enter guard) v).map leave

theorem matchGuard_eq_some_iff : plan.matchGuard guard v = some guard' ↔
    ∃ kept, follow plan.read? (plan.enter guard) v = some kept ∧ leave kept = guard' :=
  Option.map_eq_some_iff

/-- Where longer matches do not matter, a match may always be read, and nothing is guarded
behind it. -/
theorem matchGuard_eq_empty (hpolicy : plan.policy ≠ .leftmostLongest) :
    plan.matchGuard guard v = some .empty := by
  have enter_eq : plan.enter guard = (.empty, none) := by
    rw [enter]
    split
    · contradiction
    · rfl
  have follow_eq : ∀ kept, follow plan.read? kept v = some kept := by
    intro kept
    induction v with
    | nil => rfl
    | cons c v ih =>
      refine follow_cons_eq_some.mpr ⟨kept, ?_, ih⟩
      rw [read?]
      split
      · contradiction
      · rfl
  rw [matchGuard, enter_eq, follow_eq]
  rfl

/-! ### Moves -/

/-- The moves of a rewriter: copying a symbol, entering the rule, moving silently inside
it, reading a symbol inside it, and leaving it. -/
inductive ScanMove (plan : Plan) : Scan → Option Char × Word → Scan → Prop where
  | copies {guard guard' : StateSet} {c : Char} : c ∈ plan.symbols →
      plan.copyGuard guard c = some guard' →
      ScanMove plan ⟨.copying, guard⟩ (some c, [c]) ⟨.copying, guard'⟩
  | enters {guard guard' : StateSet} {anchor : Option Nat} {q : Nat} :
      plan.rule.isInitial q = true → plan.enter guard = (guard', anchor) →
      ScanMove plan ⟨.copying, guard⟩ Transducer.silent ⟨.matching q anchor, guard'⟩
  | silent {guard : StateSet} {anchor : Option Nat} {q t : Nat} {w : Word} :
      ((none, w), t) ∈ plan.rule.moves q →
      ScanMove plan ⟨.matching q anchor, guard⟩ (none, w) ⟨.matching t anchor, guard⟩
  | reads {guard guard' : StateSet} {anchor anchor' : Option Nat} {q t : Nat} {c : Char}
      {w : Word} : ((some c, w), t) ∈ plan.rule.moves q → c ∈ plan.symbols →
      plan.read? (guard, anchor) c = some (guard', anchor') →
      ScanMove plan ⟨.matching q anchor, guard⟩ (some c, w) ⟨.matching t anchor', guard'⟩
  | leaves {guard : StateSet} {anchor : Option Nat} {q : Nat} :
      plan.rule.isAccepting q = true →
      ScanMove plan ⟨.matching q anchor, guard⟩ Transducer.silent
        ⟨.copying, leave (guard, anchor)⟩

theorem copyMoves_eq (plan : Plan) (guard : StateSet) : plan.copyMoves guard =
    plan.symbols.filterMap fun c =>
      (plan.copyGuard guard c).map fun next => ((some c, [c]), ⟨.copying, next⟩) := rfl

theorem beginMoves_eq (plan : Plan) (guard : StateSet) : plan.beginMoves guard =
    plan.rule.initialStates.map fun q =>
      (Transducer.silent, ⟨.matching q (plan.enter guard).2, (plan.enter guard).1⟩) := rfl

/-- Inside a match the guard and the run of the match follow the symbols of the text. -/
theorem matchMoves_eq (plan : Plan) (q : Nat) (anchor : Option Nat) (guard : StateSet) :
    plan.matchMoves q anchor guard = (plan.rule.moves q).filterMap fun ((l, w), t) =>
      (match l with
        | none => some (guard, anchor)
        | some c => if c ∈ plan.symbols then plan.read? (guard, anchor) c else none).map
      fun kept : Kept => ((l, w), ⟨.matching t kept.2, kept.1⟩) := by
  rw [matchMoves]
  refine congrArg (List.filterMap · _) (funext fun move => ?_)
  obtain ⟨⟨l, w⟩, t⟩ := move
  cases l with
  | none => rfl
  | some c =>
    by_cases hc : c ∈ plan.symbols
    · simp only [List.contains_iff_mem.mpr hc, Bool.not_true, Bool.false_eq_true, if_false,
        if_pos hc, read?]
      -- Only the leftmost-longest policy has an anchor to move on.
      cases plan.policy with
      | leftmostLongest =>
        cases anchor with
        | none => rfl
        | some a =>
          cases hdelta : plan.matcher.delta a c with
          | none => simp [hdelta]
          | some a' => cases plan.step? guard c <;> simp [hdelta]
      | _ => rfl
    · have hcontains : plan.symbols.contains c = false := by simpa using hc
      simp only [hcontains, Bool.not_false, if_true, if_neg hc]
      rfl

theorem mem_moves_copying_iff :
    (l, e) ∈ plan.moves ⟨.copying, guard⟩ ↔ ScanMove plan ⟨.copying, guard⟩ l e := by
  simp only [moves, copyMoves_eq, beginMoves_eq, List.mem_append, List.mem_filterMap,
    List.mem_map, Option.map_eq_some_iff]
  constructor
  · rintro (⟨c, hc, next, hnext, he⟩ | ⟨q, hq, he⟩)
    · cases he
      exact .copies hc hnext
    · cases he
      exact .enters (Machine.mem_initialStates.mp hq) rfl
  · intro h
    cases h with
    | copies hc hnext => exact Or.inl ⟨_, hc, _, hnext, rfl⟩
    | enters hq henter => exact Or.inr ⟨_, Machine.mem_initialStates.mpr hq, by rw [henter]⟩

theorem mem_moves_matching_iff : (l, e) ∈ plan.moves ⟨.matching q anchor, guard⟩ ↔
    ScanMove plan ⟨.matching q anchor, guard⟩ l e := by
  simp only [moves, matchMoves_eq, endMoves, List.mem_append, List.mem_filterMap,
    Option.map_eq_some_iff]
  constructor
  · rintro (⟨⟨⟨label, w⟩, t⟩, hmove, kept, hkept, he⟩ | hend)
    · cases he
      -- A move of the rule reads nothing, or a symbol that both anchor and guard allow.
      cases label with
      | none =>
        cases hkept
        exact .silent hmove
      | some c =>
        by_cases hc : c ∈ plan.symbols
        · exact .reads hmove hc (by simpa only [if_pos hc] using hkept)
        · simp only [if_neg hc] at hkept
          cases hkept
    -- Behind an accepting state of the rule the match may end.
    · split at hend
      · rename_i hacc
        cases List.mem_singleton.mp hend
        exact .leaves hacc
      · cases hend
  · intro h
    cases h with
    | silent hmove => exact Or.inl ⟨_, hmove, _, rfl, rfl⟩
    | reads hmove hc hread => exact Or.inl ⟨_, hmove, _, by simpa only [if_pos hc] using hread, rfl⟩
    | leaves hacc =>
      rw [if_pos hacc]
      exact Or.inr (List.mem_singleton.mpr rfl)

theorem mem_moves_iff : (l, e) ∈ plan.moves s ↔ ScanMove plan s l e := by
  obtain ⟨phase, guard⟩ := s
  cases phase with
  | copying => exact mem_moves_copying_iff
  | matching q anchor => exact mem_moves_matching_iff

/-! ### Rewritings -/

/-- The rewritings of a text over the symbols that a guard admits: each piece of the
text is one symbol that is copied, or a match that is rewritten. -/
inductive Rewrites (plan : Plan) : StateSet → Word → Word → Prop where
  | done {guard : StateSet} : Rewrites plan guard [] []
  | copy {guard guard' : StateSet} {c : Char} {w z : Word} : c ∈ plan.symbols →
      plan.copyGuard guard c = some guard' → Rewrites plan guard' w z →
      Rewrites plan guard (c :: w) (c :: z)
  | rewrite {guard guard' : StateSet} {v y w z : Word} : (∀ c ∈ v, c ∈ plan.symbols) →
      plan.rule.Relates v y → plan.matchGuard guard v = some guard' → Rewrites plan guard' w z →
      Rewrites plan guard (v ++ w) (y ++ z)

theorem Rewrites.mem_symbols (h : plan.Rewrites guard w z) : ∀ c ∈ w, c ∈ plan.symbols := by
  induction h with
  | done => exact fun c hc => absurd hc List.not_mem_nil
  | copy hc _ _ ih =>
    intro d hd
    rcases List.mem_cons.mp hd with rfl | hd
    · exact hc
    · exact ih d hd
  | rewrite hv _ _ _ ih =>
    intro d hd
    rcases List.mem_append.mp hd with hd | hd
    · exact hv d hd
    · exact ih d hd

/-- From a state of the rule and what is kept there, the rest of a match is read, and
the rest of the text is rewritten from the guard behind the match. -/
structure Finishes (plan : Plan) (q : Nat) (kept : Kept) (inner : List (Option Char × Word))
    (w z : Word) : Prop where
  exists_path : ∃ t, Path plan.rule.moves q inner t ∧ plan.rule.isAccepting t = true
  mem_symbols : ∀ c ∈ readsOf inner, c ∈ plan.symbols
  exists_rewrites : ∃ last, follow plan.read? kept (readsOf inner) = some last ∧
    plan.Rewrites (leave last) w z

/-- A match that is finished from its start is rewritten. -/
theorem Finishes.rewrites (hq : plan.rule.isInitial q = true)
    (h : plan.Finishes q (plan.enter guard) ls w z) :
    plan.Rewrites guard (readsOf ls ++ w) (writesOf ls ++ z) := by
  obtain ⟨⟨t, hpath, hacc⟩, hsymbols, last, hlast, hrest⟩ := h
  exact .rewrite hsymbols (Transducer.relates_iff.mpr ⟨ls, ⟨q, t, hq, hpath, hacc⟩, rfl, rfl⟩)
    (matchGuard_eq_some_iff.mpr ⟨last, hlast, rfl⟩) hrest

/-- A run that ends in copying makes a rewriting; inside a match it first finishes the
match. -/
theorem rewrites_of_path (h : Path plan.moves s ls e) (he : e.phase = .copying) :
    (∀ guard, s = ⟨.copying, guard⟩ → plan.Rewrites guard (readsOf ls) (writesOf ls)) ∧
    ∀ q anchor guard, s = ⟨.matching q anchor, guard⟩ → ∃ inner w z,
      plan.Finishes q (guard, anchor) inner w z ∧ readsOf ls = readsOf inner ++ w ∧
        writesOf ls = writesOf inner ++ z := by
  -- the two halves need each other: a copying state enters matches, a matching one leaves them
  induction h with
  | nil s =>
    refine ⟨?_, ?_⟩
    · rintro guard rfl
      exact .done
    · rintro q anchor guard rfl
      cases he
  | @cons s t e l ls hmove _ ih =>
    obtain ⟨hcopying, hmatching⟩ := ih he
    refine ⟨?_, ?_⟩
    · rintro guard rfl
      cases mem_moves_iff.mp hmove with
      | copies hc hguard => exact .copy hc hguard (hcopying _ rfl)
      | enters hq henter =>
        -- the match was entered with the anchor that the rest of the path finishes with
        obtain ⟨inner, w, z, hfinishes, hreads, hwrites⟩ := hmatching _ _ _ rfl
        rw [← henter] at hfinishes
        have hrewrites := hfinishes.rewrites hq
        rw [← hreads, ← hwrites] at hrewrites
        exact hrewrites
    · rintro q anchor guard rfl
      cases mem_moves_iff.mp hmove with
      | @silent _ _ _ t v hinner =>
        obtain ⟨inner, w, z, ⟨⟨r, hpath, hacc⟩, hsymbols, hrest⟩, hreads, hwrites⟩ :=
          hmatching _ _ _ rfl
        exact ⟨(none, v) :: inner, w, z, ⟨⟨r, .cons hinner hpath, hacc⟩, hsymbols, hrest⟩,
          by simp [hreads], by simp [hwrites]⟩
      | @reads _ guard' _ anchor' _ t c v hinner hc hread =>
        obtain ⟨inner, w, z, ⟨⟨r, hpath, hacc⟩, hsymbols, last, hlast, hrest⟩, hreads, hwrites⟩ :=
          hmatching _ _ _ rfl
        refine ⟨(some c, v) :: inner, w, z, ⟨⟨r, .cons hinner hpath, hacc⟩, ?_, last,
          follow_cons_eq_some.mpr ⟨_, hread, hlast⟩, hrest⟩, by simp [hreads], by simp [hwrites]⟩
        intro d hd
        rcases List.mem_cons.mp hd with rfl | hd
        · exact hc
        · exact hsymbols d hd
      | leaves hacc =>
        -- nothing of the match is left, and the rest is rewritten from the copying state
        exact ⟨[], _, _, ⟨⟨q, .nil q, hacc⟩, by simp, (guard, anchor), rfl, hcopying _ rfl⟩,
          rfl, rfl⟩

/-- A path of the rule is followed inside a match, as long as what it reads may be
read. -/
theorem exists_path_of_inner {kept kept' : Kept} (h : Path plan.rule.moves q ls t)
    (hsymbols : ∀ c ∈ readsOf ls, c ∈ plan.symbols)
    (hkept : follow plan.read? kept (readsOf ls) = some kept') :
    Path plan.moves ⟨.matching q kept.2, kept.1⟩ ls ⟨.matching t kept'.2, kept'.1⟩ := by
  induction h generalizing kept with
  | nil q =>
    cases hkept
    exact .nil _
  | @cons q t r l ls hmove _ ih =>
    obtain ⟨c, v⟩ := l
    cases c with
    | none => exact .cons (mem_moves_iff.mpr (.silent hmove)) (ih hsymbols hkept)
    | some c =>
      obtain ⟨next, hread, hkept⟩ := follow_cons_eq_some.mp hkept
      have hc : c ∈ plan.symbols := hsymbols c List.mem_cons_self
      exact .cons (mem_moves_iff.mpr (.reads hmove hc hread))
        (ih (fun d hd => hsymbols d (List.mem_cons_of_mem c hd)) hkept)

/-- Every rewriting that a guard admits is made by a run. -/
theorem exists_path_of_rewrites (h : plan.Rewrites guard w z) :
    ∃ ls guard', Path plan.moves ⟨.copying, guard⟩ ls ⟨.copying, guard'⟩ ∧ readsOf ls = w ∧
      writesOf ls = z := by
  induction h with
  | @done guard => exact ⟨[], guard, .nil _, rfl, rfl⟩
  | @copy guard guard₁ c w z hc hguard _ ih =>
    obtain ⟨ls, guard', hpath, rfl, rfl⟩ := ih
    exact ⟨(some c, [c]) :: ls, guard', .cons (mem_moves_iff.mpr (.copies hc hguard)) hpath,
      rfl, rfl⟩
  | @rewrite guard guard₁ v y w z hsymbols hrelates hguard _ ih =>
    obtain ⟨ls, guard', hpath, rfl, rfl⟩ := ih
    obtain ⟨inner, ⟨q, t, hq, hinner, hacc⟩, rfl, rfl⟩ := Transducer.relates_iff.mp hrelates
    obtain ⟨last, hlast, rfl⟩ := matchGuard_eq_some_iff.mp hguard
    -- A match is entered, run through and left, and only the run in between reads and writes.
    have hmatch := exists_path_of_inner hinner hsymbols hlast
    have henter : (Transducer.silent, ⟨.matching q (plan.enter guard).2, (plan.enter guard).1⟩) ∈
        plan.moves ⟨.copying, guard⟩ := mem_moves_iff.mpr (.enters hq rfl)
    have hleave : (Transducer.silent, ⟨.copying, leave last⟩) ∈
        plan.moves ⟨.matching t last.2, last.1⟩ := mem_moves_iff.mpr (.leaves hacc)
    refine ⟨Transducer.silent :: (inner ++ Transducer.silent :: ls), guard',
      .cons henter (hmatch.append (.cons hleave hpath)), ?_, ?_⟩
    · simp [Transducer.silent]
    · simp [Transducer.silent]

/-! ### The rewriter of a plan -/

/-- The keys of the states that can be met. -/
def keys (plan : Plan) : List (Option (Nat × Option Nat) × Nat) :=
  let matching := List.range plan.rule.size ×ˢ (none :: (List.range plan.matcher.size).map some)
  (none :: matching.map some) ×ˢ List.range (2 ^ plan.matcher.size)

theorem length_keys : plan.keys.length =
    (1 + plan.rule.size * (plan.matcher.size + 1)) * 2 ^ plan.matcher.size := by
  simp only [keys, List.length_product, List.length_cons, List.length_map, List.length_range]
  rw [Nat.add_comm 1]

theorem mem_keys_copying_iff :
    (⟨.copying, guard⟩ : Scan).key ∈ plan.keys ↔ ∀ r ∈ guard, r < plan.matcher.size := by
  rw [← StateSet.bits_lt]
  simp [keys, Scan.key]

theorem mem_keys_matching_iff : (⟨.matching q anchor, guard⟩ : Scan).key ∈ plan.keys ↔
    (q < plan.rule.size ∧ ∀ a ∈ anchor, a < plan.matcher.size) ∧
      ∀ r ∈ guard, r < plan.matcher.size := by
  rw [← StateSet.bits_lt]
  cases anchor <;> simp [keys, Scan.key]

theorem key_injective : Function.Injective Scan.key := by
  rintro ⟨phase, ⟨bits⟩⟩ ⟨phase', ⟨bits'⟩⟩ h
  cases phase <;> cases phase' <;> simp_all [Scan.key]

theorem lt_of_mem_leave (ha : ∀ a ∈ anchor, a < plan.matcher.size)
    (hguard : ∀ r ∈ guard, r < plan.matcher.size) :
    ∀ r ∈ leave (guard, anchor), r < plan.matcher.size := by
  intro r hr
  cases anchor with
  | none => exact hguard r hr
  | some a =>
    rcases StateSet.mem_insert.mp hr with rfl | hr
    · exact ha r rfl
    · exact hguard r hr

section inside

variable (hm : plan.matcher.WellFormed)

include hm

theorem lt_of_mem_step? (h : plan.step? guard c = some guard') :
    ∀ r ∈ guard', r < plan.matcher.size := by
  intro r hr
  obtain ⟨q, _, hdelta⟩ := (mem_of_step? h).mp hr
  exact hm.delta_lt hdelta

theorem lt_of_mem_copyGuard (h : plan.copyGuard guard c = some guard') :
    ∀ r ∈ guard', r < plan.matcher.size := by
  rw [copyGuard] at h
  split at h
  · cases h
    exact fun r hr => absurd hr (StateSet.not_mem_empty r)
  · exact lt_of_mem_step? hm h

theorem lt_of_mem_enter (h : plan.enter guard = (guard', anchor))
    (hguard : ∀ r ∈ guard, r < plan.matcher.size) :
    (∀ a ∈ anchor, a < plan.matcher.size) ∧ ∀ r ∈ guard', r < plan.matcher.size := by
  rw [enter] at h
  split at h
  · cases h
    refine ⟨fun a ha => ?_, hguard⟩
    cases ha
    exact hm.start_lt
  · cases h
    exact ⟨fun a ha => (nomatch ha), fun r hr => absurd hr (StateSet.not_mem_empty r)⟩

theorem lt_of_mem_read? (h : plan.read? (guard, anchor) c = some (guard', anchor'))
    (ha : ∀ a ∈ anchor, a < plan.matcher.size) (hguard : ∀ r ∈ guard, r < plan.matcher.size) :
    (∀ a ∈ anchor', a < plan.matcher.size) ∧ ∀ r ∈ guard', r < plan.matcher.size := by
  rw [read?] at h
  split at h
  · obtain ⟨a, _, h⟩ := Option.bind_eq_some_iff.mp h
    obtain ⟨a', hdelta, h⟩ := Option.bind_eq_some_iff.mp h
    obtain ⟨next, hstep, h⟩ := Option.bind_eq_some_iff.mp h
    cases h
    refine ⟨fun r hr => ?_, lt_of_mem_step? hm hstep⟩
    cases hr
    exact hm.delta_lt hdelta
  · cases h
    exact ⟨ha, hguard⟩

theorem mem_keys_of_mem_moves (hr : plan.rule.Closed) (hs : s.key ∈ plan.keys)
    (h : (l, e) ∈ plan.moves s) : e.key ∈ plan.keys := by
  cases mem_moves_iff.mp h with
  | copies _ hguard => exact mem_keys_copying_iff.mpr (lt_of_mem_copyGuard hm hguard)
  | enters hq henter =>
    obtain ⟨ha, hguard⟩ := lt_of_mem_enter hm henter (mem_keys_copying_iff.mp hs)
    exact mem_keys_matching_iff.mpr ⟨⟨Machine.lt_size_of_isInitial hq, ha⟩, hguard⟩
  | silent hmove =>
    obtain ⟨⟨_, ha⟩, hguard⟩ := mem_keys_matching_iff.mp hs
    exact mem_keys_matching_iff.mpr ⟨⟨hr _ _ _ hmove, ha⟩, hguard⟩
  | reads hmove _ hread =>
    obtain ⟨⟨_, ha⟩, hguard⟩ := mem_keys_matching_iff.mp hs
    obtain ⟨ha, hguard⟩ := lt_of_mem_read? hm hread ha hguard
    exact mem_keys_matching_iff.mpr ⟨⟨hr _ _ _ hmove, ha⟩, hguard⟩
  | leaves _ =>
    obtain ⟨⟨_, ha⟩, hguard⟩ := mem_keys_matching_iff.mp hs
    exact mem_keys_copying_iff.mpr (lt_of_mem_leave ha hguard)

end inside

theorem wellFormed_build (plan : Plan) : plan.build.WellFormed :=
  Machine.wellFormed_trim (Machine.closed_explored key_injective)

/-- The matcher of the plan recognizes the inputs of the rule, none of which is empty. -/
structure Proper (plan : Plan) : Prop where
  closed_rule : plan.rule.Closed
  wellFormed_matcher : plan.matcher.WellFormed
  matches_iff : ∀ v, plan.Matches v ↔ ∃ y, plan.rule.Relates v y
  ne_nil : ∀ v y, plan.rule.Relates v y → v ≠ []

/-- The rewriter relates a text to its rewritings without a guard. -/
theorem relates_build_iff (hp : plan.Proper) :
    plan.build.Relates w z ↔ plan.Rewrites .empty w z := by
  -- What is explored and trimmed accepts the runs of the plan from the start back to copying.
  have acceptsLabels_iff (ls : List (Option Char × Word)) : plan.build.AcceptsLabels ls ↔
      ∃ s e, decide (s = start) = true ∧ Path plan.moves s ls e ∧
        decide (e.phase = .copying) = true := by
    rw [build, Machine.acceptsLabels_trim (Machine.closed_explored key_injective)]
    refine Machine.acceptsLabels_explored_iff (P := fun s => s.key ∈ plan.keys) key_injective ?_
      (fun s hs l e hmove => mem_keys_of_mem_moves hp.wellFormed_matcher
        hp.closed_rule hs hmove) (fun s hs => hs)
      length_keys.le (fun s hs => ?_)
    · intro s hs
      obtain rfl := List.mem_singleton.mp hs
      exact mem_keys_copying_iff.mpr fun r hr => absurd hr (StateSet.not_mem_empty r)
    · exact List.mem_singleton.mpr (of_decide_eq_true hs)
  simp only [Transducer.relates_iff, acceptsLabels_iff, decide_eq_true_eq]
  constructor
  · rintro ⟨ls, ⟨s, e, rfl, hpath, he⟩, rfl, rfl⟩
    exact (rewrites_of_path hpath he).1 _ rfl
  · intro h
    obtain ⟨ls, guard', hpath, hreads, hwrites⟩ := exists_path_of_rewrites h
    exact ⟨ls, ⟨start, _, rfl, hpath, rfl⟩, hreads, hwrites⟩

end Plan

section plan

variable {rule : Transducer} {A : List Char} {policy : Policy}

@[simp] theorem rule_plan : (plan rule A policy).rule = rule := rfl

@[simp] theorem policy_plan : (plan rule A policy).policy = policy := rfl

@[simp] theorem mem_symbols_plan {c : Char} : c ∈ (plan rule A policy).symbols ↔ c ∈ A :=
  mem_ascending

/-- The plan for a rule without an empty input. -/
theorem proper_plan (hr : rule.Closed)
    (hne : ∀ v y, rule.Relates v y → v ≠ []) : (plan rule A policy).Proper where
  closed_rule := hr
  wellFormed_matcher := Dfa.wellFormed_minimize (Acceptor.wellFormed_determinize _)
  matches_iff v := by
    have hdomain : rule.domain.Closed := Machine.closed_mapLabels hr
    rw [Plan.Matches, plan, Dfa.recognizes_minimize (Acceptor.wellFormed_determinize _),
      Acceptor.recognizes_determinize hdomain, Transducer.accepts_domain_iff]
  ne_nil := hne

end plan

end Transduction.Rewriter
