/-
Intersections recognize the common words.

A run on pairs of states is a run of each side, and both read the same word.  For the converse two
runs have to be put into an order that is built: between two symbols the silent moves of the first
side come before those of the second.  Which number a pair gets depends on the order in which the
moves of each pair are explored, but not what is recognized:

* `Acceptor.PairMove`, with `Acceptor.mem_pairMoves_iff` — the moves of a pair are of three kinds;
* `Acceptor.pairMachine` — the pairs of states that are met, where the moves of each pair are listed
  in an order of its own;
* `Acceptor.paths_of_pairPath`, `Acceptor.exists_pairPath` — runs on pairs and pairs of runs;
* `Acceptor.accepts_pairMachine_iff`, `Acceptor.recognizes_pairMachine_iff` and
  `Acceptor.recognizes_intersection` — the words.
-/
import Mathlib.Data.List.ProdSigma
import Transduction.Proofs.Constructions
import Transduction.Proofs.Recognition

namespace Transduction.Acceptor

variable {a b : Acceptor} {p p' q q' : Nat} {s s' : Nat × Nat} {l : Option Char}
  {ls la lb : List (Option Char)} {w : Word}

/-! ### Pairs of states -/

/-- One step of a pair: a silent move of either side, or a symbol that both sides read. -/
inductive PairMove (a b : Acceptor) : Nat × Nat → Option Char → Nat × Nat → Prop where
  | first {p p' q : Nat} : (none, p') ∈ a.moves p → PairMove a b (p, q) none (p', q)
  | common {p p' q q' : Nat} {c : Char} : (some c, p') ∈ a.moves p → (some c, q') ∈ b.moves q →
      PairMove a b (p, q) (some c) (p', q')
  | second {p q q' : Nat} : (none, q') ∈ b.moves q → PairMove a b (p, q) none (p, q')

theorem mem_pairMoves_iff : (l, s') ∈ pairMoves a b s ↔ PairMove a b s l s' := by
  obtain ⟨p, q⟩ := s
  simp only [pairMoves, List.mem_append, List.mem_flatMap, List.mem_filterMap]
  constructor
  · intro h
    obtain ⟨⟨k, p'⟩, hmove, h⟩ | ⟨⟨k, q'⟩, hmove, h⟩ := h
    -- A move of the first side is silent, or waits for one of the second on its symbol.
    · cases k with
      | none =>
        cases List.mem_singleton.mp h
        exact .first hmove
      | some c =>
        obtain ⟨⟨k', q'⟩, hmove', h⟩ := List.mem_filterMap.mp h
        simp only at h
        split at h
        · rename_i hk
          subst hk
          cases h
          exact .common hmove hmove'
        · cases h
    -- A move of the second side is taken alone only if it is silent.
    · split at h
      · rename_i hk
        subst hk
        cases h
        exact .second hmove
      · cases h
  · intro h
    obtain hmove | ⟨hmove, hmove'⟩ | hmove := h
    · exact Or.inl ⟨_, hmove, List.mem_singleton_self _⟩
    · exact Or.inl ⟨_, hmove, List.mem_filterMap.mpr ⟨_, hmove', if_pos rfl⟩⟩
    · exact Or.inr ⟨_, hmove, if_pos rfl⟩

/-- The pairs of a state of either side. -/
def statePairs (a b : Acceptor) : List (Nat × Nat) := List.range a.size ×ˢ List.range b.size

/-- The pairs of initial states, with which the exploration starts. -/
abbrev initialPairs (a b : Acceptor) : List (Nat × Nat) :=
  a.initialStates.flatMap fun p => b.initialStates.map fun q => (p, q)

theorem mem_statePairs : s ∈ statePairs a b ↔ s.1 < a.size ∧ s.2 < b.size := by
  obtain ⟨p, q⟩ := s
  simp [statePairs]

theorem length_statePairs : (statePairs a b).length = a.size * b.size := by
  rw [statePairs, List.length_product, List.length_range, List.length_range]

theorem mem_initialPairs :
    s ∈ initialPairs a b ↔ a.isInitial s.1 = true ∧ b.isInitial s.2 = true := by
  simp only [initialPairs, List.mem_flatMap, List.mem_map, Machine.mem_initialStates]
  constructor
  · intro h
    obtain ⟨p, hp, q, hq, rfl⟩ := h
    exact ⟨hp, hq⟩
  · intro h
    exact ⟨s.1, h.1, s.2, h.2, rfl⟩

theorem mem_statePairs_of_initial (hs : s ∈ initialPairs a b) : s ∈ statePairs a b := by
  obtain ⟨hp, hq⟩ := mem_initialPairs.mp hs
  exact mem_statePairs.mpr ⟨Machine.lt_size_of_isInitial hp, Machine.lt_size_of_isInitial hq⟩

theorem mem_statePairs_of_move (ha : a.Closed) (hb : b.Closed) (hs : s ∈ statePairs a b)
    (h : PairMove a b s l s') : s' ∈ statePairs a b := by
  obtain ⟨hp, hq⟩ := mem_statePairs.mp hs
  refine mem_statePairs.mpr ?_
  cases h with
  | first hmove => exact ⟨ha _ _ _ hmove, hq⟩
  | common hmove hmove' => exact ⟨ha _ _ _ hmove, hb _ _ _ hmove'⟩
  | second hmove => exact ⟨hp, hb _ _ _ hmove⟩

/-! ### Runs on pairs and pairs of runs -/

/-- The machine of the pairs of states that `next` leads to from the pairs of initial states. -/
def pairMachine (next : Nat × Nat → List (Option Char × Nat × Nat)) (a b : Acceptor) : Acceptor :=
  Machine.explored id next (a.size * b.size) (initialPairs a b)
    (fun (p, q) => a.isInitial p && b.isInitial q)
    (fun (p, q) => a.isAccepting p && b.isAccepting q)

/-- An order that depends on the list of the moves alone is one that depends on the pair. -/
theorem intersectBy_eq (arrange : List (Option Char × Nat × Nat) → List (Option Char × Nat × Nat))
    (a b : Acceptor) :
    intersectBy arrange a b = pairMachine (fun pair => arrange (pairMoves a b pair)) a b := rfl

section paths

variable {next : Nat × Nat → List (Option Char × Nat × Nat)}
  (hnext : ∀ s l s', (l, s') ∈ next s ↔ PairMove a b s l s')

include hnext

/-- A path of pairs is a path of each side on the same word. -/
theorem paths_of_pairPath (h : Path next s ls s') :
    ∃ la lb, Path a.moves s.1 la s'.1 ∧ Path b.moves s.2 lb s'.2 ∧
      la.filterMap id = ls.filterMap id ∧ lb.filterMap id = ls.filterMap id := by
  induction h with
  | nil s => exact ⟨[], [], .nil s.1, .nil s.2, rfl, rfl⟩
  | cons hstep _ ih =>
    obtain ⟨la, lb, ha, hb, hfirst, hsecond⟩ := ih
    cases (hnext _ _ _).mp hstep with
    | first hmove => exact ⟨none :: la, lb, .cons hmove ha, hb, hfirst, hsecond⟩
    | @common _ _ _ _ c hmove hmove' =>
      exact ⟨some c :: la, some c :: lb, .cons hmove ha, .cons hmove' hb,
        congrArg (c :: ·) hfirst, congrArg (c :: ·) hsecond⟩
    | second hmove => exact ⟨la, none :: lb, ha, .cons hmove hb, hfirst, hsecond⟩

/-- The second side makes its silent moves alone. -/
theorem pairPath_of_silent (p : Nat) (hb : Path b.moves q lb q') (hs : ∀ l ∈ lb, l = none) :
    Path next (p, q) lb (p, q') := by
  induction hb with
  | nil q => exact .nil (p, q)
  | cons hmove _ ih =>
    obtain ⟨rfl, hrest⟩ := List.forall_mem_cons.mp hs
    exact .cons ((hnext _ _ _).mpr (.second hmove)) (ih hrest)

/-- Paths of the two sides on the same word make a path of pairs. -/
theorem exists_pairPath (ha : Path a.moves p la p') (hb : Path b.moves q lb q')
    (h : la.filterMap id = lb.filterMap id) :
    ∃ ls, Path next (p, q) ls (p', q') ∧ ls.filterMap id = la.filterMap id := by
  -- the first side leads: at each of its symbols the second side catches up
  induction ha generalizing q lb with
  | nil p =>
    have hs : ∀ l ∈ lb, l = none := List.filterMap_eq_nil_iff.mp h.symm
    exact ⟨lb, pairPath_of_silent hnext p hb hs, h.symm⟩
  | @cons p t p' l la hmove _ ih =>
    cases l with
    | none =>
      obtain ⟨ls, hpath, hword⟩ := ih hb h
      exact ⟨none :: ls, .cons ((hnext _ _ _).mpr (.first hmove)) hpath, hword⟩
    | some c =>
      have hread : lb.filterMap id = c :: la.filterMap id := h.symm
      obtain ⟨front, _, back, rfl, hs, rfl, hback⟩ := List.filterMap_eq_cons_iff.mp hread
      obtain ⟨t₁, hfront, hrest⟩ := path_append_iff.mp hb
      obtain ⟨t₂, hmove', hrest⟩ := path_cons_iff.mp hrest
      obtain ⟨ls, hpath, hword⟩ := ih hrest hback.symm
      have hsilent : Path next (p, q) front (p, t₁) := pairPath_of_silent hnext p hfront hs
      have hcommon : (some c, t, t₂) ∈ next (p, t₁) := (hnext _ _ _).mpr (.common hmove hmove')
      refine ⟨front ++ some c :: ls, hsilent.append (.cons hcommon hpath), ?_⟩
      rw [List.filterMap_append, List.filterMap_eq_nil_iff.mpr hs]
      exact congrArg (c :: ·) hword

/-- The labels of accepted runs on pairs are those of the paths between pairs of marked states. -/
theorem acceptsLabels_pairMachine_iff (ha : a.Closed) (hb : b.Closed) :
    (pairMachine next a b).AcceptsLabels ls ↔ ∃ s s' : Nat × Nat,
      (a.isInitial s.1 && b.isInitial s.2) = true ∧ Path next s ls s' ∧
      (a.isAccepting s'.1 && b.isAccepting s'.2) = true := by
  refine Machine.acceptsLabels_explored_iff (P := (· ∈ statePairs a b)) Function.injective_id
    (fun s => mem_statePairs_of_initial) (fun s hs l s' hstep => ?_) (fun s hs => hs)
    (Nat.le_of_eq length_statePairs) fun s hs => ?_
  · exact mem_statePairs_of_move ha hb hs ((hnext s l s').mp hstep)
  · exact mem_initialPairs.mpr (Bool.and_eq_true_iff.mp hs)

/-- The pairs that are met accept the words that both sides accept. -/
theorem accepts_pairMachine_iff (ha : a.Closed) (hb : b.Closed) :
    (pairMachine next a b).Accepts w ↔ a.Accepts w ∧ b.Accepts w := by
  simp only [accepts_iff, acceptsLabels_pairMachine_iff hnext ha hb, Bool.and_eq_true]
  constructor
  · intro h
    obtain ⟨ls, ⟨s, s', ⟨hp, hq⟩, hpath, hp', hq'⟩, rfl⟩ := h
    obtain ⟨la, lb, hpa, hpb, hfirst, hsecond⟩ := paths_of_pairPath hnext hpath
    exact ⟨⟨la, ⟨_, _, hp, hpa, hp'⟩, hfirst⟩, lb, ⟨_, _, hq, hpb, hq'⟩, hsecond⟩
  · intro h
    obtain ⟨⟨la, ⟨p, p', hp, hpa, hp'⟩, rfl⟩, lb, ⟨q, q', hq, hpb, hq'⟩, hword⟩ := h
    obtain ⟨ls, hpath, hls⟩ := exists_pairPath hnext hpa hpb hword.symm
    exact ⟨ls, ⟨(p, q), (p', q'), ⟨hp, hq⟩, hpath, hp', hq'⟩, hls⟩

end paths

/-- The order of the moves of a pair makes no difference to the words. -/
theorem recognizes_pairMachine_iff {next : Nat × Nat → List (Option Char × Nat × Nat)}
    (ha : a.Closed) (hb : b.Closed) (horder : ∀ pair, (next pair).Perm (pairMoves a b pair)) :
    (pairMachine next a b).recognizes w = true ↔
      a.recognizes w = true ∧ b.recognizes w = true := by
  have hclosed : (pairMachine next a b).Closed := Machine.closed_explored Function.injective_id
  have hnext (s : Nat × Nat) (l : Option Char) (s' : Nat × Nat) :
      (l, s') ∈ next s ↔ PairMove a b s l s' :=
    (horder s).mem_iff.trans mem_pairMoves_iff
  rw [recognizes_iff hclosed, recognizes_iff ha, recognizes_iff hb]
  exact accepts_pairMachine_iff hnext ha hb

/-- An intersection recognizes the words that both sides recognize, in whatever order the moves of
each pair are explored. -/
theorem recognizes_intersection (a b : Acceptor) (ha : a.WellFormed) (hb : b.WellFormed) :
    (∀ w, (a.intersect b).recognizes w = true ↔
      a.recognizes w = true ∧ b.recognizes w = true) ∧
    ∀ next : Nat × Nat → List (Option Char × Nat × Nat),
      (∀ pair, (next pair).Perm (pairMoves a b pair)) →
      ∀ w, (pairMachine next a b).recognizes w = true ↔
        a.recognizes w = true ∧ b.recognizes w = true := by
  refine ⟨fun w => ?_,
    fun next horder w => recognizes_pairMachine_iff ha.closed hb.closed horder⟩
  -- the moves as they are listed are one of the orders
  rw [intersect, intersectBy_eq]
  exact recognizes_pairMachine_iff ha.closed hb.closed fun _ => .refl _

/-- The words over `a` and `b` that end in `b`; states 0 and 1 reach each other silently. -/
def lastIsB : Acceptor where
  nodes := #[{ initial := true, moves := [(none, 1), (some 'a', 0)] },
    { moves := [(none, 0), (some 'b', 2)] }, { accepting := true, moves := [(none, 0)] }]

/-- The words over `a` and `b` of even length, with a silent cycle through acceptance. -/
def evenLength : Acceptor where
  nodes := #[
    { initial := true, accepting := true, moves := [(none, 2), (some 'a', 1), (some 'b', 1)] },
    { moves := [(some 'a', 0), (some 'b', 0)] }, { moves := [(none, 0)] }]

/-- The moves of some pairs as they are listed, and those of the others backwards. -/
def alternating (pair : Nat × Nat) : List (Option Char × Nat × Nat) :=
  if pair.1 = 1 then pairMoves lastIsB evenLength pair
  else (pairMoves lastIsB evenLength pair).reverse

/-- Another order gives another machine, and the same words. -/
theorem recognizes_intersection_alternating : lastIsB.WellFormed ∧ evenLength.WellFormed ∧
    pairMachine alternating lastIsB evenLength ≠ lastIsB.intersect evenLength ∧
    (lastIsB.intersect evenLength).recognizes ['b', 'a', 'a', 'b'] = true ∧
    (pairMachine alternating lastIsB evenLength).recognizes ['b', 'a', 'a', 'b'] = true ∧
    (pairMachine alternating lastIsB evenLength).recognizes ['b'] = false := by
  have ha : lastIsB.WellFormed := by decide
  have hb : evenLength.WellFormed := by decide
  have horder (pair : Nat × Nat) :
      (alternating pair).Perm (pairMoves lastIsB evenLength pair) := by
    rw [alternating]
    split
    · exact .refl _
    · exact List.reverse_perm _
  obtain ⟨hlisted, hany⟩ := recognizes_intersection lastIsB evenLength ha hb
  have both : lastIsB.recognizes ['b', 'a', 'a', 'b'] = true ∧
      evenLength.recognizes ['b', 'a', 'a', 'b'] = true := by decide +kernel
  refine ⟨ha, hb, by decide +kernel, (hlisted _).mpr both, (hany _ horder _).mpr both, ?_⟩
  rw [Bool.eq_false_iff, ne_eq, hany _ horder]
  decide +kernel

end Transduction.Acceptor
