/-
The subset construction is right.

A set of states that a word leads to holds the states that some run reaches on that
word, and a word that leads nowhere has no run:

* `Acceptor.Reaches` — some run reads the word and ends in the state;
* `Acceptor.mem_follow_subsets` — the sets, word by word;
* `Acceptor.recognizes_determinize`, `Acceptor.wellFormed_determinize` — the
  deterministic automaton recognizes what the acceptor accepts.
-/
import Mathlib.Data.List.Induction
import Transduction.Acceptor.Subsets
import Transduction.Proofs.Deterministic
import Transduction.Proofs.Simulation

namespace Transduction.Acceptor

variable {a : Acceptor} {s t : StateSet} {p q : Nat} {c : Char} {w : Word}
  {entry : StateSet × List (Char × StateSet)}

/-- Some run from an initial state reads the word and ends in the state. -/
def Reaches (a : Acceptor) (w : Word) (q : Nat) : Prop :=
  ∃ p ls, a.isInitial p = true ∧ Path a.moves p ls q ∧ ls.filterMap id = w

theorem accepts_iff_reaches : a.Accepts w ↔ ∃ q, a.Reaches w q ∧ a.isAccepting q = true := by
  rw [accepts_iff]
  constructor
  · rintro ⟨ls, ⟨p, q, hp, hpath, hq⟩, hw⟩
    exact ⟨q, ⟨p, ls, hp, hpath, hw⟩, hq⟩
  · rintro ⟨q, ⟨p, ls, hp, hpath, hw⟩, hq⟩
    exact ⟨ls, ⟨p, q, hp, hpath, hq⟩, hw⟩

theorem forall_isNone_iff {ls : List (Option Char)} :
    (∀ l ∈ ls, l.isNone = true) ↔ ls.filterMap id = [] := by
  simp [List.filterMap_eq_nil_iff]

/-- A run that reads one symbol more splits into a run up to that symbol, the move
that reads it, and silent moves. -/
theorem reaches_concat_iff : a.Reaches (w ++ [c]) q ↔
    ∃ p t ls, a.Reaches w p ∧ (some c, t) ∈ a.moves p ∧ Path a.moves t ls q ∧
      ls.filterMap id = [] := by
  constructor
  · rintro ⟨p₀, ls, hp₀, hpath, hw⟩
    obtain ⟨front, rest, rfl, hfront, hrest⟩ := List.filterMap_eq_append_iff.mp hw
    obtain ⟨silent, l, back, rfl, hsilent, hl, hback⟩ := List.filterMap_eq_cons_iff.mp hrest
    obtain rfl : l = some c := hl
    obtain ⟨p₁, hpath₁, hpath⟩ := path_append_iff.mp hpath
    obtain ⟨p, hpath₂, hpath⟩ := path_append_iff.mp hpath
    obtain ⟨t, hmove, hpath₃⟩ := path_cons_iff.mp hpath
    refine ⟨p, t, back, ⟨p₀, front ++ silent, hp₀, hpath₁.append hpath₂, ?_⟩, hmove, hpath₃, hback⟩
    rw [List.filterMap_append, hfront, List.filterMap_eq_nil_iff.mpr hsilent, List.append_nil]
  · rintro ⟨p, t, back, ⟨p₀, front, hp₀, hfront, rfl⟩, hmove, hback, hsilent⟩
    refine ⟨p₀, front ++ some c :: back, hp₀, hfront.append (.cons hmove hback), ?_⟩
    rw [List.filterMap_append, List.filterMap_cons, hsilent]
    rfl

/-- The set of the states that one symbol and silent moves lead to, unless it is
empty. -/
def subsetTarget (a : Acceptor) (s : StateSet) (c : Char) : Option StateSet :=
  if (a.advance reads s c).isEmpty then none
  else some (Machine.closeUnder (a.silentClosures Option.isNone) (a.advance reads s c))

/-- The set that a symbol of the alphabet leads to. -/
def subsetStep (a : Acceptor) (s : StateSet) (c : Char) : Option StateSet :=
  if c ∈ a.alphabet then a.subsetTarget s c else none

/-- The set of the states that silent moves reach from the initial states. -/
def startSubset (a : Acceptor) : StateSet :=
  Machine.closeUnder (a.silentClosures Option.isNone) (StateSet.ofList a.initialStates)

theorem subsetMoves_eq (a : Acceptor) :
    a.subsetMoves (a.silentClosures Option.isNone) a.alphabet = fun s =>
      a.alphabet.filterMap fun c => (a.subsetTarget s c).map fun t => (c, t) := by
  funext s
  refine congrArg (List.filterMap · a.alphabet) (funext fun c => ?_)
  rw [subsetTarget]
  simp only
  split <;> rfl

/-- The alphabet holds the symbols on the moves and no others. -/
theorem mem_alphabet_iff : c ∈ a.alphabet ↔ ∃ p q, (some c, q) ∈ a.moves p := by
  simp only [alphabet, mem_ascending, List.mem_flatMap, List.mem_filterMap]
  constructor
  · intro h
    obtain ⟨n, hn, ⟨l, q⟩, hmove, rfl⟩ := h
    obtain ⟨p, hp⟩ := Machine.exists_mem_moves_iff.mpr ⟨n, hn, hmove⟩
    exact ⟨p, q, hp⟩
  · intro h
    obtain ⟨p, q, hmove⟩ := h
    obtain ⟨n, hn, hmove⟩ := Machine.exists_mem_moves_iff.mp ⟨p, hmove⟩
    exact ⟨n, hn, _, hmove, rfl⟩

/-- Some word leads to each set of states that is met. -/
theorem exists_follow_of_mem_subsets (h : entry ∈ a.subsets) :
    ∃ w, follow a.subsetStep a.startSubset w = some entry.1 := by
  rw [subsets, subsetMoves_eq] at h
  refine Dfa.exists_follow_of_mem_foundFrom (fun s c t ht => ?_) h
  obtain ⟨hc, htarget⟩ := (mem_filterMap_symbols fun _ => rfl).mp ht
  rw [subsetStep, if_pos hc, htarget]

section closed

variable (ha : a.Closed)

include ha

theorem mem_startSubset : q ∈ a.startSubset ↔ a.Reaches [] q := by
  rw [startSubset, Machine.mem_closeUnder_silentClosures ha fun p hp =>
    Machine.lt_size_of_mem_initialStates (StateSet.mem_ofList.mp hp)]
  simp only [StateSet.mem_ofList, Machine.mem_initialStates, forall_isNone_iff]
  constructor
  · rintro ⟨p, hp, ls, hpath, hs⟩
    exact ⟨p, ls, hp, hpath, hs⟩
  · rintro ⟨p, ls, hp, hpath, hs⟩
    exact ⟨p, hp, ls, hpath, hs⟩

/-- The set after a symbol holds the states that runs reach on one symbol more. -/
theorem mem_subsetStep (hs : ∀ q, q ∈ s ↔ a.Reaches w q) :
    q ∈ (a.subsetStep s c).getD .empty ↔ a.Reaches (w ++ [c]) q := by
  -- One move that reads the symbol,
  have mem_advance (t : Nat) : t ∈ a.advance reads s c ↔
      ∃ p, a.Reaches w p ∧ (some c, t) ∈ a.moves p := by
    rw [Machine.mem_advance]
    constructor
    · rintro ⟨p, hp, l, hl, hread⟩
      obtain rfl : l = some c := beq_iff_eq.mp hread
      exact ⟨p, (hs p).mp hp, hl⟩
    · rintro ⟨p, hp, hl⟩
      exact ⟨p, (hs p).mpr hp, some c, hl, beq_iff_eq.mpr rfl⟩
  -- and silent moves behind it.
  have reaches_iff : a.Reaches (w ++ [c]) q ↔
      ∃ t ∈ a.advance reads s c, ∃ ls, Path a.moves t ls q ∧ ∀ l ∈ ls, l.isNone = true := by
    simp only [reaches_concat_iff, mem_advance, forall_isNone_iff]
    constructor
    · rintro ⟨p, t, ls, hp, hmove, hpath, hsilent⟩
      exact ⟨t, ⟨p, hp, hmove⟩, ls, hpath, hsilent⟩
    · rintro ⟨t, ⟨p, hp, hmove⟩, ls, hpath, hsilent⟩
      exact ⟨p, t, ls, hp, hmove, hpath, hsilent⟩
  rw [reaches_iff, subsetStep, subsetTarget]
  by_cases hc : c ∈ a.alphabet
  · rw [if_pos hc]
    split
    · rename_i hempty
      simp [StateSet.isEmpty_iff.mp hempty]
    · refine Machine.mem_closeUnder_silentClosures ha fun t ht => ?_
      obtain ⟨p, _, hmove⟩ := (mem_advance t).mp ht
      exact ha p _ t hmove
  -- On a symbol beyond the alphabet there is no move at all.
  · rw [if_neg hc]
    refine iff_of_false (StateSet.not_mem_empty q) ?_
    rintro ⟨t, ht, _⟩
    obtain ⟨p, _, hmove⟩ := (mem_advance t).mp ht
    exact hc (mem_alphabet_iff.mpr ⟨p, t, hmove⟩)

/-- The set that a word leads to holds the states that runs reach on it. -/
theorem mem_follow_subsets :
    q ∈ (follow a.subsetStep a.startSubset w).getD .empty ↔ a.Reaches w q := by
  induction w using List.reverseRecOn generalizing q with
  | nil => exact mem_startSubset ha
  | append_singleton w c ih =>
    rw [follow_concat]
    cases hw : follow a.subsetStep a.startSubset w with
    | none =>
      rw [hw] at ih
      refine iff_of_false (StateSet.not_mem_empty q) fun hq => ?_
      obtain ⟨p, _, _, hp, _⟩ := reaches_concat_iff.mp hq
      exact StateSet.not_mem_empty p (ih.mpr hp)
    | some s =>
      rw [hw] at ih
      exact mem_subsetStep ha fun q => ih

theorem lt_size_of_mem_subsets (h : entry ∈ a.subsets) (hq : q ∈ entry.1) : q < a.size := by
  obtain ⟨w, hw⟩ := exists_follow_of_mem_subsets h
  have hreaches := mem_follow_subsets ha (w := w) (q := q)
  rw [hw] at hreaches
  obtain ⟨p, ls, hp, hpath, _⟩ := hreaches.mp hq
  exact ha.path_lt hpath (Machine.lt_size_of_isInitial hp)

/-- States of the automaton stand for the sets that words lead to. -/
theorem follow_determinize : Option.Rel (Dfa.StandsFor (fun s : StateSet => s.bits) a.subsets)
    (follow a.determinize.delta a.determinize.start w) (follow a.subsetStep a.startSubset w) := by
  -- The search visits sets of states only, of which there are as many as its bound.
  let P : StateSet → Prop := fun s => s.bits < 2 ^ a.size
  have root : P a.startSubset := StateSet.bits_lt.mpr fun q hq => by
    obtain ⟨p, ls, hp, hpath, _⟩ := (mem_startSubset ha).mp hq
    exact ha.path_lt hpath (Machine.lt_size_of_isInitial hp)
  have target : ∀ s, P s → ∀ c t,
      (c, t) ∈ a.alphabet.filterMap (fun c => (a.subsetTarget s c).map fun t => (c, t)) →
        P t := by
    intro s _ c t h
    have ht := ((mem_filterMap_symbols fun _ => rfl).mp h).2
    rw [subsetTarget] at ht
    have advanced_lt : ∀ p ∈ a.advance reads s c, p < a.size :=
      fun _ => Machine.lt_size_of_mem_advance ha
    split at ht
    · cases ht
    · cases ht
      refine StateSet.bits_lt.mpr fun q hq => ?_
      obtain ⟨p, hp, ls, hpath, _⟩ :=
        (Machine.mem_closeUnder_silentClosures ha advanced_lt).mp hq
      exact ha.path_lt hpath (advanced_lt p hp)
  rw [determinize, subsets, subsetMoves_eq]
  have key_mem : ∀ s, P s → s.bits ∈ List.range (2 ^ a.size) := fun s hs => List.mem_range.mpr hs
  exact Dfa.follow_ofExploration (fun ⟨_⟩ ⟨_⟩ h => congrArg StateSet.mk h) root target key_mem
    (by simp) (fun s c => lookup_filterMap_symbols fun _ => rfl) w

/-- The deterministic automaton recognizes what the acceptor accepts. -/
theorem recognizes_determinize : a.determinize.recognizes w = true ↔ a.Accepts w := by
  have hfollow := follow_determinize ha (w := w)
  have hmem := fun q => mem_follow_subsets ha (w := w) (q := q)
  rw [Dfa.recognizes_iff, accepts_iff_reaches]
  generalize follow a.determinize.delta _ w = x, follow a.subsetStep _ w = y at hfollow hmem
  cases hfollow with
  | none => simp [← hmem]
  | @some i s h =>
    obtain ⟨entry, hentry, hkey⟩ := h
    obtain rfl : entry.1 = s := by
      obtain ⟨⟨bits⟩, moves⟩ := entry
      exact congrArg StateSet.mk hkey
    simp only [Option.some.injEq, exists_eq_left', ← hmem, Option.getD_some]
    rw [determinize, Dfa.isAccepting_ofExploration hentry, List.any_eq_true]
    simp only [StateSet.mem_toList]

end closed

theorem alphabet_pairwise (a : Acceptor) : a.alphabet.Pairwise (· < ·) :=
  ascending_symbols_pairwise _

theorem wellFormed_determinize (a : Acceptor) : a.determinize.WellFormed := by
  rw [determinize, subsets, subsetMoves_eq]
  exact Dfa.wellFormed_ofExploration (Nat.pow_pos (Nat.zero_lt_succ 1)) fun s =>
    pairwise_filterMap_symbols (fun _ => rfl) a.alphabet_pairwise

end Transduction.Acceptor
