/-
The canonical form of a deterministic automaton.

Two automata whose runs end alike on all words have related start states, where states are
related if their runs end alike.  Related states move to related ones, and refinement merges
states on one side exactly where it merges the related ones on the other.  So the explorations
that number the merged states correspond, and the minimal automata are equal, whatever the
numbers of the old states, the states that no word leads to, the symbols used only there, and
the order in which refinement visits classes and members:

* `Dfa.EndAlike` — the relation, with `EndAlike.delta` for one move;
* `Dfa.keysAgree_classOf` — classes agree on both sides;
* `Dfa.minimizeBy_eq_of_ending_eq` — minimal automata are equal if runs end alike;
* `Dfa.ending_start_eq_iff` — runs end alike if the same words are read and accepted;
* `Dfa.minimizeBy_canonical` — minimal automata are equal exactly if the same words are read and
  accepted, and a minimal automaton is left as it is.
-/
import Transduction.Proofs.Correspondence
import Transduction.Proofs.Distinguishing

namespace Transduction

/-- Classes and members may be visited backwards. -/
theorem ClassTable.Visits.reverse {t : ClassTable} {classes : List (List Nat)}
    (h : t.Visits classes) : t.Visits (classes.map List.reverse).reverse where
  whole ms hms := by
    obtain ⟨ns, hns, rfl⟩ := List.mem_map.mp (List.mem_reverse.mp hms)
    obtain ⟨k, hk⟩ := h.whole ns hns
    exact ⟨k, fun q => List.mem_reverse.trans (hk q)⟩
  disjoint := by
    rw [List.pairwise_reverse, List.pairwise_map]
    refine h.disjoint.imp fun hdisjoint q hq hq' => ?_
    exact hdisjoint q (List.mem_reverse.mp hq') (List.mem_reverse.mp hq)
  covers q k hk := by
    obtain ⟨ms, hms, hq⟩ := h.covers q k hk
    exact ⟨ms.reverse, List.mem_reverse.mpr (List.mem_map_of_mem hms), List.mem_reverse.mpr hq⟩

namespace Dfa

variable {d d₁ d₂ : Dfa} {visit visit₁ visit₂ : ClassTable → List (List Nat)} {p q : Nat} {c : Char}
  {w : Word}

/-! ### States that end alike -/

/-- Runs of two states, one of each automaton, end alike on all words. -/
structure EndAlike (d₁ d₂ : Dfa) (p q : Nat) : Prop where
  left_lt : p < d₁.size
  right_lt : q < d₂.size
  ending_eq : ∀ w, d₁.ending p w = d₂.ending q w

theorem EndAlike.isAccepting_eq (h : d₁.EndAlike d₂ p q) :
    d₁.isAccepting p = d₂.isAccepting q :=
  Option.some.inj (h.ending_eq [])

/-- States that end alike move on the same symbols, to states that end alike. -/
theorem EndAlike.delta (hd₁ : d₁.WellFormed) (hd₂ : d₂.WellFormed) (h : d₁.EndAlike d₂ p q)
    (c : Char) : Option.Rel (d₁.EndAlike d₂) (d₁.delta p c) (d₂.delta q c) := by
  have hending (w : Word) : ((d₁.delta p c).bind fun r => d₁.ending r w) =
      (d₂.delta q c).bind fun r => d₂.ending r w := by
    rw [← ending_cons, ← ending_cons]
    exact h.ending_eq (c :: w)
  cases hp : d₁.delta p c with
  | none =>
    cases hq : d₂.delta q c with
    | none => exact .none
    | some s => simpa [hp, hq, ending_nil] using hending []
  | some r =>
    cases hq : d₂.delta q c with
    | none => simpa [hp, hq, ending_nil] using hending []
    | some s =>
      rw [hp, hq] at hending
      exact .some ⟨hd₁.delta_lt hp, hd₂.delta_lt hq, hending⟩

/-- The moves of states that end alike are the same, up to states that end alike. -/
theorem EndAlike.movesOf (hd₁ : d₁.WellFormed) (hd₂ : d₂.WellFormed) (h : d₁.EndAlike d₂ p q) :
    List.Forall₂ (MovesAlike (d₁.EndAlike d₂)) (d₁.movesOf p) (d₂.movesOf q) := by
  refine forall₂_of_lookup (pairwise_filterMap_symbols (fun _ => rfl) hd₁.alphabet_ascending)
    (pairwise_filterMap_symbols (fun _ => rfl) hd₂.alphabet_ascending) fun c => ?_
  have hrel := h.delta hd₁ hd₂ c
  rwa [← lookup_movesOf hd₁, ← lookup_movesOf hd₂] at hrel

/-! ### Minimal automata of automata that end alike -/

/-- The runs on a word end alike if it is read by both automata or by neither, and accepted by both
or by neither. -/
theorem ending_start_eq_iff : d₁.ending d₁.start w = d₂.ending d₂.start w ↔
    (follow d₁.delta d₁.start w = none ↔ follow d₂.delta d₂.start w = none) ∧
      d₁.recognizes w = d₂.recognizes w := by
  have recognizes_eq (d : Dfa) : d.recognizes w = (d.ending d.start w).getD false := trace_fst_eq
  rw [recognizes_eq, recognizes_eq, ending, ending]
  generalize follow d₁.delta d₁.start w = x, follow d₂.delta d₂.start w = y
  cases x with
  | none => cases y <;> simp
  | some r => cases y <;> simp

/-- Minimization keeps how runs end. -/
theorem ending_minimizeBy (hv : ∀ t : ClassTable, t.Valid → t.Visits (visit t))
    (hd : d.WellFormed) :
    (d.minimizeBy visit).ending (d.minimizeBy visit).start w = d.ending d.start w :=
  ending_eq_of_rel (follow_minimizeBy hv hd)

section canonical

variable (hv₁ : ∀ t : ClassTable, t.Valid → t.Visits (visit₁ t))
  (hv₂ : ∀ t : ClassTable, t.Valid → t.Visits (visit₂ t))

include hv₁ hv₂

/-- States are merged on one side exactly where the states that end alike are on the other. -/
theorem keysAgree_classOf (hd₁ : d₁.WellFormed) (hd₂ : d₂.WellFormed) :
    KeysAgree (d₁.EndAlike d₂) (fun q => (d₁.refine visit₁ d₁.acceptancePartition).classOf[q]?)
      (fun q => (d₂.refine visit₂ d₂.acceptancePartition).classOf[q]?) := by
  intro p q p' q' h h'
  rw [classOf_refine_acceptancePartition hv₁ hd₁ h.left_lt h'.left_lt,
    classOf_refine_acceptancePartition hv₂ hd₂ h.right_lt h'.right_lt]
  refine forall_congr' fun w => ?_
  rw [h.ending_eq w, h'.ending_eq w]

/-- The minimal automata of automata whose runs end alike are equal. -/
theorem minimizeBy_eq_of_ending_eq (hd₁ : d₁.WellFormed) (hd₂ : d₂.WellFormed)
    (h : ∀ w, d₁.ending d₁.start w = d₂.ending d₂.start w) :
    d₁.minimizeBy visit₁ = d₂.minimizeBy visit₂ := by
  have hstart : d₁.EndAlike d₂ d₁.start d₂.start := ⟨hd₁.start_lt, hd₂.start_lt, h⟩
  -- either automaton is complete after as many rounds as both have states
  have hrounds {d : Dfa} (hd : d.WellFormed) (key : Nat → Option Nat) {n : Nat} (hn : d.size ≤ n) :
      foundFrom key d.movesOf d.size d.start = foundFrom key d.movesOf n d.start := by
    have hkeys (q : Nat) (hq : q < d.size) : key q ∈ (List.range d.size).map key :=
      List.mem_map_of_mem (List.mem_range.mpr hq)
    refine explore_congr (fun q hq => List.mem_singleton.mp hq ▸ hd.start_lt) (fun q _ u hu => ?_)
      hkeys (by simp) (by simpa using hn)
    obtain ⟨⟨c, _⟩, hmove, rfl⟩ := List.mem_map.mp hu
    exact hd.lt_size_of_mem_movesOf hmove
  rw [minimizeBy, minimizeBy, minimizeWithin_fst, minimizeWithin_fst,
    hrounds hd₁ _ (Nat.le_add_right d₁.size d₂.size),
    hrounds hd₂ _ (Nat.le_add_left d₂.size d₁.size)]
  exact ofExploration_eq (keysAgree_classOf hv₁ hv₂ hd₁ hd₂)
    (fun _ _ hpq => hpq.movesOf hd₁ hd₂) (fun _ _ hpq => hpq.isAccepting_eq) hstart

/-- Automata that read the same words and accept the same words have one minimal automaton, with
equal numbers of states, start states, marks, rows and alphabets, in whatever orders their classes
are visited, and other automata have different ones.  Minimization leaves a minimal automaton as it
is. -/
theorem minimizeBy_canonical (h₁ : Obtained (.dfa d₁)) (h₂ : Obtained (.dfa d₂)) :
    (d₁.minimizeBy visit₁ = d₂.minimizeBy visit₂ ↔
      ∀ w, (follow d₁.delta d₁.start w = none ↔ follow d₂.delta d₂.start w = none) ∧
        d₁.recognizes w = d₂.recognizes w) ∧
    (d₁.minimizeBy visit₁).minimizeBy visit₂ = d₁.minimizeBy visit₁ := by
  have hd₁ : d₁.WellFormed := wellFormed_of_obtained h₁
  have hd₂ : d₂.WellFormed := wellFormed_of_obtained h₂
  simp only [← ending_start_eq_iff]
  refine ⟨⟨fun heq w => ?_, minimizeBy_eq_of_ending_eq hv₁ hv₂ hd₁ hd₂⟩, ?_⟩
  · rw [← ending_minimizeBy hv₁ hd₁, heq, ending_minimizeBy hv₂ hd₂]
  · exact minimizeBy_eq_of_ending_eq hv₂ hv₁ (wellFormed_minimizeBy hv₁ hd₁) hd₁ fun w =>
      ending_minimizeBy hv₁ hd₁

end canonical

/-- The words of `redundant` under other numbers: there is no second copy of the state behind an
`a`, and no word leads to the state that has a move on `z`. -/
def renumbered : Dfa :=
  .ofRows #[[('b', 0)], [('a', 0)], [('a', 0), ('b', 1)], [('z', 2)]] 2 #[true, false, false, false]

theorem obtained_renumbered : Obtained (.dfa renumbered) :=
  obtained_of_declare (by decide : declare 4 2 [0] [(0, 'b', 0), (1, 'a', 0), (2, 'a', 0),
    (2, 'b', 1), (3, 'z', 2)] = .ok renumbered)

/-- The states of `redundant` beside those of `renumbered`. -/
def renumbering : List (Nat × Nat) := [(0, 2), (1, 0), (2, 1), (3, 0)]

theorem delta_renumbering (p q : Nat) (c : Char) (h : (p, q) ∈ renumbering) :
    Option.Rel (fun p q => (p, q) ∈ renumbering) (redundant.delta p c) (renumbered.delta q c) := by
  refine rel_lookup ?_ c
  simp only [renumbering, List.mem_cons, Prod.mk.injEq, List.not_mem_nil, or_false] at h
  obtain ⟨rfl, rfl⟩ | ⟨rfl, rfl⟩ | ⟨rfl, rfl⟩ | ⟨rfl, rfl⟩ := h <;>
    simp [redundant, renumbered, row, ofRows, MovesAlike, renumbering]

theorem ending_renumbered (w : Word) :
    redundant.ending redundant.start w = renumbered.ending renumbered.start w := by
  have hfollow := follow_rel (w := w) (R := fun p q => (p, q) ∈ renumbering)
    delta_renumbering (by decide : (redundant.start, renumbered.start) ∈ renumbering)
  have haccepting : ∀ pair ∈ renumbering,
      redundant.isAccepting pair.1 = renumbered.isAccepting pair.2 := by decide
  exact ending_eq_of_rel (rel_imp hfollow fun p q hpq => haccepting (p, q) hpq)

/-- Classes and members from the last one to the first one. -/
def backwards (t : ClassTable) : List (List Nat) := (t.ascendingClasses.map List.reverse).reverse

theorem minimizeBy_canonical_redundant : Obtained (.dfa redundant) ∧ Obtained (.dfa renumbered) ∧
    redundant.minimize = renumbered.minimizeBy backwards ∧
    redundant.minimize.minimizeBy backwards = redundant.minimize := by
  have hforwards : ∀ t : ClassTable, t.Valid → t.Visits t.ascendingClasses :=
    fun _ ht => ht.visits_ascendingClasses
  have hbackwards : ∀ t : ClassTable, t.Valid → t.Visits (backwards t) :=
    fun _ ht => ht.visits_ascendingClasses.reverse
  obtain ⟨hequal, hminimal⟩ :=
    minimizeBy_canonical hforwards hbackwards obtained_redundant obtained_renumbered
  exact ⟨obtained_redundant, obtained_renumbered,
    hequal.mpr fun w => ending_start_eq_iff.mp (ending_renumbered w), hminimal⟩

end Dfa

end Transduction
