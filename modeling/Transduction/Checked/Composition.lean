/-
Pairs of states, with both rows looked up.

Intersection and composition search the pairs of states of two machines.  The rows of either side,
its marks, and the number of each pair met are looked up on the way:

* `Storage.intersect?`, with `Storage.intersect?_eq`;
* `Storage.compose?` and `Storage.composeAll?`, with an equation for each — the first side is
  spelled, and the result is trimmed.
-/
import Transduction.Checked.Spelled
import Transduction.Checked.Trim
import Transduction.Proofs.Composition
import Transduction.Proofs.Intersection

namespace Transduction.Storage

/-! ### Intersection -/

/-- The moves of a pair of states, labelled. -/
def pairMoves? (a b : Storage (Option Char)) (pair : Nat × Nat) :
    Option (List (Option Char × Nat × Nat)) := do
  let (p, q) := pair
  let row ← a.rows[p]?
  let row' ← b.rows[q]?
  return (row.flatMap fun (l, p') =>
      match l with
      | none => [(none, p', q)]
      | some c => row'.filterMap fun (l', q') =>
        if l' = some c then some (some c, p', q') else none)
    ++ row'.filterMap fun (l', q') => if l' = none then some (none, p, q') else none

/-- Whether both states of a pair are accepting. -/
def bothAccept? {K L : Type} (a : Storage K) (b : Storage L) (p q : Nat) : Option Bool := do
  let first ← a.accepting[p]?
  let second ← b.accepting[q]?
  return first && second

/-- Accepts the words that both acceptors accept; `arrange` orders the moves of a pair before they
are explored. -/
def intersect? (arrange : List (Option Char × Nat × Nat) → List (Option Char × Nat × Nat))
    (a b : Storage (Option Char)) : Option (Storage (Option Char)) :=
  explored? id id (fun pair => (pairMoves? a b pair).map arrange) (a.size * b.size)
    ((ones a.initial).flatMap fun p => (ones b.initial).map fun q => (p, q))
    (fun pair => bothAccept? a b pair.1 pair.2)

theorem bothAccept?_ofMachine {K L : Type} {keeping : Keeping K} {keeping' : Keeping L}
    {a : Machine K} {b : Machine L} {p q : Nat} (hp : p < a.size) (hq : q < b.size) :
    bothAccept? (ofMachine keeping a) (ofMachine keeping' b) p q =
      some (a.isAccepting p && b.isAccepting q) := by
  rw [bothAccept?, accepting_ofMachine hp, accepting_ofMachine hq]
  rfl

section intersection

variable {arrange : List (Option Char × Nat × Nat) → List (Option Char × Nat × Nat)}
  {a b : Acceptor} {K : Keeping (Option Char)}

theorem pairMoves?_ofMachine {pair : Nat × Nat} (hp : pair.1 < a.size) (hq : pair.2 < b.size) :
    pairMoves? (ofMachine K a) (ofMachine K b) pair = some (a.pairMoves b pair) := by
  rw [pairMoves?, rows_ofMachine hp, rows_ofMachine hq]
  rfl

/-- An intersection fails nowhere. -/
theorem intersect?_eq (harrange : ∀ moves, arrange moves ⊆ moves) (ha : a.Closed)
    (hb : b.Closed) : intersect? arrange (ofMachine K a) (ofMachine K b) =
      some (ofMachine (.ordered id) (Acceptor.intersectBy arrange a b)) := by
  simp only [intersect?, size_ofMachine, ones_initial_ofMachine]
  refine explored?_eq (P := (· ∈ Acceptor.statePairs a b))
    (fun _ => Acceptor.mem_statePairs_of_initial) (fun pair hpair => ?_) (fun pair hpair => ?_)
    (fun pair _ => ?_) (fun _ hpair => hpair) (Nat.le_of_eq Acceptor.length_statePairs)
  · obtain ⟨hp, hq⟩ := Acceptor.mem_statePairs.mp hpair
    refine ⟨by rw [pairMoves?_ofMachine hp hq, Option.map_some], fun l t ht => ?_⟩
    exact Acceptor.mem_statePairs_of_move ha hb hpair
      (Acceptor.mem_pairMoves_iff.mp (harrange _ ht))
  · obtain ⟨hp, hq⟩ := Acceptor.mem_statePairs.mp hpair
    exact bothAccept?_ofMachine hp hq
  · rw [Bool.and_eq_true, ← Acceptor.mem_initialPairs]
    constructor
    · exact fun h => ⟨pair, h, rfl⟩
    · rintro ⟨_, h, rfl⟩
      exact h

end intersection

/-! ### Composition -/

open Transducer (Joint)

/-- The moves of a composition in a joint state. -/
def jointMoves? (a b : Storage (Option Char × Word)) (state : Joint) :
    Option (List ((Option Char × Word) × Joint)) := do
  let (p, q, waiting) := state
  let row ← a.rows[p]?
  let partners ← b.rows[q]?
  return (row.flatMap fun ((l, w), p') =>
      match w with
      | [] => if waiting then [] else [((l, []), (p', q, false))]
      | c :: _ => partners.filterMap fun ((l', v), q') =>
        if l' = some c then some ((l, v), (p', q', false)) else none)
    ++ partners.filterMap fun ((l', v), q') =>
      if l' = none then some ((none, v), (p, q', true)) else none

/-- The composition: the relation of the first transducer followed by that of the second. -/
def compose? (a b : Storage (Option Char × Word)) : Option (Storage (Option Char × Word)) := do
  let a ← a.spelled?
  let joint ← explored? (·.1) id (jointMoves? a b) (2 * a.size * b.size)
    ((ones a.initial).flatMap fun p => (ones b.initial).map fun q => (p, q, false))
    (fun state => bothAccept? a b state.1 state.2.1)
  joint.trim? (·.1)

/-- The composition of a transducer with all others, from left to right. -/
def composeAll? (a : Storage (Option Char × Word)) (others : List (Storage (Option Char × Word))) :
    Option (Storage (Option Char × Word)) := others.foldlM compose? a

section composition

variable {a b : Transducer}

theorem jointMoves?_ofMachine {K K' : Keeping (Option Char × Word)} {state : Joint}
    (hp : state.1 < a.size) (hq : state.2.1 < b.size) :
    jointMoves? (ofMachine K a) (ofMachine K' b) state = some (a.jointMoves b state) := by
  rw [jointMoves?, rows_ofMachine hp, rows_ofMachine hq]
  rfl

/-- A composition fails nowhere. -/
theorem compose?_eq (ha : a.Closed) (hb : b.Closed) :
    compose? (ofMachine (.ordered (·.1)) a) (ofMachine (.ordered (·.1)) b) =
      some (ofMachine (.ordered (·.1)) (a.compose b)) := by
  have hspelled := Transducer.closed_spelled ha
  have hjoint : explored? (·.1) id
      (jointMoves? (ofMachine (.ordered (·.1)) a.spelled) (ofMachine (.ordered (·.1)) b))
      (2 * a.spelled.size * b.size)
      (a.spelled.initialStates.flatMap fun p => b.initialStates.map fun q => (p, q, false))
      (fun state => bothAccept? (ofMachine (.ordered (·.1)) a.spelled)
        (ofMachine (.ordered (·.1)) b) state.1 state.2.1) =
      some (ofMachine (.ordered (·.1)) (a.composeUntrimmed b)) := by
    -- The search is over the joint states, which are finitely many and closed under moves.
    refine explored?_eq (P := (· ∈ Transducer.jointStates a.spelled b))
      (fun _ => Transducer.mem_jointStates_of_initial) (fun state hstate => ?_)
      (fun state hstate => ?_) (fun state _ => ?_) (fun _ hstate => hstate)
      (Nat.le_of_eq Transducer.length_jointStates)
    · obtain ⟨hp, hq⟩ := Transducer.mem_jointStates.mp hstate
      exact ⟨jointMoves?_ofMachine hp hq, fun l t ht =>
        Transducer.mem_jointStates_of_move hspelled hb hstate ht⟩
    · obtain ⟨hp, hq⟩ := Transducer.mem_jointStates.mp hstate
      exact bothAccept?_ofMachine hp hq
    -- The states that start the search are the initial ones that do not wait.
    · obtain ⟨p, q, waiting⟩ := state
      simp only [Bool.and_eq_true, Bool.not_eq_true', List.mem_flatMap, List.mem_map,
        Machine.mem_initialStates]
      constructor
      · rintro ⟨⟨hp, hq⟩, rfl⟩
        exact ⟨_, ⟨p, hp, q, hq, rfl⟩, rfl⟩
      · rintro ⟨_, ⟨p, hp, q, hq, rfl⟩, he⟩
        cases he
        exact ⟨⟨hp, hq⟩, rfl⟩
  simp only [compose?, spelled?_eq ha, size_ofMachine, ones_initial_ofMachine, hjoint,
    Option.bind_eq_bind, Option.bind_some]
  exact trim?_eq Transducer.closed_composeUntrimmed Machine.ascending_explored

theorem composeAll?_eq {others : List Transducer} (ha : a.Closed)
    (hothers : ∀ m ∈ others, m.Closed) :
    composeAll? (ofMachine (.ordered (·.1)) a) (others.map (ofMachine (.ordered (·.1)))) =
      some (ofMachine (.ordered (·.1)) (a.composeAll others)) := by
  induction others generalizing a with
  | nil => rfl
  | cons m others ih =>
    rw [composeAll?, List.map_cons, List.foldlM_cons, compose?_eq ha (hothers m List.mem_cons_self)]
    exact ih Transducer.wellFormed_compose.closed fun n hn => hothers n (List.mem_cons_of_mem _ hn)

end composition

end Transduction.Storage
