/-
Spelled transducers, written move by move.

The states and their marks are copied first.  Then the moves are gone through one by one, and a move
that writes more than one symbol adds the states of its path, right in front of the move behind each
of them:

* `Storage.spellWrites`, `Storage.spellArcs` — the writes of one move, and of all;
* `MovesAt` — the moves of nodes that take the numbers from a given one on, with
  `Storage.move_mem_spellWrites` and its siblings: the moves written are those of the nodes;
* `Storage.spelled?`, with `Storage.spelled?_eq` — no write fails, and the containers are filled
  with `Transducer.spelled`;
* `Storage.inverse?`, with `Storage.inverse?_eq` — the same for the converse relation.
-/
import Transduction.Checked.Algebra
import Transduction.Proofs.AscendingMoves

namespace Transduction

open Transducer (spell spellMoves spellNodes)

/-- A move is one of a node, where the nodes take the numbers from `fresh` on. -/
def MovesAt {L : Type} (fresh : Nat) (nodes : List (Node L)) (q : Nat) (move : L × Nat) : Prop :=
  ∃ i n, nodes[i]? = some n ∧ q = fresh + i ∧ move ∈ n.moves

section movesAt

variable {L : Type} {fresh q : Nat} {n : Node L} {nodes more : List (Node L)} {move : L × Nat}

theorem not_movesAt_nil : ¬MovesAt fresh [] q move := by
  rintro ⟨i, n, hi, _⟩
  cases hi

theorem movesAt_cons :
    MovesAt fresh (n :: nodes) q move ↔ (q = fresh ∧ move ∈ n.moves) ∨
      MovesAt (fresh + 1) nodes q move := by
  constructor
  · rintro ⟨i, n', hi, rfl, hmove⟩
    cases i with
    | zero =>
      cases hi
      exact Or.inl ⟨rfl, hmove⟩
    | succ i => exact Or.inr ⟨i, n', hi, by omega, hmove⟩
  · rintro (⟨rfl, hmove⟩ | ⟨i, n', hi, rfl, hmove⟩)
    · exact ⟨0, n, rfl, rfl, hmove⟩
    · exact ⟨i + 1, n', hi, by omega, hmove⟩

theorem movesAt_append :
    MovesAt fresh (nodes ++ more) q move ↔ MovesAt fresh nodes q move ∨
      MovesAt (fresh + nodes.length) more q move := by
  induction nodes generalizing fresh with
  | nil => exact ⟨Or.inr, fun h => h.resolve_left not_movesAt_nil⟩
  | cons n nodes ih =>
    have hfresh : fresh + (n :: nodes).length = fresh + 1 + nodes.length := by
      rw [List.length_cons]
      omega
    rw [List.cons_append, movesAt_cons, movesAt_cons, ih, or_assoc, hfresh]

end movesAt

namespace Storage

/-! ### The writes of a move -/

/-- The writes of the path that stands for one move; its states take the numbers from `fresh` on. -/
def spellWrites (fresh p : Nat) (l : Option Char) : Word → Nat → List (Write (Option Char × Word))
  | [], t => [.move p (l, []) t]
  | [c], t => [.move p (l, [c]) t]
  | c :: d :: w, t =>
    .state :: .move p (l, [c]) fresh :: spellWrites (fresh + 1) fresh none (d :: w) t

/-- The writes of the paths that stand for some moves, one behind the other. -/
def spellArcs (fresh : Nat) : List (Nat × (Option Char × Word) × Nat) →
    List (Write (Option Char × Word))
  | [] => []
  | (p, (l, w), t) :: arcs =>
    let ws := spellWrites fresh p l w t
    ws ++ spellArcs (fresh + Write.states ws) arcs

/-- The same relation, written one symbol a move. -/
def spelled? (s : Storage (Option Char × Word)) : Option (Storage (Option Char × Word)) := do
  let arcs ← s.arcs?
  empty.writes? (.ordered (·.1)) (List.replicate s.size .state ++
    Write.initials 0 (ones s.initial) ++ Write.acceptings 0 (ones s.accepting) ++
    spellArcs s.size arcs)

variable {fresh p q t t' : Nat} {l : Option Char} {l' : Option Char × Word} {w : Word}
  {arcs arcs' : List (Nat × (Option Char × Word) × Nat)}

theorem states_spellWrites :
    Write.states (spellWrites fresh p l w t) = (spell fresh l w t).2.length := by
  fun_induction spell fresh l w t generalizing p with
  | case1 | case2 => rfl
  | case3 fresh l c d w t move nodes hspell ih =>
    rw [hspell] at ih
    rw [spellWrites, Write.states_state_cons, Write.states_cons, ih]
    rfl

theorem fits_spellWrites (hp : p < fresh) : Write.Fits fresh (spellWrites fresh p l w t) := by
  fun_induction spell fresh l w t generalizing p with
  | case1 | case2 => exact ⟨fun q hq => Option.some.inj hq ▸ hp, trivial⟩
  | case3 fresh l c d w t move nodes hspell ih =>
    refine Write.fits_state_cons.mpr ⟨fun q hq => ?_, ih (Nat.lt_succ_self fresh)⟩
    exact Option.some.inj hq ▸ Nat.lt_succ_of_lt hp

theorem initial_not_mem_spellWrites : .initial q ∉ spellWrites fresh p l w t := by
  fun_induction spell fresh l w t generalizing p with
  | case1 | case2 => simp [spellWrites]
  | case3 fresh l c d w t move nodes hspell ih => simp [spellWrites, ih]

theorem accepting_not_mem_spellWrites : .accepting q ∉ spellWrites fresh p l w t := by
  fun_induction spell fresh l w t generalizing p with
  | case1 | case2 => simp [spellWrites]
  | case3 fresh l c d w t move nodes hspell ih => simp [spellWrites, ih]

/-- The moves written for one move are the one that takes its place, and those of the nodes
behind it. -/
theorem move_mem_spellWrites : .move q l' t' ∈ spellWrites fresh p l w t ↔
    (q = p ∧ (l', t') = (spell fresh l w t).1) ∨
      MovesAt fresh (spell fresh l w t).2 q (l', t') := by
  fun_induction spell fresh l w t generalizing p with
  | case1 | case2 => simp [spellWrites, not_movesAt_nil]
  | case3 fresh l c d w t move nodes hspell ih =>
    rw [hspell] at ih
    simp only [spellWrites, List.mem_cons, reduceCtorEq, false_or, Write.move.injEq, Prod.mk.injEq,
      ih, movesAt_cons, List.not_mem_nil, or_false]

/-! ### The writes of all moves -/

theorem spellArcs_append :
    spellArcs fresh (arcs ++ arcs') =
      spellArcs fresh arcs ++ spellArcs (fresh + Write.states (spellArcs fresh arcs)) arcs' := by
  induction arcs generalizing fresh with
  | nil => rfl
  | cons arc arcs ih =>
    simp only [List.cons_append, spellArcs, ih, List.append_assoc, Write.states_append,
      Nat.add_assoc]

theorem fits_spellArcs (h : ∀ arc ∈ arcs, arc.1 < fresh) :
    Write.Fits fresh (spellArcs fresh arcs) := by
  induction arcs generalizing fresh with
  | nil => trivial
  | cons arc arcs ih =>
    obtain ⟨harc, harcs⟩ := List.forall_mem_cons.mp h
    refine Write.fits_append.mpr ⟨fits_spellWrites harc, ih fun arc' harc' => ?_⟩
    exact Nat.lt_add_right _ (harcs arc' harc')

theorem initial_not_mem_spellArcs : .initial q ∉ spellArcs fresh arcs := by
  induction arcs generalizing fresh with
  | nil => exact List.not_mem_nil
  | cons arc arcs ih => simp [spellArcs, ih, initial_not_mem_spellWrites]

theorem accepting_not_mem_spellArcs : .accepting q ∉ spellArcs fresh arcs := by
  induction arcs generalizing fresh with
  | nil => exact List.not_mem_nil
  | cons arc arcs ih => simp [spellArcs, ih, accepting_not_mem_spellWrites]

variable {moves : List ((Option Char × Word) × Nat)}
  {nodes : List (Node (Option Char × Word))}

/-- The moves written for those of one state are the ones that take their places, and those of
the nodes in between. -/
theorem spellArcs_moves :
    Write.states (spellArcs fresh (moves.map fun move => (p, move))) =
      (spellMoves fresh moves).2.length ∧
    ∀ q l' t', .move q l' t' ∈ spellArcs fresh (moves.map fun move => (p, move)) ↔
      (q = p ∧ (l', t') ∈ (spellMoves fresh moves).1) ∨
        MovesAt fresh (spellMoves fresh moves).2 q (l', t') := by
  fun_induction spellMoves fresh moves with
  | case1 => exact ⟨rfl, fun q l' t' => by simp [spellArcs, not_movesAt_nil]⟩
  | case2 fresh l w t moves move nodes hspell others nodes' hmoves ih =>
    have hstates : Write.states (spellWrites fresh p l w t) = (spell fresh l w t).2.length :=
      states_spellWrites
    rw [hspell] at hstates
    rw [hmoves] at ih
    refine ⟨?_, fun q l' t' => ?_⟩
    · rw [List.map_cons, spellArcs, Write.states_append, hstates, ih.1, List.length_append]
    · rw [List.map_cons, spellArcs, List.mem_append, move_mem_spellWrites, hstates, ih.2, hspell,
        List.mem_cons, movesAt_append, and_or_left]
      tauto

/-- The moves of nodes that take the numbers from `n` on, each with its source. -/
def nodeArcs (nodes : List (Node (Option Char × Word))) (n : Nat) :
    List (Nat × (Option Char × Word) × Nat) :=
  (nodes.zipIdx n).flatMap fun entry => entry.1.moves.map fun move => (entry.2, move)

theorem spellArcs_nodes {n : Nat} :
    Write.states (spellArcs fresh (nodeArcs nodes n)) = (spellNodes fresh nodes).2.length ∧
    ∀ q l' t', .move q l' t' ∈ spellArcs fresh (nodeArcs nodes n) ↔
      MovesAt n (spellNodes fresh nodes).1 q (l', t') ∨
        MovesAt fresh (spellNodes fresh nodes).2 q (l', t') := by
  fun_induction spellNodes fresh nodes generalizing n with
  | case1 => exact ⟨rfl, fun q l' t' => by simp [nodeArcs, spellArcs, not_movesAt_nil]⟩
  | case2 fresh node ns moves nodes hmoves others nodes' hnodes ih =>
    obtain ⟨hstates, hmem⟩ := @spellArcs_moves fresh n node.moves
    rw [hmoves] at hstates hmem
    rw [hnodes] at ih
    -- The arcs of the first node come first, and the inner states that they need with them.
    have harcs : nodeArcs (node :: ns) n =
        node.moves.map (fun move => (n, move)) ++ nodeArcs ns (n + 1) := by
      rw [nodeArcs, List.zipIdx_cons, List.flatMap_cons]
      rfl
    refine ⟨?_, fun q l' t' => ?_⟩
    · rw [harcs, spellArcs_append, Write.states_append, hstates, ih.1, List.length_append]
    · rw [harcs, spellArcs_append, List.mem_append, hmem, hstates, ih.2, movesAt_cons,
        movesAt_append]
      simp only [mem_ascending]
      tauto

/-! ### The whole transducer -/

theorem mem_moves_iff_movesAt {m : Transducer} :
    (l', t) ∈ m.moves q ↔ MovesAt 0 m.nodes.toList q (l', t) := by
  simp only [MovesAt, Nat.zero_add, Array.getElem?_toList]
  constructor
  · intro h
    have hlt : q < m.nodes.size := Machine.lt_size_of_mem_moves h
    refine ⟨q, m.nodes[q], Array.getElem?_eq_getElem hlt, rfl, ?_⟩
    rwa [Machine.moves, Array.getElem?_eq_getElem hlt] at h
  · rintro ⟨i, n, hi, rfl, hmove⟩
    rwa [Machine.moves, hi]

theorem arcs_eq_nodeArcs {m : Transducer} : m.arcs = nodeArcs m.nodes.toList 0 := by
  have hrange : List.range m.size = (m.nodes.toList.zipIdx).map Prod.snd := by
    rw [List.zipIdx_map_snd, Array.length_toList, List.range_eq_range']
    rfl
  rw [Machine.arcs, nodeArcs, hrange, List.flatMap_map]
  refine List.flatMap_congr fun entry h => ?_
  have hq : m.nodes[entry.2]? = some entry.1 :=
    Array.getElem?_toList ▸ List.mk_mem_zipIdx_iff_getElem?.mp h
  rw [Machine.moves, hq]
  rfl

theorem move_not_mem_marks {size : Nat} {initial accepting : List Nat} :
    .move q l' t ∉ List.replicate size .state ++ Write.initials 0 initial ++
      Write.acceptings 0 accepting := by
  simp [List.mem_replicate]

/-- No write of a spelled transducer fails. -/
theorem spelled?_eq {m : Transducer} (hm : m.Closed) :
    (ofMachine (.ordered (·.1)) m).spelled? = some (ofMachine (.ordered (·.1)) m.spelled) := by
  obtain ⟨hstates, hmoves⟩ := @spellArcs_nodes m.size m.nodes.toList 0
  rw [← arcs_eq_nodeArcs] at hstates hmoves
  simp only [spelled?, arcs?_ofMachine, ones_initial_ofMachine, ones_accepting_ofMachine,
    size_ofMachine, Option.bind_eq_bind, Option.bind_some]
  refine writes?_ordered_of_nothing (Transducer.ascending_spelled hm) ?_ ?_ (fun q l t => ?_)
    (fun q => ?_) fun q => ?_
  -- The old states come first, so both marks and the moves find them; the inner states are
  -- written as they are needed.
  · simp only [Write.fits_append, Write.states_append, Write.states_replicate,
      Write.states_initials, Write.states_acceptings, Nat.zero_add, Nat.add_zero]
    exact ⟨⟨⟨Write.fits_of_forall_lt fun w hw => List.eq_of_mem_replicate hw ▸ nofun,
      fits_initialStates le_rfl⟩, fits_acceptingStates le_rfl⟩,
      fits_spellArcs fun _ => lt_of_mem_arcs⟩
  · simp [hstates, Transducer.size_spelled]
  · have hlength : (spellNodes m.size m.nodes.toList).1.length = m.size :=
      (Transducer.length_spellNodes _ _).trans Array.length_toList
    rw [List.mem_append, or_iff_right move_not_mem_marks, hmoves, mem_moves_iff_movesAt,
      Transducer.spelled, List.toList_toArray, movesAt_append, hlength, Nat.zero_add]
  · rw [Transducer.isInitial_spelled hm]
    simp [List.mem_replicate, Machine.mem_initialStates, initial_not_mem_spellArcs]
  · rw [Transducer.isAccepting_spelled hm]
    simp [List.mem_replicate, Machine.mem_acceptingStates, accepting_not_mem_spellArcs]

/-- The converse relation. -/
def inverse? (s : Storage (Option Char × Word)) : Option (Storage (Option Char × Word)) := do
  let s ← s.spelled?
  s.relabelled? (·.1) fun l => [(l.2.head?, l.1.toList)]

theorem inverse?_eq {m : Transducer} (hm : m.Closed) :
    (ofMachine (.ordered (·.1)) m).inverse? = some (ofMachine (.ordered (·.1)) m.inverse) := by
  rw [inverse?, spelled?_eq hm, Option.bind_eq_bind, Option.bind_some]
  exact relabelled?_eq (relabels_mapLabels _ m.spelled) (Machine.ascending_mapLabels _ m.spelled)

end Storage

end Transduction
