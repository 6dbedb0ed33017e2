/-
Spelling keeps the relation.

Each move of a spelled transducer stands for a move of the original: either it is
that move, or it is the first one of a chain through fresh states that leaves no
choice.  Runs from old state to old state therefore read and write the same:

* `Transducer.Stands` — what a spelled move stands for;
* `Transducer.exists_stands`, `exists_stands_of_mem` — the moves of an old state and
  the moves that stand for them;
* `Transducer.Chain`, `Transducer.Expands` — the chain behind a move, and the runs
  that are made of such chains;
* `Transducer.exists_expands` — every run between old states is one;
* `Transducer.relates_spelled` — the relation is kept;
* `Transducer.length_le_one_of_mem_moves_spelled` — a move writes one symbol or
  nothing.
-/
import Mathlib.Data.List.Forall2
import Transduction.Proofs.Path
import Transduction.Transducer.Letterwise

namespace Transduction.Transducer

/-- A move of a transducer, with its label and its target. -/
abbrev Move := (Option Char × Word) × Nat

/-- A move of `s` that stands for the move that reads `l`, writes `w` and leads to
`t`.  States from `size` on are fresh ones, and each has a single move. -/
inductive Stands (s : Transducer) (size : Nat) : Move → Option Char → Word → Nat → Prop where
  | nil (l : Option Char) (t : Nat) : Stands s size ((l, []), t) l [] t
  | single (l : Option Char) (c : Char) (t : Nat) : Stands s size ((l, [c]), t) l [c] t
  | cons {l : Option Char} {c d : Char} {w : Word} {t fresh : Nat} {move : Move} :
      size ≤ fresh → s.moves fresh = [move] → Stands s size move none (d :: w) t →
      Stands s size ((l, [c]), fresh) l (c :: d :: w) t

/-- The move of `s` stands for a move of the original. -/
abbrev StandsFor (s : Transducer) (size : Nat) (old move : Move) : Prop :=
  Stands s size move old.1.1 old.1.2 old.2

/-- The nodes lie at consecutive states, the first of them at `fresh`. -/
def LiesAt (s : Transducer) (fresh : Nat) (nodes : List (Node (Option Char × Word))) : Prop :=
  ∀ i n, nodes[i]? = some n → s.nodes[fresh + i]? = some n

/-- A node of a chain: it is not marked, and its moves are listed in order, write at most one
symbol and lead to states below the bound. -/
structure InnerNode (bound : Nat) (n : Node (Option Char × Word)) : Prop where
  not_initial : n.initial = false
  not_accepting : n.accepting = false
  letterwise : ∀ move ∈ n.moves, move.1.2.length ≤ 1 ∧ move.2 < bound
  ascending : n.moves.Pairwise fun x y => compare x y = .lt

variable {m s : Transducer} {size fresh bound : Nat} {l : Option Char} {w x y : Word}
  {p q r t : Nat}

theorem LiesAt.append {nodes more : List (Node (Option Char × Word))}
    (h : LiesAt s fresh (nodes ++ more)) :
    LiesAt s fresh nodes ∧ LiesAt s (fresh + nodes.length) more := by
  constructor
  · exact fun i n hi => h i n (List.getElem?_append_left (List.getElem?_eq_some_iff.mp hi).1 ▸ hi)
  · intro i n hi
    rw [Nat.add_assoc]
    refine h _ n ?_
    rwa [List.getElem?_append_right (Nat.le_add_right _ _), Nat.add_sub_cancel_left]

theorem LiesAt.head {n : Node (Option Char × Word)} {nodes : List (Node (Option Char × Word))}
    (h : LiesAt s fresh (n :: nodes)) :
    s.nodes[fresh]? = some n ∧ LiesAt s (fresh + 1) nodes := by
  have split := LiesAt.append (show LiesAt s fresh ([n] ++ nodes) from h)
  exact ⟨split.1 0 n rfl, split.2⟩

/-! ### The pieces of a spelled transducer -/

theorem stands_spell (hsize : size ≤ fresh) (h : LiesAt s fresh (spell fresh l w t).2) :
    Stands s size (spell fresh l w t).1 l w t := by
  fun_induction spell fresh l w t with
  | case1 fresh l t => exact .nil l t
  | case2 fresh l c t => exact .single l c t
  | case3 fresh l c d w t move nodes hspell ih =>
    obtain ⟨hhead, htail⟩ := h.head
    rw [hspell] at ih
    exact .cons hsize (by simp [Machine.moves, hhead]) (ih (by omega) htail)

theorem innerNode_spell (ht : t < bound) (hb : fresh + (spell fresh l w t).2.length ≤ bound) :
    ((spell fresh l w t).1.1.2.length ≤ 1 ∧ (spell fresh l w t).1.2 < bound) ∧
      ∀ n ∈ (spell fresh l w t).2, InnerNode bound n := by
  fun_induction spell fresh l w t with
  | case1 => exact ⟨⟨by simp, ht⟩, by simp⟩
  | case2 => exact ⟨⟨by simp, ht⟩, by simp⟩
  | case3 fresh l c d w t move nodes hspell ih =>
    rw [hspell] at ih
    simp only [List.length_cons] at hb
    obtain ⟨hmove, hnodes⟩ := ih ht (by simp only; omega)
    refine ⟨⟨by simp, by simp only; omega⟩, fun n hn => ?_⟩
    rcases List.mem_cons.mp hn with rfl | hn
    · exact ⟨rfl, rfl, fun move' h => List.mem_singleton.mp h ▸ hmove, by simp⟩
    · exact hnodes n hn

/-- The spelled moves stand for the moves of the original one by one. -/
theorem standsFor_spellMoves {moves : List Move} (hsize : size ≤ fresh)
    (h : LiesAt s fresh (spellMoves fresh moves).2) :
    List.Forall₂ (StandsFor s size) moves (spellMoves fresh moves).1 := by
  fun_induction spellMoves fresh moves with
  | case1 => exact .nil
  | case2 fresh l w t moves move nodes hspell others nodes' hmoves ih =>
    obtain ⟨hfront, hback⟩ := h.append
    rw [hmoves] at ih
    have first : Stands s size move l w t := by
      have := stands_spell (l := l) (w := w) (t := t) hsize (by rwa [hspell])
      rwa [hspell] at this
    exact .cons first (ih (by omega) hback)

theorem innerNode_spellMoves {moves : List Move} (ht : ∀ move ∈ moves, move.2 < bound)
    (hb : fresh + (spellMoves fresh moves).2.length ≤ bound) :
    (∀ move ∈ (spellMoves fresh moves).1, move.1.2.length ≤ 1 ∧ move.2 < bound) ∧
      ∀ n ∈ (spellMoves fresh moves).2, InnerNode bound n := by
  fun_induction spellMoves fresh moves with
  | case1 => simp
  | case2 fresh l w t moves move nodes hspell others nodes' hmoves ih =>
    rw [hmoves] at ih
    simp only [List.length_append] at hb
    have hfirst := innerNode_spell (ht ((l, w), t) List.mem_cons_self)
      (show fresh + (spell fresh l w t).2.length ≤ bound by rw [hspell]; simp only; omega)
    rw [hspell] at hfirst
    obtain ⟨ih1, ih2⟩ := ih (fun move h => ht move (List.mem_cons_of_mem _ h)) (by simp only; omega)
    constructor
    · intro move' hmem
      rcases List.mem_cons.mp hmem with rfl | hmem
      · exact hfirst.1
      · exact ih1 move' hmem
    · intro n hn
      rcases List.mem_append.mp hn with hn | hn
      · exact hfirst.2 n hn
      · exact ih2 n hn

/-- A node of the spelled transducer beside the node it is made from. -/
structure SpelledNode (s : Transducer) (size : Nat) (n n' : Node (Option Char × Word)) : Prop where
  initial_eq : n'.initial = n.initial
  accepting_eq : n'.accepting = n.accepting
  standsFor : ∃ moves, List.Forall₂ (StandsFor s size) n.moves moves ∧ n'.moves = ascending moves

theorem exists_mem_of_forall₂ {α β : Type} {R : α → β → Prop} {xs : List α} {ys : List β} {x : α}
    (h : List.Forall₂ R xs ys) (hx : x ∈ xs) : ∃ y ∈ ys, R x y := by
  induction h with
  | nil => cases hx
  | cons hxy _ ih =>
    rcases List.mem_cons.mp hx with rfl | hx
    · exact ⟨_, List.mem_cons_self, hxy⟩
    · obtain ⟨y, hy, hxy⟩ := ih hx
      exact ⟨y, List.mem_cons_of_mem _ hy, hxy⟩

theorem SpelledNode.exists_stands {n n' : Node (Option Char × Word)} (h : SpelledNode s size n n')
    {old : Move} (hold : old ∈ n.moves) : ∃ move ∈ n'.moves, StandsFor s size old move := by
  obtain ⟨moves, hstands, hmoves⟩ := h.standsFor
  obtain ⟨move, hmove, hs⟩ := exists_mem_of_forall₂ hstands hold
  exact ⟨move, hmoves ▸ mem_ascending.mpr hmove, hs⟩

theorem SpelledNode.exists_of_mem {n n' : Node (Option Char × Word)} (h : SpelledNode s size n n')
    {move : Move} (hmove : move ∈ n'.moves) : ∃ old ∈ n.moves, StandsFor s size old move := by
  obtain ⟨moves, hstands, hmoves⟩ := h.standsFor
  rw [hmoves, mem_ascending] at hmove
  exact exists_mem_of_forall₂ hstands.flip hmove

theorem length_spellNodes (fresh : Nat) (ns : List (Node (Option Char × Word))) :
    (spellNodes fresh ns).1.length = ns.length := by
  fun_induction spellNodes fresh ns with
  | case1 => rfl
  | case2 _ _ _ _ _ _ _ _ hnodes ih =>
    rw [hnodes] at ih
    simpa using ih

theorem spelledNode_spellNodes {ns : List (Node (Option Char × Word))} (hsize : size ≤ fresh)
    (h : LiesAt s fresh (spellNodes fresh ns).2) :
    ∀ (q : Nat) n n', ns[q]? = some n → (spellNodes fresh ns).1[q]? = some n' →
      SpelledNode s size n n' := by
  fun_induction spellNodes fresh ns with
  | case1 => simp
  | case2 fresh n ns moves nodes hmoves others nodes' hnodes ih =>
    obtain ⟨hfront, hback⟩ := h.append
    rw [hnodes] at ih
    have lies : LiesAt s fresh (spellMoves fresh n.moves).2 := by rwa [hmoves]
    have first := standsFor_spellMoves hsize lies
    rw [hmoves] at first
    intro q n₁ n₂ h1 h2
    cases q with
    | succ q => exact ih (by omega) hback q n₁ n₂ h1 h2
    | zero =>
      cases h1
      cases h2
      exact ⟨rfl, rfl, moves, first, rfl⟩

theorem innerNode_spellNodes {ns : List (Node (Option Char × Word))}
    (ht : ∀ n ∈ ns, ∀ move ∈ n.moves, move.2 < bound)
    (hb : fresh + (spellNodes fresh ns).2.length ≤ bound) :
    (∀ n ∈ (spellNodes fresh ns).1, ∀ move ∈ n.moves, move.1.2.length ≤ 1 ∧ move.2 < bound) ∧
      ∀ n ∈ (spellNodes fresh ns).2, InnerNode bound n := by
  fun_induction spellNodes fresh ns with
  | case1 => simp
  | case2 fresh n ns moves nodes hmoves others nodes' hnodes ih =>
    rw [hnodes] at ih
    simp only [List.length_append] at hb
    have hfirst := innerNode_spellMoves (ht n List.mem_cons_self)
      (show fresh + (spellMoves fresh n.moves).2.length ≤ bound by rw [hmoves]; simp only; omega)
    rw [hmoves] at hfirst
    obtain ⟨ih1, ih2⟩ := ih (fun n h => ht n (List.mem_cons_of_mem _ h)) (by simp only; omega)
    constructor
    · intro n' hn
      rcases List.mem_cons.mp hn with rfl | hn
      · exact fun move h => hfirst.1 move (mem_ascending.mp h)
      · exact ih1 n' hn
    · intro n' hn
      rcases List.mem_append.mp hn with hn | hn
      · exact hfirst.2 n' hn
      · exact ih2 n' hn

/-! ### The spelled transducer as a whole -/

theorem nodes_spelled (m : Transducer) (q : Nat) :
    m.spelled.nodes[q]? = if q < m.size then (spellNodes m.size m.nodes.toList).1[q]?
      else (spellNodes m.size m.nodes.toList).2[q - m.size]? := by
  have hlen : (spellNodes m.size m.nodes.toList).1.length = m.size :=
    (length_spellNodes _ _).trans Array.length_toList
  simp only [spelled, List.getElem?_toArray]
  split
  · exact List.getElem?_append_left (by omega)
  · rw [List.getElem?_append_right (by omega), hlen]

theorem size_spelled (m : Transducer) :
    m.spelled.size = m.size + (spellNodes m.size m.nodes.toList).2.length := by
  simp [Machine.size, spelled, length_spellNodes]

theorem liesAt_spelled (m : Transducer) :
    LiesAt m.spelled m.size (spellNodes m.size m.nodes.toList).2 := by
  intro i n hi
  rw [nodes_spelled, if_neg (by omega), Nat.add_sub_cancel_left]
  exact hi

/-- An old state keeps its marks, and its moves stand for those it had. -/
theorem exists_spelledNode (hq : q < m.size) :
    ∃ n n', m.nodes[q]? = some n ∧ m.spelled.nodes[q]? = some n' ∧
      SpelledNode m.spelled m.size n n' := by
  have hn : m.nodes[q]? = some m.nodes[q] := Array.getElem?_eq_getElem hq
  have hlt : q < (spellNodes m.size m.nodes.toList).1.length := by
    rw [length_spellNodes, Array.length_toList]
    exact hq
  have hn' := List.getElem?_eq_getElem hlt
  refine ⟨_, _, hn, by rw [nodes_spelled, if_pos hq, hn'], ?_⟩
  exact spelledNode_spellNodes (Nat.le_refl _) (liesAt_spelled m) q _ _
    (by rw [Array.getElem?_toList, hn]) hn'

theorem innerNode_spelled (hm : m.Closed) :
    (∀ n ∈ (spellNodes m.size m.nodes.toList).1, ∀ move ∈ n.moves,
      move.1.2.length ≤ 1 ∧ move.2 < m.spelled.size) ∧
    ∀ n ∈ (spellNodes m.size m.nodes.toList).2, InnerNode m.spelled.size n := by
  refine innerNode_spellNodes (fun n hn move hmove => ?_) (Nat.le_of_eq (size_spelled m).symm)
  obtain ⟨q, hq⟩ := List.getElem?_of_mem hn
  rw [Array.getElem?_toList] at hq
  have := hm q move.1 move.2 (by simpa [Machine.moves, hq] using hmove)
  rw [size_spelled]
  omega

/-- Every move of a spelled transducer writes at most one symbol, and leads to a
state. -/
theorem letterwise_spelled (hm : m.Closed) {move : Move} (h : move ∈ m.spelled.moves q) :
    move.1.2.length ≤ 1 ∧ move.2 < m.spelled.size := by
  obtain ⟨hold, hfresh⟩ := innerNode_spelled hm
  rw [Machine.moves] at h
  cases hn : m.spelled.nodes[q]? with
  | none => simp [hn] at h
  | some n =>
    rw [hn] at h
    rw [nodes_spelled] at hn
    split at hn
    · exact hold n (List.mem_of_getElem? hn) move h
    · exact (hfresh n (List.mem_of_getElem? hn)).letterwise move h

theorem closed_spelled (hm : m.Closed) : m.spelled.Closed :=
  fun _ _ _ h => (letterwise_spelled hm h).2

theorem length_le_one_of_mem_moves_spelled (hm : m.Closed) (h : ((l, w), t) ∈ m.spelled.moves q) :
    w.length ≤ 1 :=
  (letterwise_spelled hm h).1

/-- A fresh state is neither initial nor accepting. -/
theorem not_marked_of_fresh (hm : m.Closed) (hq : m.size ≤ q) :
    m.spelled.isInitial q = false ∧ m.spelled.isAccepting q = false := by
  simp only [Machine.isInitial, Machine.isAccepting, nodes_spelled, if_neg (Nat.not_lt.mpr hq)]
  cases hn : (spellNodes m.size m.nodes.toList).2[q - m.size]? with
  | none => exact ⟨rfl, rfl⟩
  | some n =>
    have := (innerNode_spelled hm).2 n (List.mem_of_getElem? hn)
    exact ⟨this.not_initial, this.not_accepting⟩

theorem isInitial_spelled (hm : m.Closed) : m.spelled.isInitial q = m.isInitial q := by
  by_cases hq : q < m.size
  · obtain ⟨n, n', hn, hn', hs⟩ := exists_spelledNode hq
    simp [Machine.isInitial, hn, hn', hs.initial_eq]
  · rw [(not_marked_of_fresh hm (Nat.not_lt.mp hq)).1]
    exact (Bool.eq_false_iff.mpr fun h => hq (Machine.lt_size_of_isInitial h)).symm

theorem isAccepting_spelled (hm : m.Closed) : m.spelled.isAccepting q = m.isAccepting q := by
  by_cases hq : q < m.size
  · obtain ⟨n, n', hn, hn', hs⟩ := exists_spelledNode hq
    simp [Machine.isAccepting, hn, hn', hs.accepting_eq]
  · rw [(not_marked_of_fresh hm (Nat.not_lt.mp hq)).2]
    exact (Bool.eq_false_iff.mpr fun h => hq (Machine.lt_size_of_isAccepting h)).symm

theorem wellFormed_spelled (hm : m.WellFormed) : m.spelled.WellFormed := by
  obtain ⟨q, hq⟩ := hm.exists_initial
  exact ⟨closed_spelled hm.closed, q, (isInitial_spelled hm.closed).trans hq⟩

theorem exists_stands {old : Move} (h : old ∈ m.moves q) :
    ∃ move ∈ m.spelled.moves q, StandsFor m.spelled m.size old move := by
  obtain ⟨n, n', hn, hn', hs⟩ := exists_spelledNode (Machine.lt_size_of_mem_moves h)
  simp only [Machine.moves, hn, hn', Option.elim_some] at h ⊢
  exact hs.exists_stands h

theorem exists_stands_of_mem (hq : q < m.size) {move : Move} (h : move ∈ m.spelled.moves q) :
    ∃ old ∈ m.moves q, StandsFor m.spelled m.size old move := by
  obtain ⟨n, n', hn, hn', hs⟩ := exists_spelledNode hq
  simp only [Machine.moves, hn, hn', Option.elim_some] at h ⊢
  exact hs.exists_of_mem h

/-! ### Chains -/

/-- The steps lead from one state to another through fresh states, which leave no choice. -/
inductive Chain (s : Transducer) (size : Nat) : Nat → List Move → Nat → Prop where
  | nil (t : Nat) : Chain s size t [] t
  | cons {fresh t : Nat} {move : Move} {steps : List Move} :
      size ≤ fresh → s.moves fresh = [move] → Chain s size move.2 steps t →
      Chain s size fresh (move :: steps) t

theorem Chain.trail {steps : List Move} (h : Chain s size q steps t) :
    Trail s.moves q steps t := by
  induction h with
  | nil t => exact .nil t
  | cons _ hmoves _ ih => exact .cons (hmoves ▸ List.mem_singleton_self _) ih

/-- A run that ends in an old state goes through the whole chain. -/
theorem Chain.exists_rest {chain steps : List Move} (h : Chain s size q chain t) (hr : r < size)
    (htrail : Trail s.moves q steps r) :
    ∃ rest, steps = chain ++ rest ∧ Trail s.moves t rest r := by
  induction h generalizing steps with
  | nil t => exact ⟨steps, rfl, htrail⟩
  | cons hfresh hmoves _ ih =>
    cases htrail with
    | nil => omega
    | cons hmove htrail =>
      -- the fresh state has no other move
      rw [hmoves, List.mem_singleton] at hmove
      subst hmove
      obtain ⟨rest, rfl, hrest⟩ := ih htrail
      exact ⟨rest, rfl, hrest⟩

/-- The chain of a move writes the output of the move one symbol at a time. -/
theorem Stands.exists_chain {move : Move} (h : Stands s size move l w t) :
    ∃ chain, Chain s size move.2 chain t ∧ readsOf (move.1 :: chain.map (·.1)) = l.toList ∧
      writesOf (move.1 :: chain.map (·.1)) = w := by
  induction h with
  | nil l t => exact ⟨[], .nil t, by simp, rfl⟩
  | single l c t => exact ⟨[], .nil t, by simp, rfl⟩
  | @cons l c d w t fresh move hfresh hmoves _ ih =>
    obtain ⟨chain, hchain, hreads, hwrites⟩ := ih
    refine ⟨move :: chain, .cons hfresh hmoves hchain, ?_, ?_⟩
    · rw [readsOf_cons, List.map_cons, hreads]
      simp
    · rw [writesOf_cons, List.map_cons, hwrites]
      rfl

/-! ### Runs of the spelled transducer -/

/-- A run of the original beside one that makes a chain of each step. -/
inductive Expands (m : Transducer) : Nat → List Move → List Move → Prop where
  | nil (q : Nat) : Expands m q [] []
  | cons {q : Nat} {old move : Move} {chain steps expanded : List Move} :
      old ∈ m.moves q → move ∈ m.spelled.moves q → StandsFor m.spelled m.size old move →
      Chain m.spelled m.size move.2 chain old.2 →
      readsOf (move.1 :: chain.map (·.1)) = old.1.1.toList →
      writesOf (move.1 :: chain.map (·.1)) = old.1.2 →
      Expands m old.2 steps expanded → Expands m q (old :: steps) (move :: (chain ++ expanded))

/-- Runs beside each other read and write the same. -/
theorem Expands.words_eq {steps expanded : List Move} (h : Expands m q steps expanded) :
    readsOf (expanded.map (·.1)) = readsOf (steps.map (·.1)) ∧
      writesOf (expanded.map (·.1)) = writesOf (steps.map (·.1)) := by
  induction h with
  | nil => exact ⟨rfl, rfl⟩
  | @cons q old move chain steps expanded _ _ _ _ hreads hwrites _ ih =>
    have labels_eq : (move :: (chain ++ expanded)).map (·.1) =
        (move.1 :: chain.map (·.1)) ++ expanded.map (·.1) := by simp
    rw [labels_eq, readsOf_append, writesOf_append, hreads, hwrites, ih.1, ih.2, List.map_cons,
      readsOf_cons, writesOf_cons]
    exact ⟨rfl, rfl⟩

/-- A run of the spelled transducer between old states stands for a run of the original. -/
theorem exists_expands (hm : m.Closed) (hp : p < m.size) (hr : r < m.size) {expanded : List Move}
    (htrail : Trail m.spelled.moves p expanded r) :
    ∃ steps, Trail m.moves p steps r ∧ Expands m p steps expanded := by
  induction hn : expanded.length using Nat.strongRecOn generalizing p expanded with
  | ind n ih =>
    cases htrail with
    | nil => exact ⟨[], .nil _, .nil _⟩
    | @cons _ t' _ l' rest hmem htrail =>
      obtain ⟨old, hold, hs⟩ := exists_stands_of_mem hp hmem
      obtain ⟨chain, hchain, hreads, hwrites⟩ := hs.exists_chain
      obtain ⟨behind, rfl, hbehind⟩ := hchain.exists_rest hr htrail
      rw [List.length_cons, List.length_append] at hn
      obtain ⟨steps, hsteps, hexpands⟩ :=
        ih behind.length (by omega) (hm _ _ _ hold) hbehind rfl
      exact ⟨old :: steps, .cons hold hsteps, .cons hold hmem hs hchain hreads hwrites hexpands⟩

/-- Every run of the original is expanded by a run of the spelled transducer. -/
theorem exists_trail_spelled {steps : List Move} (htrail : Trail m.moves p steps r) :
    ∃ expanded, Trail m.spelled.moves p expanded r ∧ Expands m p steps expanded := by
  induction htrail with
  | nil q => exact ⟨[], .nil q, .nil q⟩
  | cons hold _ ih =>
    obtain ⟨move, hmove, hs⟩ := exists_stands hold
    obtain ⟨chain, hchain, hreads, hwrites⟩ := hs.exists_chain
    obtain ⟨expanded, hexpanded, hexpands⟩ := ih
    exact ⟨move :: (chain ++ expanded), .cons hmove (hchain.trail.append hexpanded),
      .cons hold hmove hs hchain hreads hwrites hexpands⟩

/-- A spelled transducer has the relation of the original. -/
theorem relates_spelled (hm : m.Closed) : m.spelled.Relates x y ↔ m.Relates x y := by
  simp only [Relates, Machine.Accepted, Machine.run_iff_trail, inputOf_eq, outputOf_eq,
    isInitial_spelled hm, isAccepting_spelled hm]
  constructor
  · rintro ⟨p, expanded, ⟨hp, r, htrail, hr⟩, rfl, rfl⟩
    obtain ⟨steps, hsteps, hexpands⟩ := exists_expands hm
      (Machine.lt_size_of_isInitial hp) (Machine.lt_size_of_isAccepting hr) htrail
    obtain ⟨hreads, hwrites⟩ := hexpands.words_eq
    exact ⟨p, steps, ⟨hp, r, hsteps, hr⟩, hreads.symm, hwrites.symm⟩
  · rintro ⟨p, steps, ⟨hp, r, htrail, hr⟩, rfl, rfl⟩
    obtain ⟨expanded, hexpanded, hexpands⟩ := exists_trail_spelled htrail
    obtain ⟨hreads, hwrites⟩ := hexpands.words_eq
    exact ⟨p, expanded, ⟨hp, r, hexpanded, hr⟩, hreads, hwrites⟩

end Transduction.Transducer
