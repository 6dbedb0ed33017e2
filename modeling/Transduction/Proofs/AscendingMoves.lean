/-
Moves are listed in ascending order.

The moves of a state are a set, listed in ascending order and each of them once.  What is declared
or explored is put in order; what copies an operand or leaves states out keeps the order that it
finds:

* `Machine.Ascending`, with `Machine.ascending_iff` — the property, and node by node;
* `Machine.ascending_union`, `ascending_concat`, `ascending_plus`, `ascending_star` — copies of
  operands;
* `Machine.ascending_trim`, `Machine.ascending_explored` — useful states, and items found;
* `Transducer.ascending_spelled` — chains of fresh states;
* `Operation.ascending_of_result`, `ascending_of_obtained` — one operation, and all;
* `Transducer.distinct_of_obtained` — so no operation lists a move twice.
-/
import Transduction.Proofs.Operations
import Transduction.Proofs.TrimmedForm

namespace Transduction

/-! ### Nodes -/

/-- Moves to states further up are in the same order. -/
theorem pairwise_shift {L : Type} [Ord L] [Std.LawfulEqOrd L] {moves : List (L × Nat)}
    {offset : Nat} (h : moves.Pairwise fun x y => compare x y = .lt) :
    (moves.map fun (l, t) => (l, t + offset)).Pairwise fun x y => compare x y = .lt := by
  refine List.pairwise_map.mpr (h.imp fun {x y} hxy => ?_)
  rw [compare_pair_eq_lt_iff] at hxy ⊢
  simpa only [Nat.compare_eq_lt, Nat.add_lt_add_iff_right] using hxy

theorem Node.ascending_continueWith {L : Type} [Ord L] [Std.TransOrd L] {n : Node L}
    {links : List (L × Nat)} (h : n.moves.Pairwise fun x y => compare x y = .lt) :
    (n.continueWith links).moves.Pairwise fun x y => compare x y = .lt := by
  rw [continueWith]
  split
  · exact ascending_pairwise _
  · exact h

/-! ### Machines -/

namespace Machine

variable {L : Type} {m a b : Machine L} {s : L}

/-- No state lists a move twice. -/
def Distinct (m : Machine L) : Prop := ∀ q, (m.moves q).Nodup

variable [Ord L]

/-- Each state lists its moves in ascending order. -/
def Ascending (m : Machine L) : Prop := ∀ q, (m.moves q).Pairwise fun x y => compare x y = .lt

theorem Ascending.distinct [Std.ReflOrd L] (hm : m.Ascending) : m.Distinct :=
  fun q => nodup_of_pairwise_lt (hm q)

theorem ascending_iff :
    m.Ascending ↔ ∀ n ∈ m.nodes.toList, n.moves.Pairwise fun x y => compare x y = .lt := by
  constructor
  · intro h n hn
    obtain ⟨q, hq⟩ := List.getElem?_of_mem hn
    rw [Array.getElem?_toList] at hq
    simpa [moves, hq] using h q
  · intro h q
    cases hq : m.nodes[q]? with
    | none => simp [moves, hq]
    | some n =>
      have hn := h n (Array.mem_toList_iff.mpr (Array.mem_of_getElem? hq))
      simpa [moves, hq] using hn

section lawful

variable [Std.LawfulEqOrd L]

theorem ascending_entries {offset : Nat} :
    (entries s offset m).Pairwise fun x y => compare x y = .lt := by
  have hinitial : m.initialStates.Pairwise (· < ·) := List.pairwise_lt_range.filter _
  refine List.pairwise_map.mpr (hinitial.imp fun {p q} hpq => ?_)
  exact compare_pair_eq_lt_iff.mpr (Or.inr ⟨rfl, Nat.compare_eq_lt.mpr (by omega)⟩)

theorem ascending_union (ha : a.Ascending) (hb : b.Ascending) : (union s a b).Ascending := by
  rw [ascending_iff] at ha hb ⊢
  simp only [union, Array.toList_append, Array.toList_map, List.mem_append, List.mem_map,
    List.mem_singleton]
  intro n hn
  obtain (rfl | ⟨n, hn, rfl⟩) | ⟨n, hn, rfl⟩ := hn
  · -- the entries of the second operand lie behind all states of the first
    refine List.pairwise_append.mpr ⟨ascending_entries, ascending_entries, fun x hx y hy => ?_⟩
    have hfirst := lt_of_mem_entries x hx
    obtain ⟨p, _, rfl⟩ := List.mem_map.mp hx
    obtain ⟨q, _, rfl⟩ := List.mem_map.mp hy
    exact compare_pair_eq_lt_iff.mpr (Or.inr ⟨rfl, Nat.compare_eq_lt.mpr (by omega)⟩)
  · exact pairwise_shift (ha n hn)
  · exact pairwise_shift (hb n hn)

/-- The useful states keep their order, and so do the moves to them. -/
theorem ascending_trim (hm : m.Ascending) : m.trim.Ascending := by
  rcases m.trim_cases with ⟨_, htrim⟩ | ⟨_, htrim⟩
  · rw [htrim, ascending_iff, restrict]
    intro n hn
    obtain ⟨q, _, rfl⟩ := List.mem_map.mp hn
    refine (hm q).filterMap _ fun x y hxy x' hx y' hy => ?_
    obtain ⟨i, hi, rfl⟩ := Option.map_eq_some_iff.mp hx
    obtain ⟨j, hj, rfl⟩ := Option.map_eq_some_iff.mp hy
    rw [getElem?_numbering m.nodup_usefulStates] at hi hj
    refine compare_pair_eq_lt_iff.mpr ((compare_pair_eq_lt_iff.mp hxy).imp_right fun h => ?_)
    refine ⟨h.1, Nat.compare_eq_lt.mpr ?_⟩
    -- states are numbered in their order
    have htarget := Nat.compare_eq_lt.mp h.2
    obtain ⟨hi_lt, hi⟩ := List.getElem?_eq_some_iff.mp hi
    obtain ⟨hj_lt, hj⟩ := List.getElem?_eq_some_iff.mp hj
    rcases Nat.lt_trichotomy i j with hij | rfl | hji
    · exact hij
    · omega
    · have := List.pairwise_iff_getElem.mp m.pairwise_usefulStates j i hj_lt hi_lt hji
      omega
  · rw [htrim]
    intro q
    rw [moves_lone]
    exact .nil

end lawful

variable [Std.TransOrd L]

theorem ascending_declare {size : Nat} {initial finals : List Nat}
    {checkLabel : L → Except ConstructionError Unit} {arcs : List (Nat × L × Nat)}
    (h : declare checkLabel ascending size initial finals arcs = .ok m) : m.Ascending := by
  obtain ⟨_, _, h⟩ := bind_eq_ok_iff.mp h
  by_cases hempty : initial.isEmpty = true
  · rw [if_pos hempty] at h
    cases h
  · rw [if_neg hempty] at h
    obtain ⟨_, _, h⟩ := bind_eq_ok_iff.mp h
    obtain ⟨_, _, h⟩ := bind_eq_ok_iff.mp h
    cases h
    intro q
    rw [moves_ofLists]
    split
    · exact ascending_pairwise _
    · exact .nil

theorem ascending_mapLabels {L' : Type} (f : L' → L) (m : Machine L') :
    (m.mapLabels f).Ascending := by
  intro q
  rw [moves_mapLabels]
  exact ascending_pairwise _

theorem ascending_explored {κ ι : Type} [Ord ι] {key : κ → ι} {next : κ → List (L × κ)}
    {bound : Nat} {roots : List κ} {initial accepting : κ → Bool} :
    (explored key next bound roots initial accepting).Ascending := by
  rw [ascending_iff, explored, ofExploration]
  intro n hn
  obtain ⟨entry, _, rfl⟩ := List.mem_map.mp hn
  exact ascending_pairwise _

theorem ascending_plus (hm : m.Ascending) : (plus s m).Ascending := by
  rw [ascending_iff] at hm ⊢
  simp only [plus, Array.toList_map, List.mem_map]
  intro n hn
  obtain ⟨n, hn, rfl⟩ := hn
  exact Node.ascending_continueWith (hm n hn)

variable [Std.LawfulEqOrd L]

theorem ascending_concat (ha : a.Ascending) (hb : b.Ascending) : (concat s a b).Ascending := by
  rw [ascending_iff] at ha hb ⊢
  simp only [concat, Array.toList_append, Array.toList_map, List.mem_append, List.mem_map]
  intro n hn
  obtain ⟨n, hn, rfl⟩ | ⟨n, hn, rfl⟩ := hn
  · exact Node.ascending_continueWith (ha n hn)
  · exact pairwise_shift (hb n hn)

theorem ascending_star (hm : m.Ascending) : (star s m).Ascending := by
  have hplus := ascending_iff.mp (ascending_plus (s := s) hm)
  rw [ascending_iff]
  simp only [star, Array.toList_append, Array.toList_map, List.mem_append, List.mem_map,
    List.mem_singleton]
  intro n hn
  obtain rfl | ⟨n, hn, rfl⟩ := hn
  · exact ascending_entries
  · exact pairwise_shift (hplus n hn)

end Machine

theorem Bimachine.ascending_toTransducer {b : Bimachine} : Machine.Ascending b.toTransducer :=
  Machine.ascending_trim Machine.ascending_explored

/-! ### Acceptors -/

namespace Acceptor

theorem ascending_ofWord (w : Word) : Machine.Ascending (ofWord w) := by
  rw [Machine.ascending_iff]
  intro n hn
  simp only [ofWord, List.mem_append, List.mem_singleton, List.mem_map] at hn
  obtain ⟨_, _, rfl⟩ | rfl := hn
  · exact List.pairwise_singleton _ _
  · exact .nil

theorem ascending_ofSymbols (cs : List Char) : Machine.Ascending (ofSymbols cs) := by
  rw [Machine.ascending_iff]
  intro n hn
  simp only [ofSymbols, List.mem_cons, List.not_mem_nil, or_false] at hn
  obtain rfl | rfl := hn
  · refine List.pairwise_map.mpr ((ascending_pairwise cs).imp fun h => ?_)
    exact compare_pair_eq_lt_iff.mpr (Or.inl h)
  · exact .nil

theorem ascending_ofEmptyWord : Machine.Ascending ofEmptyWord := by
  rw [Machine.ascending_iff]
  decide

end Acceptor

theorem RangeAcceptor.ascending_toAcceptor {a : RangeAcceptor} {symbols : List Char} :
    Machine.Ascending (a.toAcceptor symbols) := by
  rw [Machine.ascending_iff, toAcceptor, Array.toList_map]
  intro n hn
  obtain ⟨n, _, rfl⟩ := List.mem_map.mp hn
  exact ascending_pairwise _

/-! ### Transducers -/

namespace Transducer

variable {m a b : Transducer}

theorem ascending_ofWordPair (input output : Word) :
    Machine.Ascending (ofWordPair input output) := by
  rw [Machine.ascending_iff]
  intro n hn
  cases input with
  | nil =>
    simp only [ofWordPair, List.mem_append, List.mem_singleton] at hn
    obtain rfl | rfl := hn
    · exact List.pairwise_singleton _ _
    · exact .nil
  | cons c w =>
    simp only [ofWordPair, List.mem_append, List.mem_singleton, List.mem_map] at hn
    obtain ⟨_, _, rfl⟩ | rfl := hn
    · exact List.pairwise_singleton _ _
    · exact .nil

/-- Old states list their moves in order, and fresh states have one move. -/
theorem ascending_spelled (hm : m.Closed) : Machine.Ascending m.spelled := by
  intro q
  by_cases hq : q < m.size
  · obtain ⟨n, n', _, hn', hs⟩ := exists_spelledNode hq
    obtain ⟨moves, _, hmoves⟩ := hs.standsFor
    rw [Machine.moves, hn', Option.elim_some, hmoves]
    exact ascending_pairwise _
  · rw [Machine.moves, nodes_spelled, if_neg hq]
    cases hn : (spellNodes m.size m.nodes.toList).2[q - m.size]? with
    | none => exact .nil
    | some n => exact ((innerNode_spelled hm).2 n (List.mem_of_getElem? hn)).ascending

theorem ascending_compose : Machine.Ascending (compose a b) :=
  Machine.ascending_trim Machine.ascending_explored

theorem ascending_composeAll {others : List Transducer} (ha : Machine.Ascending a) :
    Machine.Ascending (composeAll a others) := by
  induction others generalizing a with
  | nil => exact ha
  | cons b others ih =>
    have hfirst : Machine.Ascending (compose a b) := ascending_compose
    rw [composeAll, List.foldl_cons]
    exact ih hfirst

theorem ascending_rewriter {rule : Transducer} {alphabet : List Char} {policy : Policy} :
    Machine.Ascending (rule.rewriter alphabet policy) := by
  rw [rewriter]
  exact Machine.ascending_trim Machine.ascending_explored

end Transducer

theorem Cascade.ascending_toTransducer {c : Cascade} : Machine.Ascending c.toTransducer := by
  rw [Cascade.toTransducer]
  cases c.stages with
  | nil =>
    rw [List.map_nil, Cascade.composition, Acceptor.identity]
    exact Machine.ascending_mapLabels _ _
  | cons stage stages =>
    rw [List.map_cons, Cascade.composition, Cascade.rewriter]
    exact Transducer.ascending_composeAll Transducer.ascending_rewriter

/-! ### Operations -/

/-- An acceptor or transducer lists its moves in ascending order.  Nothing is asked of other
values: a range acceptor keeps the order in which its moves are declared. -/
def Value.Ascending : Value → Prop
  | .acceptor a => Machine.Ascending a
  | .transducer m => Machine.Ascending m
  | _ => True

namespace Operation

/-- What an operation takes lists its moves in ascending order. -/
def TakesAscending (op : Operation) : Prop := ∀ u ∈ op.operands, Value.Ascending u

theorem TakesAscending.first {op : Operation} {u : Value} {us : List Value}
    (hop : op.TakesAscending) (h : op.operands = u :: us) : u.Ascending :=
  hop u (h ▸ List.mem_cons_self)

theorem TakesAscending.second {op : Operation} {u u' : Value} {us : List Value}
    (hop : op.TakesAscending) (h : op.operands = u :: u' :: us) : u'.Ascending :=
  hop u' (h ▸ List.mem_cons_of_mem _ List.mem_cons_self)

/-- One operation lists moves in order if its operands do. -/
theorem ascending_of_result {op : Operation} {v : Value} (hop : op.TakesWellFormed)
    (hascending : op.TakesAscending) (h : op.result = some v) : v.Ascending := by
  cases op with
  | declareAcceptor | declareTransducer =>
    obtain ⟨m, hm, rfl⟩ := exists_ok_of_result h
    exact Machine.ascending_declare hm
  | ofWord => cases h; exact Acceptor.ascending_ofWord _
  | ofSymbols => cases h; exact Acceptor.ascending_ofSymbols _
  | ofEmptyWord => cases h; exact Acceptor.ascending_ofEmptyWord
  | ofWordPair => cases h; exact Transducer.ascending_ofWordPair _ _
  | acceptorUnion | transducerUnion =>
    cases h; exact Machine.ascending_union (hascending.first rfl) (hascending.second rfl)
  | acceptorConcat | transducerConcat =>
    cases h; exact Machine.ascending_concat (hascending.first rfl) (hascending.second rfl)
  | acceptorPlus | transducerPlus => cases h; exact Machine.ascending_plus (hascending.first rfl)
  | acceptorStar | transducerStar => cases h; exact Machine.ascending_star (hascending.first rfl)
  | intersect => cases h; exact Machine.ascending_explored
  | toAcceptor => cases h; exact RangeAcceptor.ascending_toAcceptor
  | identity | inverse | domain => cases h; exact Machine.ascending_mapLabels _ _
  | product =>
    cases h
    exact Machine.ascending_concat (Machine.ascending_mapLabels _ _)
      (Machine.ascending_mapLabels _ _)
  | spelled =>
    cases h
    exact Transducer.ascending_spelled (Machine.WellFormed.closed (hop.first rfl))
  | trim => cases h; exact Machine.ascending_trim (hascending.first rfl)
  | compose => cases h; exact Transducer.ascending_compose
  | composeAll => cases h; exact Transducer.ascending_composeAll (hascending.first rfl)
  | rewriter => cases h; exact Transducer.ascending_rewriter
  | toTransducer => cases h; exact Bimachine.ascending_toTransducer
  | cascadeTransducer => cases h; exact Cascade.ascending_toTransducer
  -- Values of the other kinds have no order to keep.
  | declareRangeAcceptor | declareDfa | toRealTime | toBimachine | cascadeBimachine =>
    obtain ⟨_, _, rfl⟩ := exists_ok_of_result h
    trivial
  | _ => cases h <;> trivial

end Operation

theorem ascending_of_obtained {v : Value} (hv : Obtained v) : v.Ascending := by
  induction hv with
  | of op hoperands hresult ih =>
    exact op.ascending_of_result (fun u hu => wellFormed_of_obtained (hoperands u hu)) ih hresult

/-- Whatever operations a transducer is obtained by, it lists no move twice. -/
theorem Transducer.distinct_of_obtained {m : Transducer} (hm : Obtained (.transducer m)) :
    Machine.Distinct m := by
  have hascending : Machine.Ascending m := ascending_of_obtained hm
  exact hascending.distinct

end Transduction
