/-
Constructions give well-formed machines.

A construction that copies its operands moves their states up by an offset, and the moves it
adds lead to initial states.  One that discovers its states numbers an initial item first.  So
what is built from well-formed machines is well formed:

* `Acceptor.wellFormed_ofWord`, `Transducer.wellFormed_ofWordPair` — the smallest machines;
* `Machine.wellFormed_union`, `Machine.wellFormed_concat` — two machines side by side;
* `Acceptor.wellFormed_intersectBy` — pairs of states, in whatever order they are met;
* `RangeAcceptor.wellFormed_toAcceptor` — ranges over an alphabet;
* `Transducer.wellFormed_inverse` — the converse relation.
-/
import Transduction.Acceptor.Intersection
import Transduction.Proofs.Languages

namespace Transduction

/-! ### The smallest machines -/

/-- A chain of states, one behind each symbol of a word, is well formed. -/
theorem Machine.wellFormed_chain {L : Type} (label : Char → Nat → L) (w : Word) {last : Node L}
    (hmoves : last.moves = []) (hinitial : w = [] → last.initial = true) :
    Machine.WellFormed { nodes := ((w.zipIdx.map fun (c, i) =>
      ({ initial := i == 0, moves := [(label c i, i + 1)] } : Node L)) ++ [last]).toArray } := by
  rw [Machine.wellFormed_iff]
  simp only [Machine.size, List.mem_append, List.mem_map, List.mem_singleton, List.size_toArray,
    List.length_append, List.length_map, List.length_zipIdx, List.length_singleton]
  constructor
  · intro n hn move hmove
    obtain ⟨⟨c, i⟩, hi, rfl⟩ | rfl := hn
    · obtain rfl := List.mem_singleton.mp hmove
      have := (List.mem_zipIdx hi).2.1
      show i + 1 < w.length + 1
      omega
    · rw [hmoves] at hmove
      cases hmove
  · cases w with
    | nil => exact ⟨last, Or.inr rfl, hinitial rfl⟩
    | cons c w => exact ⟨_, Or.inl ⟨(c, 0), List.mem_cons_self, rfl⟩, rfl⟩

theorem Acceptor.wellFormed_ofWord (w : Word) : (ofWord w).WellFormed :=
  Machine.wellFormed_chain (fun c _ => some c) w rfl fun hw => List.isEmpty_iff.mpr hw

theorem Acceptor.wellFormed_ofEmptyWord : ofEmptyWord.WellFormed := by decide

theorem Transducer.wellFormed_ofWordPair (input output : Word) :
    (ofWordPair input output).WellFormed := by
  cases input with
  | nil =>
    rw [Machine.wellFormed_iff]
    simp only [ofWordPair, Machine.size, List.mem_append, List.mem_singleton, List.size_toArray]
    constructor
    · intro n hn move hmove
      obtain rfl | rfl := hn
      · obtain rfl := List.mem_singleton.mp hmove
        exact Nat.lt_succ_self 1
      · cases hmove
    · exact ⟨_, Or.inl rfl, rfl⟩
  | cons c w =>
    exact Machine.wellFormed_chain
      (fun d i => (some d, if i + 1 = (c :: w).length then output else [])) (c :: w) rfl
      fun h => absurd h (List.cons_ne_nil c w)

/-! ### Copies of machines -/

namespace Node

variable {L : Type} {n : Node L} {size offset : Nat}

theorem lt_of_mem_moves_inner (h : ∀ move ∈ n.moves, move.2 < size) :
    ∀ move ∈ (n.inner offset).moves, move.2 < size + offset := by
  intro move hmove
  obtain ⟨old, hold, rfl⟩ := List.mem_map.mp hmove
  exact Nat.add_lt_add_right (h old hold) offset

end Node

namespace Machine

variable {L : Type} {m a b : Machine L} {s : L}

theorem lt_of_mem_entries {offset : Nat} :
    ∀ move ∈ entries s offset m, move.2 < m.size + offset := by
  intro move hmove
  obtain ⟨q, hq, rfl⟩ := List.mem_map.mp hmove
  exact Nat.add_lt_add_right (lt_size_of_mem_initialStates hq) offset

theorem wellFormed_union (ha : a.WellFormed) (hb : b.WellFormed) : (union s a b).WellFormed := by
  have hfirst := (wellFormed_iff.mp ha).1
  have hsecond := (wellFormed_iff.mp hb).1
  rw [wellFormed_iff, size_union]
  simp only [union, Array.toList_append, Array.toList_map, List.mem_append, List.mem_map,
    List.mem_singleton]
  constructor
  · intro n hn move hmove
    obtain (rfl | ⟨n, hn, rfl⟩) | ⟨n, hn, rfl⟩ := hn
    -- the new state enters both operands
    · rcases List.mem_append.mp hmove with h | h
      · have := lt_of_mem_entries move h
        omega
      · have := lt_of_mem_entries move h
        omega
    · have := Node.lt_of_mem_moves_inner (hfirst n hn) move hmove
      omega
    · have := Node.lt_of_mem_moves_inner (hsecond n hn) move hmove
      omega
  · exact ⟨_, Or.inl (Or.inl rfl), rfl⟩

theorem wellFormed_concat [Ord L] [Std.TransOrd L] [Std.LawfulEqOrd L] (ha : a.WellFormed)
    (hb : b.WellFormed) : (concat s a b).WellFormed := by
  obtain ⟨hfirst, n₀, hn₀, hinitial⟩ := wellFormed_iff.mp ha
  have hsecond := (wellFormed_iff.mp hb).1
  rw [wellFormed_iff, size_concat]
  simp only [concat, Array.toList_append, Array.toList_map, List.mem_append, List.mem_map]
  constructor
  · intro n hn move hmove
    obtain ⟨n, hn, rfl⟩ | ⟨n, hn, rfl⟩ := hn
    · rcases Node.mem_moves_continueWith_iff.mp hmove with h | ⟨_, h⟩
      · have := hfirst n hn move h
        omega
      · have := lt_of_mem_entries move h
        omega
    · have := Node.lt_of_mem_moves_inner (hsecond n hn) move hmove
      omega
  · exact ⟨_, Or.inl ⟨n₀, hn₀, rfl⟩, Node.initial_continueWith.trans hinitial⟩

end Machine

theorem RangeAcceptor.wellFormed_toAcceptor {a : RangeAcceptor} {symbols : List Char}
    (ha : a.WellFormed) : (a.toAcceptor symbols).WellFormed := by
  obtain ⟨htargets, n₀, hn₀, hinitial⟩ := Machine.wellFormed_iff.mp ha
  have size_eq : (a.toAcceptor symbols).size = a.size := by simp [toAcceptor, Machine.size]
  rw [Machine.wellFormed_iff, size_eq]
  simp only [toAcceptor, Array.toList_map, List.mem_map]
  constructor
  · intro n hn move hmove
    obtain ⟨n, hn, rfl⟩ := hn
    obtain ⟨⟨range, t⟩, hold, hmove⟩ := List.mem_flatMap.mp (mem_ascending.mp hmove)
    have target_lt := htargets n hn (range, t) hold
    -- the moves that stand for one move lead where it leads
    cases range with
    | none =>
      obtain rfl := List.mem_singleton.mp hmove
      exact target_lt
    | some range =>
      obtain ⟨c, _, rfl⟩ := List.mem_map.mp hmove
      exact target_lt
  · exact ⟨_, ⟨n₀, hn₀, rfl⟩, hinitial⟩

theorem Transducer.wellFormed_inverse {m : Transducer} (hm : m.WellFormed) :
    m.inverse.WellFormed :=
  Machine.wellFormed_mapLabels (wellFormed_spelled hm)

/-! ### Pairs of states -/

namespace Acceptor

variable {a b : Acceptor}
  {arrange : List (Option Char × Nat × Nat) → List (Option Char × Nat × Nat)}

/-- An intersection has an initial state for each pair of initial states. -/
theorem wellFormed_intersectBy (ha : a.WellFormed) (hb : b.WellFormed) :
    (intersectBy arrange a b).WellFormed := by
  obtain ⟨p, hp⟩ := ha.exists_initial
  obtain ⟨q, hq⟩ := hb.exists_initial
  have hroot : (p, q) ∈ a.initialStates.flatMap fun p => b.initialStates.map fun q => (p, q) :=
    List.mem_flatMap.mpr ⟨p, Machine.mem_initialStates.mpr hp,
      List.mem_map.mpr ⟨q, Machine.mem_initialStates.mpr hq, rfl⟩⟩
  have hbound : 0 < a.size * b.size :=
    Nat.mul_pos (Nat.zero_lt_of_lt (Machine.lt_size_of_isInitial hp))
      (Nat.zero_lt_of_lt (Machine.lt_size_of_isInitial hq))
  exact Machine.wellFormed_explored Function.injective_id hbound hroot (by simp [hp, hq])

end Acceptor

end Transduction
