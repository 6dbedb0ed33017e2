/-
The values that calls leave behind.

A program keeps each value in separate containers, and every call on them looks up what it needs.
The containers that finite sequences of calls leave behind always fit together, so that a call never
looks for something that is not there:

* `Kept` — the values that sequences of calls give;
* `kept_iff` — they are the containers of the values that sequences of operations give;
* `StoredValue.Sound` — the containers of a value fit together;
* `sound_of_kept` — what is kept is sound, and a call on it fails in one case only: a caller asks
  for the moves of a state that a machine does not have.
-/
import Transduction.Checked.Calls

namespace Transduction

/-! ### Sequences of calls -/

/-- The values that finite sequences of calls give. -/
inductive Kept : StoredValue → Prop where
  | of (c : Call) {s : StoredValue} (hoperands : ∀ u ∈ c.operands, Kept u)
      (hrun : Call.run? c = some (some s)) : Kept s

theorem Operation.run?_call_of_obtained {op : Operation} (hop : ∀ u ∈ op.operands, Obtained u)
    (hasks : ¬ Call.AsksUndeclared op.call) :
    Call.run? op.call = some (op.result.map Value.stored) :=
  run?_call (fun u hu => wellFormed_of_obtained (hop u hu))
    (fun u hu => ascending_of_obtained (hop u hu)) hasks

/-- A caller who asks for the moves of a state that is not there gets nothing. -/
theorem Call.run?_eq_none_of_asksUndeclared {c : Call} (hasks : c.AsksUndeclared) :
    run? c = none := by
  obtain ⟨s, view, q, rfl, hview, hq⟩ := hasks
  rw [run?, hview, Option.elim_some, answers, View.transitions?_eq_none_iff.mpr hq, Option.map_none]

/-- A call on the containers of obtained values does what the operation does that it stands for. -/
theorem Call.exists_run?_eq {c : Call}
    (hoperands : ∀ u ∈ c.operands, ∃ v, Obtained v ∧ u = Value.stored v)
    (hasks : ¬ c.AsksUndeclared) : ∃ op : Operation,
      (∀ v ∈ op.operands, Obtained v) ∧ run? c = some (op.result.map Value.stored) := by
  obtain ⟨op, rfl, hop⟩ := exists_operation hoperands
  exact ⟨op, hop, Operation.run?_call_of_obtained hop hasks⟩

/-- What sequences of calls give are the containers of what sequences of operations give. -/
theorem kept_iff {s : StoredValue} : Kept s ↔ ∃ v, Obtained v ∧ s = Value.stored v := by
  constructor
  · intro h
    induction h with
    | of c _ hrun ih =>
      have hasks : ¬ c.AsksUndeclared := fun h =>
        nomatch (Call.run?_eq_none_of_asksUndeclared h).symm.trans hrun
      obtain ⟨op, hop, hresult⟩ := Call.exists_run?_eq ih hasks
      obtain ⟨v, hv, rfl⟩ := Option.map_eq_some_iff.mp (Option.some.inj (hresult.symm.trans hrun))
      exact ⟨v, .of op hop hv, rfl⟩
  · rintro ⟨v, hv, rfl⟩
    induction hv with
    | @of op v hop hresult ih =>
      -- an operation that gives a value asks for no moves
      have hasks : ¬ Call.AsksUndeclared op.call := by
        rintro ⟨s, view, q, hcall, _⟩
        cases op with
        | transitions => cases hresult
        | _ => cases hcall
      have hrun := Operation.run?_call_of_obtained hop hasks
      rw [hresult] at hrun
      refine .of op.call (fun u hu => ?_) hrun
      rw [Operation.call, OperationOn.operands_map] at hu
      obtain ⟨v, hv, rfl⟩ := List.mem_map.mp hu
      exact ih v hv

/-! ### Containers that fit together -/

/-- The containers of a machine fit together: all marks and targets are those of states, there are
as many marks of either kind as rows, and some state is initial. -/
structure Storage.Sound {L : Type} (s : Storage L) : Prop where
  initial_lt : ∀ q ∈ ones s.initial, q < s.rows.size
  accepting_lt : ∀ q ∈ ones s.accepting, q < s.rows.size
  target_lt : ∀ row ∈ s.rows, ∀ move ∈ row, move.2 < s.rows.size
  initial_size : s.initial.size = s.rows.size
  accepting_size : s.accepting.size = s.rows.size
  exists_initial : ∃ q, q ∈ ones s.initial

/-- The alphabet holds the symbols of the moves and no others. -/
def Storage.AlphabetExact {L : Type} (symbol? : L → Option Char) (s : Storage L) : Prop :=
  ∀ c, c ∈ s.symbols ↔ ∃ row ∈ s.rows, ∃ move ∈ row, symbol? move.1 = some c

/-- The containers of an automaton fit together, the alphabet included. -/
structure Dfa.Sound (d : Dfa) : Prop where
  start_lt : d.start < d.rows.size
  accepting_lt : ∀ q ∈ d.accepting.toList, q < d.rows.size
  target_lt : ∀ row ∈ d.rows, ∀ move ∈ row, move.2 < d.rows.size
  accepting_size : d.accepting.size = d.rows.size
  mem_alphabet : ∀ c, c ∈ d.alphabet ↔ ∃ row ∈ d.rows, ∃ move ∈ row, move.1 = c

/-- The containers of a real-time transducer fit together.  It may have no initial state. -/
structure RealTimeStorage.Sound (s : RealTimeStorage) : Prop where
  initial_lt : ∀ q ∈ s.initial, q < s.moves.size
  finalOutputs_size : s.finalOutputs.size = s.moves.size
  target_lt : ∀ row ∈ s.moves, ∀ move ∈ row, move.2.2 < s.moves.size

/-- The containers of a value fit together. -/
def StoredValue.Sound : StoredValue → Prop
  | .acceptor s => s.Sound ∧ s.AlphabetExact id
  | .rangeAcceptor s => s.machine.Sound ∧ s.closures.size = s.machine.rows.size
  | .dfa d => d.Sound
  | .transducer s => s.Sound ∧ s.AlphabetExact (·.1)
  | .realTime s => s.Sound
  | .bimachine b => b.left.Sound ∧ b.right.Sound

section rows

variable {α : Type} {rows : Array (List α)} {P : α → Prop}

theorem exists_mem_rows_iff :
    (∃ row ∈ rows, ∃ x ∈ row, P x) ↔ ∃ q : Nat, ∃ x ∈ (rows[q]?).getD [], P x := by
  constructor
  · rintro ⟨row, hrow, x, hx, h⟩
    obtain ⟨q, hq⟩ := Array.getElem?_of_mem hrow
    exact ⟨q, x, by rwa [hq], h⟩
  · rintro ⟨q, x, hx, h⟩
    cases hq : rows[q]? with
    | none => rw [hq] at hx; cases hx
    | some row => rw [hq] at hx; exact ⟨row, Array.mem_of_getElem? hq, x, hx, h⟩

theorem forall_mem_rows (h : ∀ q : Nat, ∀ x ∈ (rows[q]?).getD [], P x) :
    ∀ row ∈ rows, ∀ x ∈ row, P x := by
  intro row hrow x hx
  obtain ⟨q, hq⟩ := Array.getElem?_of_mem hrow
  exact h q x (by rwa [hq])

end rows

theorem Storage.sound_ofMachine {L : Type} {m : Machine L} {K : Keeping L} (hm : m.WellFormed) :
    (ofMachine K m).Sound where
  initial_lt q hq := by
    rw [ones_initial_ofMachine] at hq
    exact (Machine.lt_size_of_mem_initialStates hq).trans_eq size_ofMachine.symm
  accepting_lt q hq := by
    rw [ones_accepting_ofMachine] at hq
    exact (Machine.lt_size_of_mem_acceptingStates hq).trans_eq
      size_ofMachine.symm
  target_lt := forall_mem_rows fun q (l, t) hmove => by
    have hrow : (l, t) ∈ (ofMachine K m).row q := hmove
    rw [row_ofMachine] at hrow
    exact (hm.target_lt q l t hrow).trans_eq size_ofMachine.symm
  initial_size := inStep_ofMachine.initial_size
  accepting_size := inStep_ofMachine.accepting_size
  exists_initial := by
    rw [ones_initial_ofMachine]
    exact hm.exists_initial.imp fun q => Machine.mem_initialStates.mpr

theorem Storage.alphabetExact_ofMachine {L : Type} {m : Machine L} {K : Keeping L} :
    (ofMachine K m).AlphabetExact K.symbol? :=
  fun c => (inStep_ofMachine.mem_symbols c).trans exists_mem_rows_iff.symm

theorem Dfa.WellFormed.sound {d : Dfa} (hd : d.WellFormed) : d.Sound where
  start_lt := hd.start_lt
  accepting_lt q hq := by
    have hlt := List.mem_range.mp (List.mem_of_mem_filter hq)
    exact hlt.trans_eq hd.accepting_size
  target_lt := forall_mem_rows fun q (c, t) hmove => hd.target_lt q c t hmove
  accepting_size := hd.accepting_size
  mem_alphabet c := by
    rw [hd.mem_alphabet, exists_mem_rows_iff]
    refine exists_congr fun q => ⟨fun ⟨t, hmove⟩ => ⟨(c, t), hmove, rfl⟩, ?_⟩
    rintro ⟨⟨_, t⟩, hmove, rfl⟩
    exact ⟨t, hmove⟩

theorem RealTimeStorage.sound_ofRealTime {m : RealTime} (hm : m.Closed) :
    (ofRealTime m).Sound where
  initial_lt q hq := by
    have hlt := List.mem_range.mp (List.mem_of_mem_filter hq)
    exact hlt.trans_eq size_ofRealTime.symm
  finalOutputs_size := by simp [ofRealTime]
  target_lt := forall_mem_rows fun q (c, w, t) hmove => by
    have hrow : (c, w, t) ∈ m.moves q := by
      rw [ofRealTime, Array.getElem?_map] at hmove
      rw [RealTime.moves]
      cases hq : m.nodes[q]? with
      | none => rw [hq] at hmove; cases hmove
      | some node => rwa [hq] at hmove
    exact (hm q c w t hrow).trans_eq size_ofRealTime.symm

/-- The containers of well-formed values fit together. -/
theorem Value.WellFormed.sound {v : Value} (hv : v.WellFormed) : StoredValue.Sound v.stored := by
  cases v with
  | acceptor | transducer => exact ⟨Storage.sound_ofMachine hv, Storage.alphabetExact_ofMachine⟩
  | rangeAcceptor =>
    exact ⟨Storage.sound_ofMachine hv,
      RangeAcceptor.size_closures.trans Storage.size_ofMachine.symm⟩
  | dfa => exact Dfa.WellFormed.sound hv
  | realTime => exact RealTimeStorage.sound_ofRealTime hv
  | bimachine => exact ⟨hv.1.sound, hv.2.sound⟩

/-! ### Nothing is missing -/

/-- Whatever calls are made on what calls have given, the containers fit together.  A call fails in
one case only: its caller asks for the moves of a state that a machine does not have. -/
theorem sound_of_kept : (∀ s, Kept s → StoredValue.Sound s) ∧
    (∀ c : Call, (∀ s ∈ c.operands, Kept s) → (Call.run? c = none ↔ c.AsksUndeclared)) ∧
    ∀ s, Kept s ↔ ∃ v, Obtained v ∧ s = Value.stored v := by
  refine ⟨fun s hs => ?_, fun c hc => ⟨fun hrun => ?_, Call.run?_eq_none_of_asksUndeclared⟩,
    fun _ => kept_iff⟩
  · obtain ⟨v, hv, rfl⟩ := kept_iff.mp hs
    exact (wellFormed_of_obtained hv).sound
  · by_contra hasks
    obtain ⟨op, _, hresult⟩ := Call.exists_run?_eq (fun s hs => kept_iff.mp (hc s hs)) hasks
    cases hrun.symm.trans hresult

/-- The containers of the star of one symbol. -/
def starred : Storage (Option Char) where
  rows := #[[(none, 1)], [(some 'a', 2)], [(none, 1)]]
  initial := #[true, false, false]
  accepting := #[true, false, true]
  symbols := ['a']

theorem kept_starred : Kept (.acceptor starred) := by
  have hword : ∃ s, Storage.chain? id (['a'].map some) = some s ∧ s.star? id none = some starred :=
    ⟨_, rfl, rfl⟩
  obtain ⟨s, hs, hstar⟩ := hword
  have hkept : Kept (.acceptor s) := .of (.ofWord ['a']) nofun (by rw [Call.run?, hs]; rfl)
  exact .of (.acceptorStar s) (List.forall_mem_singleton.mpr hkept) (by rw [Call.run?, hstar]; rfl)

/-- The last state is there, and the one behind it is not. -/
theorem sound_of_kept_star : StoredValue.Sound (.acceptor starred) ∧
    Call.run? (.transitions (.acceptor starred) 2) ≠ none ∧
    Call.run? (.transitions (.acceptor starred) 3) = none := by
  have hoperands (q : Nat) : ∀ s ∈ (OperationOn.transitions (.acceptor starred) q : Call).operands,
      Kept s := List.forall_mem_singleton.mpr kept_starred
  have hsize : (starred.view Label.ofSymbol).rows.size = 3 := Array.size_map
  refine ⟨sound_of_kept.1 _ kept_starred, fun hrun => ?_, ?_⟩
  · obtain ⟨_, _, _, hcall, hview, hq⟩ := (sound_of_kept.2.1 _ (hoperands 2)).mp hrun
    cases hcall
    cases hview
    omega
  · exact (sound_of_kept.2.1 _ (hoperands 3)).mpr ⟨_, _, 3, rfl, rfl, hsize.le⟩

end Transduction
