/-
What the operations obtain.

An operation takes values and arguments, and gives a value or answers a question.  A value can
be obtained if some sequence of operations ends with it, each of which takes only values that
are obtained before:

* `ValueOn`, `OperationOn` — values and operations, whatever stands for a machine, and
  `OperationOn.operands`: what an operation takes;
* `Value`, with `Value.WellFormed` — the values of this library, and what the operations rely on and
  restore;
* `Operation.result` — what an operation gives;
* `Obtained` — the values that sequences of operations give;
* `Operation.wellFormed_of_result` and `wellFormed_of_obtained` — one operation keeps values well
  formed, and so do all sequences.

Files are left out: a saved text may name states that do not exist.
-/
import Transduction.Proofs.Cascades
import Transduction.Proofs.Declared
import Transduction.Proofs.ErrorPositions
import Transduction.Proofs.Intersection
import Transduction.Proofs.Ranges

namespace Transduction

/-! ### Values and operations -/

section representation

variable (A R M T : Type)

/-- The values that operations work on, where `A` stands for acceptors, `R` for range acceptors, `M`
for transducers and `T` for real-time transducers. -/
inductive ValueOn where
  | acceptor (a : A)
  | rangeAcceptor (a : R)
  | dfa (d : Dfa)
  | transducer (m : M)
  | realTime (m : T)
  | bimachine (b : Bimachine)

/-- The operations: declarations, literals, constructions, and questions. -/
inductive OperationOn where
  | declareAcceptor (size : Nat) (initial finals : List Nat) (arcs : List (Nat × Option Char × Nat))
  | declareRangeAcceptor (size : Nat) (initial finals : List Nat)
      (arcs : List (Nat × Option (Char × Char) × Nat))
  | declareDfa (size start : Nat) (finals : List Nat) (arcs : List (Nat × Char × Nat))
  | declareTransducer (size : Nat) (initial finals : List Nat)
      (arcs : List (Nat × (Option Char × Word) × Nat))
  | declareBimachine (left right : Dfa) (entries : List ((Nat × Char × Nat) × Word))
  | ofWord (w : Word)
  | ofSymbols (cs : List Char)
  | ofEmptyWord
  | ofWordPair (input output : Word)
  | acceptorUnion (a b : A)
  | acceptorConcat (a b : A)
  | acceptorPlus (a : A)
  | acceptorStar (a : A)
  /-- In whatever order the moves of a pair are taken. -/
  | intersect (arrange : List (Option Char × Nat × Nat) → List (Option Char × Nat × Nat))
      (harrange : ∀ moves, (arrange moves).Perm moves) (a b : A)
  | toAcceptor (a : R) (symbols : List Char)
  | determinize (a : A)
  /-- In whatever order the classes are visited. -/
  | minimize (visit : ClassTable → List (List Nat))
      (hvisit : ∀ t : ClassTable, t.Valid → t.Visits (visit t)) (d : Dfa)
  | identity (a : A)
  | product (a b : A)
  | transducerUnion (m n : M)
  | transducerConcat (m n : M)
  | transducerPlus (m : M)
  | transducerStar (m : M)
  | spelled (m : M)
  | inverse (m : M)
  | domain (m : M)
  | trim (m : M)
  | compose (m n : M)
  | composeAll (m : M) (others : List M)
  | rewriter (rule : M) (alphabet : List Char) (policy : Policy)
  | toRealTime (m : M)
  | toBimachine (m : M) (alphabet : List Char)
  | leftAutomaton (b : Bimachine)
  | rightAutomaton (b : Bimachine)
  | toTransducer (b : Bimachine)
  | cascadeTransducer (alphabet : List Char) (stages : List (String × M × Policy))
  | cascadeBimachine (alphabet : List Char) (stages : List (String × M × Policy))
  | transitions (v : ValueOn A R M T) (q : Nat)
  | countTransitions (v : ValueOn A R M T)
  | draw (v : ValueOn A R M T)
  | silentlyReachable (a : A) (q : Nat)
  | silentlyReachableInRanges (a : R) (q : Nat)
  | recognize (a : A) (w : Word)
  | recognizeInRanges (a : R) (w : Word)
  | forwardPath (d : Dfa) (w : Word)
  | backwardPath (d : Dfa) (w : Word)
  | process (m : M) (w : Word)
  | processRealTime (m : T) (w : Word)
  | processBimachine (b : Bimachine) (w : Word)

variable {A R M T}

/-- The values that an operation takes. -/
def OperationOn.operands : OperationOn A R M T → List (ValueOn A R M T)
  | declareAcceptor .. | declareRangeAcceptor .. | declareDfa .. | declareTransducer .. => []
  | ofWord _ | ofSymbols _ | ofEmptyWord | ofWordPair .. => []
  | declareBimachine left right _ => [.dfa left, .dfa right]
  | acceptorUnion a b | acceptorConcat a b | intersect _ _ a b | product a b =>
    [.acceptor a, .acceptor b]
  | acceptorPlus a | acceptorStar a | determinize a | identity a => [.acceptor a]
  | toAcceptor a _ => [.rangeAcceptor a]
  | minimize _ _ d => [.dfa d]
  | transducerUnion m n | transducerConcat m n | compose m n => [.transducer m, .transducer n]
  | transducerPlus m | transducerStar m | spelled m | inverse m | domain m | trim m =>
    [.transducer m]
  | composeAll m others => .transducer m :: others.map .transducer
  | rewriter m _ _ | toRealTime m | toBimachine m _ | process m _ => [.transducer m]
  | leftAutomaton b | rightAutomaton b | toTransducer b | processBimachine b _ => [.bimachine b]
  | cascadeTransducer _ stages | cascadeBimachine _ stages =>
    stages.map fun (_, rule, _) => .transducer rule
  | transitions v _ | countTransitions v | draw v => [v]
  | silentlyReachable a _ | recognize a _ => [.acceptor a]
  | silentlyReachableInRanges a _ | recognizeInRanges a _ => [.rangeAcceptor a]
  | forwardPath d _ | backwardPath d _ => [.dfa d]
  | processRealTime m _ => [.realTime m]

end representation

/-- The values of this library. -/
abbrev Value := ValueOn Acceptor RangeAcceptor Transducer RealTime

/-- The operations on the values of this library. -/
abbrev Operation := OperationOn Acceptor RangeAcceptor Transducer RealTime

/-- What the operations rely on and restore. -/
def Value.WellFormed : Value → Prop
  | .acceptor a => a.WellFormed
  | .rangeAcceptor a => a.WellFormed
  | .dfa d => d.WellFormed
  | .transducer m => m.WellFormed
  | .realTime m => m.Closed
  | .bimachine b => b.left.WellFormed ∧ b.right.WellFormed

namespace Operation

/-- The cascade of named rules with their policies. -/
def cascade (alphabet : List Char) (stages : List (String × Transducer × Policy)) : Cascade where
  alphabet := alphabet
  stages := stages.map fun (name, rule, policy) => ⟨name, rule, policy⟩

/-- The value that an operation gives, unless it refuses its arguments or only answers a
question. -/
def result : Operation → Option Value
  | .declareAcceptor size initial finals arcs =>
    (Acceptor.declare size initial finals arcs).toOption.map .acceptor
  | .declareRangeAcceptor size initial finals arcs =>
    (RangeAcceptor.declare size initial finals arcs).toOption.map .rangeAcceptor
  | .declareDfa size start finals arcs => (Dfa.declare size start finals arcs).toOption.map .dfa
  | .declareTransducer size initial finals arcs =>
    (Transducer.declare size initial finals arcs).toOption.map .transducer
  | .declareBimachine left right entries =>
    some (.bimachine { left := left, right := right, table := .ofEntries entries })
  | .ofWord w => some (.acceptor (.ofWord w))
  | .ofSymbols cs => some (.acceptor (.ofSymbols cs))
  | .ofEmptyWord => some (.acceptor .ofEmptyWord)
  | .ofWordPair input output => some (.transducer (.ofWordPair input output))
  | .acceptorUnion a b => some (.acceptor (a.union b))
  | .acceptorConcat a b => some (.acceptor (a.concat b))
  | .acceptorPlus a => some (.acceptor a.plus)
  | .acceptorStar a => some (.acceptor a.star)
  | .intersect arrange _ a b => some (.acceptor (Acceptor.intersectBy arrange a b))
  | .toAcceptor a symbols => some (.acceptor (a.toAcceptor symbols))
  | .determinize a => some (.dfa a.determinize)
  | .minimize visit _ d => some (.dfa (d.minimizeBy visit))
  | .identity a => some (.transducer a.identity)
  | .product a b => some (.transducer (a.product b))
  | .transducerUnion m n => some (.transducer (m.union n))
  | .transducerConcat m n => some (.transducer (m.concat n))
  | .transducerPlus m => some (.transducer m.plus)
  | .transducerStar m => some (.transducer m.star)
  | .spelled m => some (.transducer m.spelled)
  | .inverse m => some (.transducer m.inverse)
  | .domain m => some (.acceptor m.domain)
  | .trim m => some (.transducer m.trim)
  | .compose m n => some (.transducer (m.compose n))
  | .composeAll m others => some (.transducer (m.composeAll others))
  | .rewriter rule alphabet policy => some (.transducer (rule.rewriter alphabet policy))
  | .toRealTime m => m.toRealTime.toOption.map .realTime
  | .toBimachine m alphabet => (m.toBimachine alphabet).toOption.map .bimachine
  | .leftAutomaton b => some (.dfa b.left)
  | .rightAutomaton b => some (.dfa b.right)
  | .toTransducer b => some (.transducer b.toTransducer)
  | .cascadeTransducer alphabet stages =>
    some (.transducer (cascade alphabet stages).toTransducer)
  | .cascadeBimachine alphabet stages =>
    (cascade alphabet stages).toBimachine.toOption.map .bimachine
  | .transitions .. | .countTransitions _ | .draw _ => none
  | .silentlyReachable .. | .silentlyReachableInRanges .. => none
  | .recognize .. | .recognizeInRanges .. | .forwardPath .. | .backwardPath .. => none
  | .process .. | .processRealTime .. | .processBimachine .. => none

/-- What an operation takes is well formed. -/
def TakesWellFormed (op : Operation) : Prop := ∀ u ∈ op.operands, Value.WellFormed u

theorem TakesWellFormed.first {op : Operation} {u : Value} {us : List Value}
    (hop : op.TakesWellFormed) (h : op.operands = u :: us) : u.WellFormed :=
  hop u (h ▸ List.mem_cons_self)

theorem TakesWellFormed.second {op : Operation} {u u' : Value} {us : List Value}
    (hop : op.TakesWellFormed) (h : op.operands = u :: u' :: us) : u'.WellFormed :=
  hop u' (h ▸ List.mem_cons_of_mem _ List.mem_cons_self)

end Operation

/-- The values that finite sequences of operations give. -/
inductive Obtained : Value → Prop where
  | of (op : Operation) {v : Value} (hoperands : ∀ u ∈ op.operands, Obtained u)
      (hresult : op.result = some v) : Obtained v

namespace Operation

/-! ### One operation -/

section steps

variable {op : Operation} {v : Value}

theorem eq_ok_of_toOption {ε β : Type} {e : Except ε β} {b : β} (h : e.toOption = some b) :
    e = .ok b := by
  cases e with
  | error _ => cases h
  | ok _ => exact congrArg Except.ok (Option.some.inj h)

/-- A value that may be refused is given if it is not. -/
theorem exists_ok_of_result {ε β : Type} {e : Except ε β} {f : β → Value}
    (h : e.toOption.map f = some v) : ∃ b, e = .ok b ∧ f b = v := by
  obtain ⟨b, hb, rfl⟩ := Option.map_eq_some_iff.mp h
  exact ⟨b, eq_ok_of_toOption hb, rfl⟩

/-- A compiled bimachine is made of well-formed automata. -/
theorem wellFormed_of_toBimachine {m : Transducer} {alphabet : List Char} {b : Bimachine}
    (h : m.toBimachine alphabet = .ok b) : Value.WellFormed (.bimachine b) := by
  obtain ⟨r, _, rfl⟩ := Transducer.toBimachine_eq_ok_iff.mp h
  have hsymbols := ascending_symbols_pairwise alphabet
  exact ⟨Bimachine.wellFormed_left_ofRealTime hsymbols,
    Bimachine.wellFormed_right_ofRealTime hsymbols⟩

theorem wellFormed_of_result (hop : op.TakesWellFormed) (h : op.result = some v) :
    v.WellFormed := by
  cases op with
  -- What is declared has passed its checks: every state it names is there.
  | declareAcceptor | declareTransducer =>
    obtain ⟨m, hm, rfl⟩ := exists_ok_of_result h
    exact Machine.wellFormed_declare (fun _ _ => mem_ascending.mp) hm
  | declareRangeAcceptor =>
    obtain ⟨a, ha, rfl⟩ := exists_ok_of_result h
    exact Machine.wellFormed_declare (fun _ => List.Subset.refl _) ha
  | declareDfa =>
    obtain ⟨d, hd, rfl⟩ := exists_ok_of_result h
    exact Dfa.wellFormed_declare hd
  | declareBimachine => cases h; exact ⟨hop.first rfl, hop.second rfl⟩
  -- What is built from nothing but words needs no operand.
  | ofWord => cases h; exact Acceptor.wellFormed_ofWord _
  | ofSymbols => cases h; exact Acceptor.wellFormed_ofSymbols _
  | ofEmptyWord => cases h; exact Acceptor.wellFormed_ofEmptyWord
  | ofWordPair => cases h; exact Transducer.wellFormed_ofWordPair _ _
  -- The rest keeps what its operands bring along.
  | acceptorUnion | transducerUnion =>
    cases h; exact Machine.wellFormed_union (hop.first rfl) (hop.second rfl)
  | acceptorConcat | transducerConcat =>
    cases h; exact Machine.wellFormed_concat (hop.first rfl) (hop.second rfl)
  | acceptorPlus | transducerPlus => cases h; exact Machine.wellFormed_plus (hop.first rfl)
  | acceptorStar | transducerStar =>
    cases h; exact Machine.wellFormed_star (Machine.WellFormed.closed (hop.first rfl))
  | intersect => cases h; exact Acceptor.wellFormed_intersectBy (hop.first rfl) (hop.second rfl)
  | toAcceptor => cases h; exact RangeAcceptor.wellFormed_toAcceptor (hop.first rfl)
  | determinize a => cases h; exact Acceptor.wellFormed_determinize a
  | minimize _ hvisit => cases h; exact Dfa.wellFormed_minimizeBy hvisit (hop.first rfl)
  | identity | domain => cases h; exact Machine.wellFormed_mapLabels (hop.first rfl)
  | product =>
    cases h
    exact Machine.wellFormed_concat (Machine.wellFormed_mapLabels (hop.first rfl))
      (Machine.wellFormed_mapLabels (hop.second rfl))
  | spelled => cases h; exact Transducer.wellFormed_spelled (hop.first rfl)
  | inverse => cases h; exact Transducer.wellFormed_inverse (hop.first rfl)
  | trim => cases h; exact Machine.wellFormed_trim (Machine.WellFormed.closed (hop.first rfl))
  | compose => cases h; exact Transducer.wellFormed_compose
  | composeAll => cases h; exact Transducer.wellFormed_composeAll (hop.first rfl)
  | rewriter => cases h; exact Transducer.wellFormed_rewriter
  | toRealTime =>
    obtain ⟨r, hr, rfl⟩ := exists_ok_of_result h
    exact Transducer.closed_of_toRealTime (Machine.WellFormed.closed (hop.first rfl)) hr
  | toBimachine =>
    obtain ⟨b, hb, rfl⟩ := exists_ok_of_result h
    exact wellFormed_of_toBimachine hb
  | leftAutomaton b => cases h; exact (hop.first rfl : Value.WellFormed (.bimachine b)).1
  | rightAutomaton b => cases h; exact (hop.first rfl : Value.WellFormed (.bimachine b)).2
  | toTransducer => cases h; exact Bimachine.wellFormed_toTransducer
  | cascadeTransducer => cases h; exact Cascade.wellFormed_toTransducer
  | cascadeBimachine =>
    obtain ⟨b, hb, rfl⟩ := exists_ok_of_result h
    exact wellFormed_of_toBimachine hb
  -- The questions about a value make no value.
  | _ => cases h

end steps

end Operation

/-! ### Sequences of operations -/

theorem wellFormed_of_obtained {v : Value} (h : Obtained v) : v.WellFormed := by
  induction h with
  | of op _ hresult ih => exact op.wellFormed_of_result ih hresult

end Transduction
