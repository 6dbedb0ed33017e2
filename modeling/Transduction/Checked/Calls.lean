/-
Calls on values in separate containers.

A call is an operation on values in their containers.  It may fail, where it asks a container for
something that is not there; it may refuse its arguments; or it may only answer a question, and then
it gives no new value:

* `StoredValue`, with `Value.stored` — values in their containers;
* `Call`, with `Call.run?` — operations on them, and what they do;
* `ValueOn.map`, `OperationOn.map`, with `OperationOn.operands_map` — one representation in place of
  another, and `Call.exists_operation`: a call that takes the containers of values stands for an
  operation on these values;
* `Call.AsksUndeclared` — the one way to fail: a caller asks for the moves of a state that a machine
  does not have;
* `Operation.run?_call` — any other call on well-formed values gives what its operation gives.
-/
import Transduction.Checked.Ranges
import Transduction.Checked.Rewriter
import Transduction.Checked.Views
import Transduction.Proofs.LoadedBimachines

namespace Transduction

/-! ### Values in their containers -/

/-- Values in separate containers.  The parts of an automaton and of a bimachine are separate as
they are. -/
abbrev StoredValue :=
  ValueOn (Storage (Option Char)) RangeStorage (Storage (Option Char × Word)) RealTimeStorage

/-- Operations on values in separate containers. -/
abbrev Call :=
  OperationOn (Storage (Option Char)) RangeStorage (Storage (Option Char × Word)) RealTimeStorage

/-- The graph of a machine; real-time transducers and bimachines are not seen as graphs. -/
def StoredValue.view? : StoredValue → Option View
  | .acceptor s => some (s.view Label.ofSymbol)
  | .rangeAcceptor s => some (s.machine.view Label.ofRange)
  | .dfa d => some d.view
  | .transducer s => some (s.view Label.ofPair)
  | .realTime _ | .bimachine _ => none

/-! ### What calls do -/

namespace Call

/-- The value that is given unless it is refused. -/
def given {ε α : Type} (f : α → StoredValue) (x : Option (Except ε α)) :
    Option (Option StoredValue) := x.map fun e => e.toOption.map f

/-- The value that is given. -/
def gives {α : Type} (f : α → StoredValue) (x : Option α) : Option (Option StoredValue) :=
  x.map fun a => some (f a)

/-- An answer, which is no new value. -/
def answers {α : Type} (x : Option α) : Option (Option StoredValue) := x.map fun _ => none

/-- Runs a call: it may fail, and otherwise it may give a value. -/
def run? : Call → Option (Option StoredValue)
  | .declareAcceptor size initial finals arcs =>
    given .acceptor (Storage.declare? (.ordered id) (fun _ => .ok ()) size initial finals arcs)
  | .declareRangeAcceptor size initial finals arcs =>
    given .rangeAcceptor (RangeStorage.declare? size initial finals arcs)
  | .declareDfa size start finals arcs => given .dfa (Dfa.declare? size start finals arcs)
  | .declareTransducer size initial finals arcs =>
    given .transducer (Storage.declare? (.ordered (·.1)) (fun _ => .ok ()) size initial finals arcs)
  | .declareBimachine left right entries =>
    some (some (.bimachine { left := left, right := right, table := .ofEntries entries }))
  | .ofWord w => gives .acceptor (Storage.chain? id (w.map some))
  | .ofSymbols cs => gives .acceptor (Storage.symbols? cs)
  | .ofEmptyWord => gives .acceptor Storage.emptyWord?
  | .ofWordPair input output => gives .transducer (Storage.wordPair? input output)
  | .acceptorUnion a b => gives .acceptor (Storage.union? id none a b)
  | .acceptorConcat a b => gives .acceptor (Storage.concat? id none a b)
  | .acceptorPlus a => gives .acceptor (a.plus? id none)
  | .acceptorStar a => gives .acceptor (a.star? id none)
  | .intersect arrange _ a b => gives .acceptor (Storage.intersect? arrange a b)
  | .toAcceptor a symbols => gives .acceptor (a.toAcceptor? symbols)
  | .determinize a => gives .dfa a.determinize?
  | .minimize visit _ d => gives .dfa (d.minimizeBy? visit)
  | .identity a => gives .transducer a.identity?
  | .product a b => gives .transducer (a.product? b)
  | .transducerUnion m n => gives .transducer (Storage.union? (·.1) Transducer.silent m n)
  | .transducerConcat m n => gives .transducer (Storage.concat? (·.1) Transducer.silent m n)
  | .transducerPlus m => gives .transducer (m.plus? (·.1) Transducer.silent)
  | .transducerStar m => gives .transducer (m.star? (·.1) Transducer.silent)
  | .spelled m => gives .transducer m.spelled?
  | .inverse m => gives .transducer m.inverse?
  | .domain m => gives .acceptor m.domain?
  | .trim m => gives .transducer (m.trim? (·.1))
  | .compose m n => gives .transducer (m.compose? n)
  | .composeAll m others => gives .transducer (m.composeAll? others)
  | .rewriter rule alphabet policy => gives .transducer (rule.rewriter? alphabet policy)
  | .toRealTime m => given .realTime m.toRealTime?
  | .toBimachine m alphabet => given .bimachine (m.toBimachine? alphabet)
  | .leftAutomaton b => some (some (.dfa b.left))
  | .rightAutomaton b => some (some (.dfa b.right))
  | .toTransducer b => gives .transducer b.toTransducer?
  | .cascadeTransducer alphabet stages =>
    gives .transducer (Storage.cascade? alphabet (stages.map (·.2)))
  | .cascadeBimachine alphabet stages =>
    given .bimachine ((Storage.cascade? alphabet (stages.map (·.2))).bind fun m =>
      m.toBimachine? alphabet)
  | .transitions s q => (StoredValue.view? s).elim (some none) fun v => answers (v.transitions? q)
  | .countTransitions s => (StoredValue.view? s).elim (some none) fun v => answers v.count?
  | .draw s => (StoredValue.view? s).elim (some none) fun v => answers v.draw?
  | .silentlyReachable a q => answers (a.silentlyReachable? Option.isNone q)
  | .silentlyReachableInRanges a q => answers (some (a.silentlyReachable q))
  | .recognize a w => answers (a.recognizes? Option.isNone Acceptor.reads w)
  | .recognizeInRanges a w => answers (a.recognizes? w)
  | .forwardPath d w => answers (some (d.forwardTrace w))
  | .backwardPath d w => answers (some (d.backwardTrace w))
  | .process m w => answers (m.process? w)
  | .processRealTime m w => answers (m.process? w)
  | .processBimachine b w => answers (b.processAt w)

/-- A caller asks for the moves of a state that a machine does not have. -/
def AsksUndeclared (c : Call) : Prop :=
  ∃ s v q, c = .transitions s q ∧ StoredValue.view? s = some v ∧ v.rows.size ≤ q

end Call

/-! ### One representation in place of another -/

section map

variable {A A' R R' M M' T T' : Type} (f : A → A') (g : R → R') (h : M → M') (k : T → T')

/-- A value in another representation. -/
def ValueOn.map : ValueOn A R M T → ValueOn A' R' M' T'
  | acceptor a => .acceptor (f a)
  | rangeAcceptor a => .rangeAcceptor (g a)
  | dfa d => .dfa d
  | transducer m => .transducer (h m)
  | realTime m => .realTime (k m)
  | bimachine b => .bimachine b

namespace OperationOn

/-- An operation on values in another representation. -/
def map : OperationOn A R M T → OperationOn A' R' M' T'
  | declareAcceptor size initial finals arcs => .declareAcceptor size initial finals arcs
  | declareRangeAcceptor size initial finals arcs => .declareRangeAcceptor size initial finals arcs
  | declareDfa size start finals arcs => .declareDfa size start finals arcs
  | declareTransducer size initial finals arcs => .declareTransducer size initial finals arcs
  | declareBimachine left right entries => .declareBimachine left right entries
  | ofWord w => .ofWord w
  | ofSymbols cs => .ofSymbols cs
  | ofEmptyWord => .ofEmptyWord
  | ofWordPair input output => .ofWordPair input output
  | acceptorUnion a b => .acceptorUnion (f a) (f b)
  | acceptorConcat a b => .acceptorConcat (f a) (f b)
  | acceptorPlus a => .acceptorPlus (f a)
  | acceptorStar a => .acceptorStar (f a)
  | intersect arrange harrange a b => .intersect arrange harrange (f a) (f b)
  | toAcceptor a symbols => .toAcceptor (g a) symbols
  | determinize a => .determinize (f a)
  | minimize visit hvisit d => .minimize visit hvisit d
  | identity a => .identity (f a)
  | product a b => .product (f a) (f b)
  | transducerUnion m n => .transducerUnion (h m) (h n)
  | transducerConcat m n => .transducerConcat (h m) (h n)
  | transducerPlus m => .transducerPlus (h m)
  | transducerStar m => .transducerStar (h m)
  | spelled m => .spelled (h m)
  | inverse m => .inverse (h m)
  | domain m => .domain (h m)
  | trim m => .trim (h m)
  | compose m n => .compose (h m) (h n)
  | composeAll m others => .composeAll (h m) (others.map h)
  | rewriter rule alphabet policy => .rewriter (h rule) alphabet policy
  | toRealTime m => .toRealTime (h m)
  | toBimachine m alphabet => .toBimachine (h m) alphabet
  | leftAutomaton b => .leftAutomaton b
  | rightAutomaton b => .rightAutomaton b
  | toTransducer b => .toTransducer b
  | cascadeTransducer alphabet stages =>
    .cascadeTransducer alphabet (stages.map fun (name, rule, policy) => (name, h rule, policy))
  | cascadeBimachine alphabet stages =>
    .cascadeBimachine alphabet (stages.map fun (name, rule, policy) => (name, h rule, policy))
  | transitions v q => .transitions (v.map f g h k) q
  | countTransitions v => .countTransitions (v.map f g h k)
  | draw v => .draw (v.map f g h k)
  | silentlyReachable a q => .silentlyReachable (f a) q
  | silentlyReachableInRanges a q => .silentlyReachableInRanges (g a) q
  | recognize a w => .recognize (f a) w
  | recognizeInRanges a w => .recognizeInRanges (g a) w
  | forwardPath d w => .forwardPath d w
  | backwardPath d w => .backwardPath d w
  | process m w => .process (h m) w
  | processRealTime m w => .processRealTime (k m) w
  | processBimachine b w => .processBimachine b w

theorem operands_map {op : OperationOn A R M T} :
    (op.map f g h k).operands = op.operands.map (ValueOn.map f g h k) := by
  cases op <;> simp [operands, map, ValueOn.map]

variable {f g h k} {f' : A' → A} {g' : R' → R} {h' : M' → M} {k' : T' → T}

/-- An operation is unchanged on the way there and back if all that it takes is. -/
theorem map_map_eq_self {op : OperationOn A R M T}
    (hback : ∀ u ∈ op.operands, (u.map f g h k).map f' g' h' k' = u) :
    (op.map f g h k).map f' g' h' k' = op := by
  have acceptor {a : A} (ha : .acceptor a ∈ op.operands) : f' (f a) = a :=
    ValueOn.acceptor.inj (hback (.acceptor a) ha)
  have rangeAcceptor {a : R} (ha : .rangeAcceptor a ∈ op.operands) : g' (g a) = a :=
    ValueOn.rangeAcceptor.inj (hback (.rangeAcceptor a) ha)
  have transducer {m : M} (hm : .transducer m ∈ op.operands) : h' (h m) = m :=
    ValueOn.transducer.inj (hback (.transducer m) hm)
  have realTime {m : T} (hm : .realTime m ∈ op.operands) : k' (k m) = m :=
    ValueOn.realTime.inj (hback (.realTime m) hm)
  have each {α β : Type} {there : α → β} {back : β → α} {xs : List α}
      (h : ∀ x ∈ xs, back (there x) = x) : (xs.map there).map back = xs :=
    List.map_map.trans ((List.map_congr_left h).trans (List.map_id xs))
  -- The operations with the same operands share a case; those without any are unchanged.
  cases op with
  -- A list of machines comes back member by member.
  | composeAll m others =>
    exact congrArg₂ composeAll (transducer List.mem_cons_self) (each fun m' hm' =>
      transducer (List.mem_cons_of_mem _ (List.mem_map_of_mem hm')))
  | cascadeTransducer alphabet stages | cascadeBimachine alphabet stages =>
    refine congrArg _ (each fun (name, rule, policy) hstage => ?_)
    have hrule := transducer (List.mem_map.mpr ⟨_, hstage, rfl⟩)
    exact congrArg (fun rule => (name, rule, policy)) hrule
  | acceptorUnion | acceptorConcat | product | intersect =>
    rw [map, map, acceptor List.mem_cons_self,
      acceptor (List.mem_cons_of_mem _ List.mem_cons_self)]
  | transducerUnion | transducerConcat | compose =>
    rw [map, map, transducer List.mem_cons_self,
      transducer (List.mem_cons_of_mem _ List.mem_cons_self)]
  | acceptorPlus | acceptorStar | determinize | identity | silentlyReachable | recognize =>
    rw [map, map, acceptor List.mem_cons_self]
  | toAcceptor | silentlyReachableInRanges | recognizeInRanges =>
    rw [map, map, rangeAcceptor List.mem_cons_self]
  | transducerPlus | transducerStar | spelled | inverse | domain | trim | rewriter | toRealTime
  | toBimachine | process =>
    rw [map, map, transducer List.mem_cons_self]
  | processRealTime => rw [map, map, realTime List.mem_cons_self]
  | transitions | countTransitions | draw => rw [map, map, hback _ List.mem_cons_self]
  | _ => rfl

end OperationOn

end map

/-! ### Operations as calls -/

/-- The containers of a value. -/
def Value.stored : Value → StoredValue :=
  ValueOn.map (.ofMachine (.ordered id)) .ofMachine (.ofMachine (.ordered (·.1))) .ofRealTime

/-- The call that stands for an operation. -/
def Operation.call : Operation → Call :=
  OperationOn.map (.ofMachine (.ordered id)) .ofMachine (.ofMachine (.ordered (·.1))) .ofRealTime

/-- The machine that containers hold. -/
def Storage.toMachine {L : Type} (s : Storage L) : Machine L where
  nodes := ((List.range s.size).map fun q =>
    { initial := marked s.initial q, accepting := marked s.accepting q, moves := s.row q }).toArray

/-- The real-time transducer that containers hold. -/
def RealTimeStorage.toRealTime (s : RealTimeStorage) : RealTime where
  nodes := ((List.range s.moves.size).map fun q =>
    { initial := s.initial.contains q
      moves := (s.moves[q]?).getD []
      finalOutputs := (s.finalOutputs[q]?).getD [] }).toArray

theorem Storage.toMachine_ofMachine {L : Type} {K : Keeping L} {m : Machine L} :
    (ofMachine K m).toMachine = m := by
  simp only [toMachine, size_ofMachine, marked_initial_ofMachine, marked_accepting_ofMachine,
    row_ofMachine]
  refine congrArg Machine.mk (Array.ext (by simp [Machine.size]) fun q hq hq' => ?_)
  simp [Machine.isInitial, Machine.isAccepting, Machine.moves, hq']

theorem RealTimeStorage.toRealTime_ofRealTime {m : RealTime} :
    (ofRealTime m).toRealTime = m := by
  refine congrArg RealTime.mk (Array.ext (by simp [ofRealTime]) fun q hq hq' => ?_)
  simp [ofRealTime, RealTime.initialStates, RealTime.isInitial, RealTime.size, hq']

/-- A call that takes the containers of values stands for an operation on these values. -/
theorem Call.exists_operation {P : Value → Prop} {c : Call}
    (hoperands : ∀ u ∈ c.operands, ∃ v, P v ∧ u = Value.stored v) :
    ∃ op : Operation, c = op.call ∧ ∀ v ∈ op.operands, P v := by
  have hback (v : Value) : ValueOn.map Storage.toMachine (fun s => s.machine.toMachine)
      Storage.toMachine RealTimeStorage.toRealTime v.stored = v := by
    cases v <;> simp [Value.stored, ValueOn.map, Storage.toMachine_ofMachine,
      RangeStorage.ofMachine, RealTimeStorage.toRealTime_ofRealTime]
  refine ⟨c.map Storage.toMachine (fun s => s.machine.toMachine) Storage.toMachine
    RealTimeStorage.toRealTime, ?_, fun v hv => ?_⟩
  · refine (OperationOn.map_map_eq_self fun u hu => ?_).symm
    obtain ⟨v, _, rfl⟩ := hoperands u hu
    rw [hback]
    rfl
  · rw [OperationOn.operands_map] at hv
    obtain ⟨u, hu, rfl⟩ := List.mem_map.mp hv
    obtain ⟨v, hP, rfl⟩ := hoperands u hu
    rwa [hback]

/-! ### Calls do what operations do -/

namespace Call

theorem given_eq {ε α β : Type} {x : Option (Except ε β)} {e : Except ε α} {g : α → β}
    {f : β → StoredValue} {f' : α → Value} (hx : x = some (e.map g))
    (hf : ∀ a, f (g a) = (f' a).stored) :
    given f x = some ((e.toOption.map f').map Value.stored) := by
  subst hx
  cases e with
  | error _ => rfl
  | ok a => exact congrArg (fun s => some (some s)) (hf a)

theorem gives_eq {α : Type} {x : Option α} {a : α} {f : α → StoredValue} {v : Value}
    (hx : x = some a) (hf : f a = v.stored) :
    gives f x = some ((some v).map Value.stored) := by
  subst hx
  exact congrArg (fun s => some (some s)) hf

theorem answers_eq {α : Type} {x : Option α} {a : α} (hx : x = some a) :
    answers x = some none := by
  rw [hx]
  rfl

/-- A question to a graph is answered if there is an answer for each graph. -/
theorem asked_eq {α : Type} {view? : Option View} {ask : View → Option α}
    (h : ∀ view ∈ view?, ∃ a, ask view = some a) :
    view?.elim (some none) (fun view => answers (ask view)) = some none := by
  cases view? with
  | none => rfl
  | some view =>
    obtain ⟨a, ha⟩ := h view rfl
    exact answers_eq ha

end Call

/-- What a graph is of is well formed. -/
theorem Value.sound_view {v : Value} (hv : v.WellFormed) :
    ∀ view ∈ StoredValue.view? v.stored, view.Sound := by
  intro view hview
  cases v with
  | acceptor | transducer =>
    cases hview
    exact Storage.sound_view (Machine.WellFormed.closed hv)
  | rangeAcceptor =>
    cases hview
    exact Storage.sound_view (Machine.WellFormed.closed hv)
  | dfa =>
    cases hview
    exact Dfa.sound_view hv
  | realTime | bimachine => cases hview

namespace Operation

theorem cascade?_eq (alphabet : List Char) {stages : List (String × Transducer × Policy)}
    (h : ∀ entry ∈ stages, Machine.Closed entry.2.1) :
    Storage.cascade? alphabet ((stages.map fun (name, rule, policy) =>
      (name, (.ofMachine (.ordered (·.1)) rule : Storage (Option Char × Word)), policy)).map
        (·.2)) =
      some (.ofMachine (.ordered (·.1)) (cascade alphabet stages).toTransducer) := by
  have hcascade := Storage.cascade?_eq (c := cascade alphabet stages) fun stage hstage => by
    obtain ⟨entry, hentry, rfl⟩ := List.mem_map.mp hstage
    exact h entry hentry
  rw [cascade, List.map_map] at hcascade
  rw [List.map_map]
  exact hcascade

/-- A call on well-formed values fails nowhere, unless it asks for the moves of a state that is not
there, and gives what its operation gives. -/
theorem run?_call {op : Operation} (hop : op.TakesWellFormed)
    (hascending : op.TakesAscending) (hasks : ¬ Call.AsksUndeclared op.call) :
    Call.run? op.call = some (op.result.map Value.stored) := by
  have closed {L : Type} {m : Machine L} (h : m.WellFormed) : m.Closed := h.closed
  cases op with
  -- What is declared may be refused with an error, so the result is a value inside `Except`.
  | declareAcceptor | declareTransducer =>
    exact Call.given_eq (Storage.declare?_eq Keeping.lawful_ordered
      fun _ => Storage.foldl_ordered_eq_ascending.symm) fun _ => rfl
  | declareRangeAcceptor => exact Call.given_eq RangeStorage.declare?_eq fun _ => rfl
  | declareDfa =>
    exact Call.given_eq (g := id) (by rw [Except.map_id]; exact Dfa.declare?_eq) fun _ => rfl
  | declareBimachine => rfl
  -- From here to `compose` nothing is refused: what is to be shown is that no lookup fails.
  | ofWord => exact Call.gives_eq Storage.ofWord?_eq rfl
  | ofSymbols => exact Call.gives_eq Storage.symbols?_eq rfl
  | ofEmptyWord => exact Call.gives_eq Storage.emptyWord?_eq rfl
  | ofWordPair => exact Call.gives_eq Storage.wordPair?_eq rfl
  | acceptorUnion | transducerUnion =>
    exact Call.gives_eq (Storage.union?_eq (hascending.first rfl) (hascending.second rfl)) rfl
  | acceptorConcat | transducerConcat =>
    exact Call.gives_eq (Storage.concat?_eq (hascending.first rfl) (hascending.second rfl)) rfl
  | acceptorPlus | transducerPlus =>
    exact Call.gives_eq (Storage.plus?_eq (hascending.first rfl)) rfl
  | acceptorStar | transducerStar =>
    exact Call.gives_eq (Storage.star?_eq (hascending.first rfl)) rfl
  | intersect _ harrange =>
    exact Call.gives_eq (Storage.intersect?_eq (fun moves => (harrange moves).subset)
      (closed (hop.first rfl)) (closed (hop.second rfl))) rfl
  | toAcceptor => exact Call.gives_eq RangeStorage.toAcceptor?_ofMachine rfl
  | determinize => exact Call.gives_eq (Storage.determinize?_eq (closed (hop.first rfl))) rfl
  | minimize _ hvisit => exact Call.gives_eq (Dfa.minimizeBy?_eq hvisit (hop.first rfl)) rfl
  | identity => exact Call.gives_eq Storage.identity?_eq rfl
  | product => exact Call.gives_eq Storage.product?_eq rfl
  | domain => exact Call.gives_eq Storage.domain?_eq rfl
  | spelled => exact Call.gives_eq (Storage.spelled?_eq (closed (hop.first rfl))) rfl
  | inverse => exact Call.gives_eq (Storage.inverse?_eq (closed (hop.first rfl))) rfl
  | trim =>
    exact Call.gives_eq (Storage.trim?_eq (closed (hop.first rfl)) (hascending.first rfl)) rfl
  | compose =>
    exact Call.gives_eq (Storage.compose?_eq (closed (hop.first rfl)) (closed (hop.second rfl))) rfl
  -- The operands behind the first one are well-formed because they are operands too.
  | composeAll m others =>
    refine Call.gives_eq (Storage.composeAll?_eq (closed (hop.first rfl)) fun m' hm' => ?_) rfl
    exact closed (hop _ (List.mem_cons_of_mem _ (List.mem_map_of_mem hm')))
  | rewriter => exact Call.gives_eq (Storage.rewriter?_eq (closed (hop.first rfl))) rfl
  | toRealTime =>
    refine Call.given_eq ?_ fun _ => rfl
    exact Storage.toRealTime?_eq (closed (hop.first rfl)) (hascending.first rfl)
  | toBimachine m alphabet =>
    refine Call.given_eq (g := id) ?_ fun _ => rfl
    rw [Except.map_id]
    exact Storage.toBimachine?_eq (closed (hop.first rfl)) (hascending.first rfl)
  | leftAutomaton | rightAutomaton => rfl
  | toTransducer => exact Call.gives_eq Bimachine.toTransducer?_eq rfl
  | cascadeTransducer =>
    refine Call.gives_eq (cascade?_eq _ fun entry hentry => ?_) rfl
    exact closed (hop _ (List.mem_map.mpr ⟨entry, hentry, rfl⟩))
  | cascadeBimachine alphabet stages =>
    have hcomposed := cascade?_eq alphabet fun entry hentry =>
      closed (hop _ (List.mem_map.mpr ⟨entry, hentry, rfl⟩))
    refine Call.given_eq (g := id) ?_ fun _ => rfl
    rw [Except.map_id]
    refine Option.bind_eq_some_iff.mpr ⟨_, hcomposed, ?_⟩
    exact Storage.toBimachine?_eq (closed Cascade.wellFormed_toTransducer)
      Cascade.ascending_toTransducer
  -- The one row that may be missing is that of a state the caller made up.
  | transitions v q =>
    refine Call.asked_eq fun view hview => Option.ne_none_iff_exists'.mp fun hrow => ?_
    exact hasks ⟨_, view, q, rfl, hview, View.transitions?_eq_none_iff.mp hrow⟩
  | countTransitions => exact Call.asked_eq fun view _ => ⟨_, View.count?_eq⟩
  | draw =>
    refine Call.asked_eq fun view hview => ⟨_, View.draw?_eq ?_⟩
    exact Value.sound_view (hop.first rfl) view hview
  -- Questions are answered as they are; their value is no machine.
  | silentlyReachable =>
    exact Call.answers_eq (Storage.silentlyReachable?_ofMachine (closed (hop.first rfl)))
  | recognize => exact Call.answers_eq (Storage.recognizes?_ofMachine (closed (hop.first rfl)))
  | recognizeInRanges =>
    exact Call.answers_eq (RangeStorage.recognizes?_ofMachine (closed (hop.first rfl)))
  | silentlyReachableInRanges | forwardPath | backwardPath => rfl
  | process =>
    exact Call.answers_eq (Storage.process?_eq (closed (hop.first rfl)) (hascending.first rfl))
  | processRealTime => exact Call.answers_eq (RealTimeStorage.process?_eq (hop.first rfl))
  | processBimachine => exact Call.answers_eq Bimachine.processAt_eq

end Operation

end Transduction
