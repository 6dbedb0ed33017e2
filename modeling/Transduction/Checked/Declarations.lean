/-
Declared machines and literals, written move by move.

A declaration is entered item by item: the state that an item names is checked, and then the item is
written.  The first error ends it, and what has been written so far is dropped.  Literals are short
programs that check nothing:

* `Storage.enterAll?` — checks and writes for the items of a list;
* `Storage.declare?`, with `Storage.declare?_eq` — no write of a declaration fails, and it ends like
  `Machine.declare`;
* `Storage.chain?` — a chain of states with one move each, of which `Acceptor.ofWord` and
  `Transducer.ofWordPair` are made;
* `Storage.symbols?`, `Storage.emptyWord?` — the other literals.
-/
import Transduction.Checked.Algebra

namespace Transduction

namespace Storage

/-! ### Declarations -/

section declare

variable {L : Type} (K : Keeping L)

/-- Checks and writes the items of a list one after the other, up to the first error. -/
def enterAll? {α ε : Type} (check : α → Except ε Unit) (write : α → Write L) (s : Storage L) :
    List α → Option (Except ε (Storage L))
  | [] => some (.ok s)
  | x :: xs =>
    match check x with
    | .error e => some (.error e)
    | .ok _ => do
      let s ← s.write? K (write x)
      enterAll? check write s xs

/-- A machine from its declaration, unless something is wrong with it. -/
def declare? (checkLabel : L → Except ConstructionError Unit) (size : Nat)
    (initial finals : List Nat) (arcs : List (Nat × L × Nat)) :
    Option (Except ConstructionError (Storage L)) := do
  let s ← empty.writes? K (List.replicate size .state)
  andThen? (enterAll? K (checkState size) .initial s initial) fun s =>
    if (ones s.initial).isEmpty then some (.error .missingInitialState)
    else
      andThen? (enterAll? K (checkState size) .accepting s finals) fun s =>
        enterAll? K (fun (p, l, t) => do checkState size p; checkState size t; checkLabel l)
          (fun (p, l, t) => .move p l t) s arcs

variable {K} {α ε : Type} {check : α → Except ε Unit} {write : α → Write L} {s : Storage L}
  {xs : List α}

/-- What is checked can be written, so the items are written up to the first error. -/
theorem endsLike_enterAll? (hK : K.Lawful) (hs : s.InStep K)
    (hstate : ∀ x, (write x).isState = false)
    (hwrite : ∀ x u, check x = .ok u → ∀ q ∈ (write x).source?, q < s.size) :
    EndsLike (fun s' _ => s.writes? K (xs.map write) = some s' ∧ ∀ x ∈ xs, check x = .ok ())
      (enterAll? K check write s xs) (xs.forM check) := by
  -- Each entry is checked before it is written, and none adds a state, so what the checks know of
  -- the size stays true.
  induction xs generalizing s with
  | nil => exact .ok ⟨rfl, nofun⟩
  | cons x xs ih =>
    rw [List.forM_eq_forM, List.forM_cons, enterAll?]
    cases hx : check x with
    | error e => exact .error e
    | ok u =>
      obtain ⟨next, hnext, _⟩ := exists_write? hs (hwrite x u hx)
      have hsize : next.size = s.size := by
        rw [size_of_write? hnext, hstate]
        rfl
      rw [hnext]
      refine (ih (hs.write? hK hnext) (hsize ▸ hwrite)).imp fun s' _ ⟨hs', hxs⟩ => ⟨?_, ?_⟩
      · rw [List.map_cons, writes?, List.foldlM_cons, hnext]
        exact hs'
      · exact List.forall_mem_cons.mpr ⟨hx, hxs⟩

variable {checkLabel : L → Except ConstructionError Unit}
  {arrange : List (L × Nat) → List (L × Nat)} {size : Nat} {initial finals : List Nat}
  {arcs : List (Nat × L × Nat)}

/-- All writes of a declaration. -/
def declared (size : Nat) (initial finals : List Nat) (arcs : List (Nat × L × Nat)) :
    List (Write L) :=
  List.replicate size .state ++ initial.map .initial ++ finals.map .accepting ++
    arcs.map fun (p, l, t) => .move p l t

theorem states_map_initial : Write.states (initial.map (Write.initial (L := L))) = 0 :=
  Write.states_eq_zero fun w hw => by
    obtain ⟨_, _, rfl⟩ := List.mem_map.mp hw
    rfl

theorem states_map_accepting : Write.states (finals.map (Write.accepting (L := L))) = 0 :=
  Write.states_eq_zero fun w hw => by
    obtain ⟨_, _, rfl⟩ := List.mem_map.mp hw
    rfl

theorem states_map_move : Write.states (arcs.map fun (p, l, t) => Write.move p l t) = 0 :=
  Write.states_eq_zero fun w hw => by
    obtain ⟨_, _, rfl⟩ := List.mem_map.mp hw
    rfl

theorem filterMap_moveFrom?_declared {q : Nat} :
    (declared size initial finals arcs).filterMap (Write.moveFrom? q) =
      arcs.filterMap fun (p, move) => if p = q then some move else none := by
  have hstates : (List.replicate size (Write.state (L := L))).filterMap (Write.moveFrom? q) = [] :=
    List.filterMap_eq_nil_iff.mpr fun w hw => List.eq_of_mem_replicate hw ▸ rfl
  have hinitial : (initial.map (Write.initial (L := L))).filterMap (Write.moveFrom? q) = [] := by
    simp [Write.moveFrom?]
  have hfinals : (finals.map (Write.accepting (L := L))).filterMap (Write.moveFrom? q) = [] := by
    simp [Write.moveFrom?]
  simp only [declared, List.filterMap_append, hstates, hinitial, hfinals, List.nil_append,
    List.filterMap_map]
  rfl

/-- If all states named are declared, the writes make the declared machine. -/
theorem writes?_declared (hK : K.Lawful)
    (harrange : ∀ moves, arrange moves = moves.foldl (fun row move => K.enter move row) [])
    (hinitial : ∀ q ∈ initial, q < size) (hfinals : ∀ q ∈ finals, q < size)
    (harcs : ∀ arc ∈ arcs, arc.1 < size) :
    empty.writes? K (declared size initial finals arcs) =
      some (ofMachine K (.ofLists arrange size initial finals arcs)) := by
  refine writes?_of_nothing hK ?_ ?_ (fun q => ?_) (fun q => ?_) fun q => ?_
  -- Marks and moves are written behind the states, so those that they name are there.
  · simp only [declared, Write.fits_append, Write.states_append, Write.states_replicate,
      states_map_initial, states_map_accepting]
    simp only [Nat.zero_add, Nat.add_zero]
    refine ⟨⟨⟨Write.fits_of_forall_lt fun w hw => ?_, Write.fits_of_forall_lt fun w hw r hr => ?_⟩,
      Write.fits_of_forall_lt fun w hw r hr => ?_⟩, Write.fits_of_forall_lt fun w hw r hr => ?_⟩
    · rw [List.eq_of_mem_replicate hw]
      exact nofun
    · obtain ⟨q, hq, rfl⟩ := List.mem_map.mp hw
      exact Option.some.inj hr ▸ hinitial q hq
    · obtain ⟨q, hq, rfl⟩ := List.mem_map.mp hw
      exact Option.some.inj hr ▸ hfinals q hq
    · obtain ⟨arc, harc, rfl⟩ := List.mem_map.mp hw
      exact Option.some.inj hr ▸ harcs arc harc
  · simp [declared, states_map_initial, states_map_accepting, states_map_move]
  -- The moves of a state are entered in the order declared; a state beyond the last has none.
  · rw [Machine.moves_ofLists, filterMap_moveFrom?_declared]
    split
    · exact harrange _
    · have hnone : arcs.filterMap (fun (p, move) => if p = q then some move else none) = [] :=
        List.filterMap_eq_nil_iff.mpr fun arc harc => if_neg fun he => by
          have := harcs arc harc
          omega
      rw [hnone]
      rfl
  -- A mark is set where one is declared.
  · have hlt := hinitial q
    simpa [declared, List.mem_replicate] using hlt
  · have hlt := hfinals q
    simpa [declared, List.mem_replicate] using hlt

/-- No write of a declaration fails, and it ends as it does without them. -/
theorem declare?_eq (hK : K.Lawful)
    (harrange : ∀ moves, arrange moves = moves.foldl (fun row move => K.enter move row) []) :
    declare? K checkLabel size initial finals arcs =
      some ((Machine.declare checkLabel arrange size initial finals arcs).map (ofMachine K)) := by
  have hstates : Write.Fits (L := L) 0 (List.replicate size .state) :=
    Write.fits_of_forall_lt fun w hw => List.eq_of_mem_replicate hw ▸ nofun
  obtain ⟨s₁, hs₁, _⟩ := exists_writes? hK inStep_empty hstates
  have hstep₁ := inStep_empty.writes? hK hs₁
  have hsize₁ : s₁.size = size := by
    rw [size_of_writes? hs₁, Write.states_replicate]
    exact Nat.zero_add _
  rw [declare?, Machine.declare, hs₁, Option.bind_eq_bind, Option.bind_some]
  refine EndsLike.eq_map ((endsLike_enterAll? hK hstep₁ (fun _ => rfl) fun q u h r hr => ?_).andThen
    fun s₂ _ ⟨hs₂, hinitial⟩ => ?_)
  · exact Option.some.inj hr ▸ hsize₁ ▸ lt_of_checkState h
  replace hinitial : ∀ q ∈ initial, q < size := fun q hq => lt_of_checkState (hinitial q hq)
  -- after each list the containers hold what has been declared so far
  obtain rfl : s₂ = ofMachine K (.ofLists arrange size initial [] []) := by
    have hwritten : empty.writes? K (declared size initial [] []) =
        some (ofMachine K (.ofLists arrange size initial [] [])) :=
      writes?_declared hK harrange hinitial nofun nofun
    rw [declared, List.map_nil, List.map_nil, List.append_nil, List.append_nil, writes?_append hs₁,
      hs₂] at hwritten
    exact Option.some.inj hwritten
  have hempty : (ones (ofMachine K (.ofLists arrange size initial [] [])).initial).isEmpty =
      initial.isEmpty := by
    rw [ones_initial_ofMachine, Bool.eq_iff_iff, List.isEmpty_iff, List.isEmpty_iff,
      List.eq_nil_iff_forall_not_mem, List.eq_nil_iff_forall_not_mem]
    refine forall_congr' fun q => not_congr ?_
    rw [Machine.mem_initialStates, Machine.isInitial_ofLists]
    simpa using hinitial q
  by_cases hnone : initial.isEmpty = true
  · rw [hempty, if_pos hnone, if_pos hnone]
    exact .error _
  rw [hempty, if_neg hnone, if_neg hnone]
  refine (endsLike_enterAll? hK inStep_ofMachine (fun _ => rfl) fun q u h r hr => ?_).andThen
    fun s₃ _ ⟨hs₃, hfinals⟩ => ?_
  · rw [size_ofMachine, Machine.size_ofLists]
    exact Option.some.inj hr ▸ lt_of_checkState h
  replace hfinals : ∀ q ∈ finals, q < size := fun q hq => lt_of_checkState (hfinals q hq)
  obtain rfl : s₃ = ofMachine K (.ofLists arrange size initial finals []) := by
    have hwritten : empty.writes? K (declared size initial finals []) =
        some (ofMachine K (.ofLists arrange size initial finals [])) :=
      writes?_declared hK harrange hinitial hfinals nofun
    rw [declared, List.map_nil, List.append_nil, List.append_assoc, writes?_append hs₁,
      writes?_append hs₂, hs₃] at hwritten
    exact Option.some.inj hwritten
  have harc {arc : Nat × L × Nat} {u : Unit} (h : (do
      checkState size arc.1
      checkState size arc.2.2
      checkLabel arc.2.1) = Except.ok u) : arc.1 < size := by
    obtain ⟨_, h, _⟩ := bind_eq_ok_iff.mp h
    exact lt_of_checkState h
  refine (endsLike_enterAll? hK inStep_ofMachine (fun _ => rfl) fun arc u h r hr => ?_).bind_pure
    fun s₄ _ ⟨hs₄, harcs⟩ => ?_
  · rw [size_ofMachine, Machine.size_ofLists]
    exact Option.some.inj hr ▸ harc h
  have hwritten := writes?_declared hK harrange hinitial hfinals fun arc h => harc (harcs arc h)
  rw [declared, List.append_assoc, List.append_assoc, writes?_append hs₁, writes?_append hs₂,
    writes?_append hs₃, hs₄] at hwritten
  exact Option.some.inj hwritten

end declare

/-! ### Literals -/

section literals

variable {L : Type} [Ord L] (symbol? : L → Option Char)

/-- The writes of a chain of states: each symbol adds the next state and the move to it. -/
def chainLinks (n : Nat) (labels : List L) : List (Write L) :=
  (labels.zipIdx n).flatMap fun (l, i) => [.state, .move i l (i + 1)]

/-- A chain of states with one move each, the first one initial and the last one accepting. -/
def chain? (labels : List L) : Option (Storage L) :=
  empty.writes? (.ordered symbol?)
    ([.state, .initial 0] ++ chainLinks 0 labels ++ [.accepting labels.length])

/-- Accepts every single symbol of a list. -/
def symbols? (cs : List Char) : Option (Storage (Option Char)) :=
  empty.writes? (.ordered id) ([.state, .state, .initial 0, .accepting 1] ++
    cs.map fun c => .move 0 (some c) 1)

/-- Accepts the empty word alone. -/
def emptyWord? : Option (Storage (Option Char)) :=
  empty.writes? (.ordered id) [.state, .state, .initial 0, .accepting 1, .move 0 none 1]

/-- Maps one word to another. -/
def wordPair? (input output : Word) : Option (Storage (Option Char × Word)) :=
  chain? (·.1) <|
    match input with
    | [] => [(none, output)]
    | w => w.zipIdx.map fun (c, i) => (some c, if i + 1 = w.length then output else [])

variable {symbol?} {labels : List L} {n : Nat}

omit [Ord L] in
theorem fits_chainLinks : Write.Fits (n + 1) (chainLinks n labels) ∧
    Write.states (chainLinks n labels) = labels.length := by
  induction labels generalizing n with
  | nil => exact ⟨trivial, rfl⟩
  | cons l labels ih =>
    obtain ⟨hfits, hstates⟩ := ih (n := n + 1)
    rw [chainLinks, List.zipIdx_cons, List.flatMap_cons, ← chainLinks]
    refine ⟨Write.fits_append.mpr ⟨⟨nofun, fun q hq => ?_, trivial⟩, hfits⟩, ?_⟩
    · have : n = q := Option.some.inj hq
      simp only [Write.isState, if_true]
      omega
    · rw [Write.states_append, hstates, List.length_cons]
      exact Nat.add_comm _ _

omit [Ord L] in
theorem move_mem_chainLinks {q t : Nat} {l : L} :
    .move q l t ∈ chainLinks 0 labels ↔ labels[q]? = some l ∧ t = q + 1 := by
  simp only [chainLinks, List.mem_flatMap, List.mem_cons, reduceCtorEq, List.not_mem_nil, or_false,
    false_or, Write.move.injEq, Prod.exists, List.mk_mem_zipIdx_iff_getElem?]
  constructor
  · rintro ⟨l', i, hi, rfl, rfl, rfl⟩
    exact ⟨hi, rfl⟩
  · rintro ⟨hq, rfl⟩
    exact ⟨l, q, hq, rfl, rfl, rfl⟩

variable [Std.TransOrd L] [Std.LawfulEqOrd L]

/-- A chain of nodes that are as the writes make them. -/
theorem chain?_eq {m : Machine L} (last : Node L)
    (hlast : last.moves = [] ∧ last.accepting = true ∧ last.initial = labels.isEmpty)
    (hnodes : m.nodes = ((labels.zipIdx.map fun (l, i) =>
      ({ initial := i == 0, moves := [(l, i + 1)] } : Node L)) ++ [last]).toArray) :
    chain? symbol? labels = some (ofMachine (.ordered symbol?) m) := by
  obtain ⟨hmoves, haccepting, hinitial⟩ := hlast
  have hnode (q : Nat) : m.nodes[q]? = if q < labels.length then
      (labels[q]?).map fun l => { initial := q == 0, moves := [(l, q + 1)] }
      else if q = labels.length then some last else none := by
    rw [hnodes, List.getElem?_toArray, List.getElem?_append, List.length_map, List.length_zipIdx]
    split
    · simp [List.getElem?_zipIdx, Function.comp_def]
    · rw [List.getElem?_singleton]
      split <;> split <;> first | rfl | omega
  have hrow (q : Nat) : m.moves q = (labels[q]?).elim [] fun l => [(l, q + 1)] := by
    rw [Machine.moves, hnode]
    split
    · cases labels[q]? <;> rfl
    · rw [List.getElem?_eq_none (Nat.le_of_not_lt ‹_›)]
      split
      · exact hmoves
      · rfl
  have hlinks : Write.Fits 1 (chainLinks 0 labels) ∧
      Write.states (chainLinks 0 labels) = labels.length := fits_chainLinks
  obtain ⟨hfits, hstates⟩ := hlinks
  refine writes?_ordered_of_nothing (fun q => ?_) ?_ ?_ (fun q l t => ?_) (fun q => ?_) fun q => ?_
  · rw [hrow]
    cases labels[q]? with
    | none => exact .nil
    | some l => exact List.pairwise_singleton _ _
  · rw [Write.fits_append, Write.fits_append]
    refine ⟨⟨⟨fun q hq => absurd hq (Option.not_mem_none q), fun q hq => ?_, trivial⟩, hfits⟩,
      fun q hq => ?_, trivial⟩
    · obtain rfl : 0 = q := Option.some.inj hq
      exact Nat.one_pos
    · obtain rfl : labels.length = q := Option.some.inj hq
      rw [Write.states_append, hstates]
      simp
  · simp only [Write.states_append, hstates, Machine.size, hnodes, List.size_toArray,
      List.length_append, List.length_map, List.length_zipIdx]
    simp
    omega
  · rw [hrow]
    simp only [List.mem_append, move_mem_chainLinks, List.mem_cons, reduceCtorEq, List.not_mem_nil,
      or_false, false_or]
    cases labels[q]? with
    | none => simp
    | some l' => simp [eq_comm]
  · have hmem : Write.initial (L := L) q ∈ [.state, .initial 0] ++ chainLinks 0 labels ++
        [.accepting labels.length] ↔ q = 0 := by
      simp [chainLinks]
    rw [hmem, Machine.isInitial, hnode]
    split
    · rw [List.getElem?_eq_getElem ‹_›]
      exact beq_iff_eq
    · split
      · -- a chain without symbols begins where it ends
        rename_i hq
        rw [hq]
        simp [hinitial, List.length_eq_zero_iff]
      · exact iff_of_false Bool.false_ne_true (by omega)
  · have hmem : Write.accepting (L := L) q ∈ [.state, .initial 0] ++ chainLinks 0 labels ++
        [.accepting labels.length] ↔ q = labels.length := by
      simp [chainLinks]
    rw [hmem, Machine.isAccepting, hnode]
    split
    · rw [List.getElem?_eq_getElem ‹_›]
      exact iff_of_false Bool.false_ne_true (by omega)
    · split
      · exact iff_of_true haccepting ‹_›
      · exact iff_of_false Bool.false_ne_true ‹_›

end literals

/-! ### The literals -/

theorem ofWord?_eq {w : Word} :
    chain? id (w.map some) = some (ofMachine (.ordered id) (Acceptor.ofWord w)) := by
  refine chain?_eq { initial := w.isEmpty, accepting := true } ⟨rfl, rfl, by simp⟩ ?_
  simp [Acceptor.ofWord, List.zipIdx_map, Function.comp_def]

theorem wordPair?_eq {input output : Word} : wordPair? input output =
    some (ofMachine (.ordered (·.1)) (Transducer.ofWordPair input output)) := by
  cases input with
  | nil => exact chain?_eq { accepting := true } ⟨rfl, rfl, rfl⟩ rfl
  | cons c w =>
    refine chain?_eq { accepting := true } ⟨rfl, rfl, rfl⟩ ?_
    refine congrArg List.toArray (congrArg (· ++ _) (List.ext_getElem? fun i => ?_))
    simp only [List.getElem?_map, List.getElem?_zipIdx, Option.map_map, Nat.zero_add]
    rfl

theorem symbols?_eq {cs : List Char} :
    symbols? cs = some (ofMachine (.ordered id) (Acceptor.ofSymbols cs)) := by
  refine writes?_ordered_of_nothing (Acceptor.ascending_ofSymbols cs) ?_ ?_ (fun q l t => ?_)
    (fun q => ?_) fun q => ?_
  · refine Write.fits_append.mpr ⟨by simp [Write.Fits, Write.source?, Write.isState],
      Write.fits_of_forall_lt fun w hw q hq => ?_⟩
    obtain ⟨c, _, rfl⟩ := List.mem_map.mp hw
    obtain rfl : 0 = q := Option.some.inj hq
    exact Nat.two_pos
  · have hmoves : Write.states (cs.map fun c => .move 0 (some c) 1) = 0 :=
      Write.states_eq_zero fun w hw => by
        obtain ⟨c, _, rfl⟩ := List.mem_map.mp hw
        rfl
    rw [Write.states_append, hmoves]
    rfl
  · have hmoves : (Acceptor.ofSymbols cs).moves q =
        if q = 0 then (ascending cs).map fun c => (some c, 1) else [] := by
      rcases q with _ | _ | q <;> rfl
    rw [hmoves]
    split
    · rename_i hq
      simp [hq, mem_ascending]
    · rename_i hq
      simp [Ne.symm hq]
  · rcases q with _ | _ | q <;> simp [Machine.isInitial, Acceptor.ofSymbols]
  · rcases q with _ | _ | q <;> simp [Machine.isAccepting, Acceptor.ofSymbols]

theorem emptyWord?_eq : emptyWord? = some (ofMachine (.ordered id) Acceptor.ofEmptyWord) := by
  refine writes?_ordered_of_nothing Acceptor.ascending_ofEmptyWord ?_ rfl (fun q l t => ?_)
    (fun q => ?_) fun q => ?_
  · simp [Write.Fits, Write.source?, Write.isState]
  · rcases q with _ | _ | q <;> simp [Machine.moves, Acceptor.ofEmptyWord]
  · rcases q with _ | _ | q <;> simp [Machine.isInitial, Acceptor.ofEmptyWord]
  · rcases q with _ | _ | q <;> simp [Machine.isAccepting, Acceptor.ofEmptyWord]

end Storage

end Transduction
