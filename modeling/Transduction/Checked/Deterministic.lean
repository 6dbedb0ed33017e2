/-
Deterministic automata, written move by move.

A row holds one target a symbol, so a move that is entered takes the place of an earlier one.  The
containers of an automaton are those of a machine in which no state is marked as initial, beside the
number of its start:

* `Keeping.tabled` — rows with one target a symbol;
* `Dfa.ofStorage`, with `Dfa.ofStorage_eq` — the automaton in its containers, whose alphabet holds
  the symbols of the rows if the containers are in step;
* `Dfa.declare?`, with `Dfa.declare?_eq` — a declaration; the row of a transition is looked up for a
  second target;
* `Dfa.ofExploration?`, with `Dfa.ofExploration?_eq` — an automaton of the items found;
* `Storage.determinize?`, with `Storage.determinize?_eq` — the subset construction.
-/
import Transduction.Checked.Declarations
import Transduction.Checked.Simulation
import Transduction.Proofs.SubsetStates

namespace Transduction

/-- Rows hold one target a symbol, by ascending symbol, and every symbol is one of the alphabet. -/
def Keeping.tabled : Keeping Char where
  enter move row := Row.set move.1 move.2 row
  symbol? := some

theorem Row.symbol_mem_set_iff {c d : Char} {t : Nat} {row : List (Char × Nat)} :
    (∃ entry ∈ set c t row, entry.1 = d) ↔ c = d ∨ ∃ entry ∈ row, entry.1 = d := by
  induction row with
  | nil => simp [set]
  | cons entry row ih =>
    obtain ⟨e, u⟩ := entry
    rw [set]
    split
    · simp
    · split
      · rename_i he
        simp [he]
      · simp only [List.exists_mem_cons_iff, ih, or_left_comm]

theorem Keeping.lawful_tabled : tabled.Lawful := by
  intro c move row
  simpa [tabled] using Row.symbol_mem_set_iff

namespace Dfa

/-- The automaton in the containers of a machine in which no state is initial. -/
def ofStorage (start : Nat) (s : Storage Char) : Dfa :=
  { ofRows s.rows start s.accepting with alphabet := s.symbols }

/-- The alphabet of containers in step is that of the rows. -/
theorem ofStorage_eq {start : Nat} {s : Storage Char} (hs : s.InStep .tabled) :
    ofStorage start s = ofRows s.rows start s.accepting := by
  have halphabet : s.symbols = (ofRows s.rows start s.accepting).alphabet := by
    refine eq_of_pairwise_lt hs.symbols_ascending (ascending_pairwise _) fun c => ?_
    rw [hs.mem_symbols, mem_alphabet_ofRows]
    refine exists_congr fun q => ?_
    constructor
    · rintro ⟨⟨d, t⟩, hentry, hd⟩
      cases hd
      exact ⟨t, hentry⟩
    · exact fun ⟨t, hentry⟩ => ⟨(c, t), hentry, rfl⟩
  rw [ofStorage, halphabet]

/-! ### Declarations -/

/-- Enters one declared transition, unless it names an undeclared state or gives a second target to
a state and symbol. -/
def enter? (size : Nat) (s : Storage Char) (arc : Nat × Char × Nat) :
    Option (Except ConstructionError (Storage Char)) :=
  let (p, c, t) := arc
  match (do checkState size p; checkState size t) with
  | .error e => some (.error e)
  | .ok _ => do
    let row ← s.rows[p]?
    match row.lookup c with
    | some first =>
      if first ≠ t then some (.error (.nondeterministic p c first t))
      else (s.write? .tabled (.move p c t)).map .ok
    | none => (s.write? .tabled (.move p c t)).map .ok

/-- Enters declared transitions one after the other, up to the first error. -/
def enterAll? (size : Nat) (s : Storage Char) :
    List (Nat × Char × Nat) → Option (Except ConstructionError (Storage Char))
  | [] => some (.ok s)
  | arc :: arcs => andThen? (enter? size s arc) fun s => enterAll? size s arcs

/-- An automaton from its declaration, unless something is wrong with it. -/
def declare? (size start : Nat) (finals : List Nat) (arcs : List (Nat × Char × Nat)) :
    Option (Except ConstructionError Dfa) := do
  let s ← Storage.empty.writes? .tabled (List.replicate size .state)
  andThen? (some (checkState size start)) fun _ =>
    andThen? (Storage.enterAll? .tabled (checkState size) .accepting s finals) fun s =>
      andThen? (enterAll? size s arcs) fun s => some (.ok (ofStorage start s))

/-- The containers hold these rows and marks, and they are in step. -/
structure Holds (size : Nat) (accepting : Array Bool) (s : Storage Char)
    (rows : Array (List (Char × Nat))) : Prop where
  inStep : s.InStep .tabled
  size_eq : s.size = size
  rows_eq : s.rows = rows
  accepting_eq : s.accepting = accepting

variable {size : Nat} {accepting : Array Bool} {s : Storage Char}
  {rows : Array (List (Char × Nat))} {arc : Nat × Char × Nat} {arcs : List (Nat × Char × Nat)}

theorem endsLike_enter? (hs : Holds size accepting s rows) :
    EndsLike (Holds size accepting) (enter? size s arc) (enter size rows arc) := by
  obtain ⟨p, c, t⟩ := arc
  obtain ⟨hstep, hsize, rfl, haccepting⟩ := hs
  rw [enter?, enter]
  -- Both states are checked before anything is written, so the write finds its row.
  cases hp : checkState size p with
  | error e => exact .error e
  | ok =>
    cases ht : checkState size t with
    | error e => exact .error e
    | ok =>
      have hlt : p < s.rows.size := (lt_of_checkState hp).trans_eq hsize.symm
      have hwrite : s.write? .tabled (.move p c t) = some _ := if_pos hlt
      have hholds : EndsLike (Holds size accepting)
          ((s.write? .tabled (.move p c t)).map .ok)
          (.ok (s.rows.modify p (Row.set c t)) : Except ConstructionError _) := by
        rw [hwrite]
        exact .ok ⟨hstep.write? Keeping.lawful_tabled hwrite, Array.size_modify.trans hsize, rfl,
          haccepting⟩
      have hrow : s.rows[p]? = some s.rows[p] := Array.getElem?_eq_getElem hlt
      show EndsLike _ ((s.rows[p]?).bind _) _
      rw [hrow, Option.bind_some, Option.getD_some]
      -- The row is asked first: a second target of one symbol is refused.
      cases (s.rows[p]).lookup c with
      | none => exact hholds
      | some first =>
        by_cases hne : first ≠ t
        · simp only [if_pos hne]
          exact .error _
        · simp only [if_neg hne]
          exact hholds

theorem endsLike_enterAll? (hs : Holds size accepting s rows) :
    EndsLike (Holds size accepting) (enterAll? size s arcs) (arcs.foldlM (enter size) rows) := by
  induction arcs generalizing s rows with
  | nil => exact .ok hs
  | cons arc arcs ih =>
    rw [List.foldlM_cons]
    exact (endsLike_enter? hs).andThen fun _ _ hnext => ih hnext

/-- The containers in front of the transitions. -/
theorem holds_declared {finals : List Nat} (hfinals : ∀ q ∈ finals, q < size) :
    ∃ s, Storage.empty.writes? .tabled (List.replicate size .state ++ finals.map .accepting) =
        some s ∧
      Holds size (Array.ofFn fun q : Fin size => finals.contains q.val) s
        (Array.replicate size []) := by
  have hwritten := Storage.writes?_declared Keeping.lawful_tabled (fun _ => rfl)
    (List.forall_mem_nil (· < size)) hfinals
    (List.forall_mem_nil fun arc : Nat × Char × Nat => arc.1 < size)
  rw [Storage.declared, List.map_nil, List.map_nil, List.append_nil, List.append_nil] at hwritten
  refine ⟨_, hwritten, Storage.inStep_ofMachine, ?_, ?_, ?_⟩
  · rw [Storage.size_ofMachine, Machine.size_ofLists]
  · refine Array.ext (by simp [Storage.ofMachine, Machine.ofLists]) fun q _ _ => ?_
    simp [Storage.ofMachine, Machine.ofLists]
  · refine Array.ext (by simp [Storage.ofMachine, Machine.ofLists]) fun q _ _ => ?_
    simp [Storage.ofMachine, Machine.ofLists]

/-- A declaration fails nowhere, and it ends as it does without containers. -/
theorem declare?_eq {start : Nat} {finals : List Nat} :
    declare? size start finals arcs = some (declare size start finals arcs) := by
  have hstates : Write.Fits (L := Char) 0 (List.replicate size .state) :=
    Write.fits_of_forall_lt fun w hw => List.eq_of_mem_replicate hw ▸ nofun
  obtain ⟨s₁, hs₁, hsize₁, _⟩ :=
    Storage.exists_writes? Keeping.lawful_tabled Storage.inStep_empty hstates
  have hstep₁ := Storage.inStep_empty.writes? Keeping.lawful_tabled hs₁
  replace hsize₁ : s₁.size = size :=
    hsize₁.trans ((congrArg _ Write.states_replicate).trans (Nat.zero_add size))
  rw [declare?, declare, hs₁, Option.bind_eq_bind, Option.bind_some]
  refine EndsLike.eq_some ((EndsLike.refl _).andThen fun _ _ _ => ?_)
  refine (Storage.endsLike_enterAll? Keeping.lawful_tabled hstep₁ (fun _ => rfl)
    fun q u h r hr => ?_).andThen fun s₂ _ ⟨hs₂, hfinals⟩ => ?_
  · exact Option.some.inj hr ▸ hsize₁ ▸ lt_of_checkState h
  obtain ⟨s, hs, hholds⟩ := holds_declared fun q hq => lt_of_checkState (hfinals q hq)
  rw [Storage.writes?_append hs₁, hs₂] at hs
  cases hs
  refine (endsLike_enterAll? hholds).andThen fun s₃ rows hs₃ => ?_
  refine .ok ?_
  rw [ofStorage_eq hs₃.inStep, hs₃.rows_eq, hs₃.accepting_eq]

/-! ### Automata of the items found -/

section ofExploration

variable {κ ι : Type} [Ord ι]

/-- The automaton of the items found; the first of them is the start state. -/
def ofExploration? (key : κ → ι) (accepting? : κ → Option Bool)
    (found : List (κ × List (Char × κ))) : Option Dfa := do
  let number := numbering (found.map fun entry => key entry.1)
  let items ← found.mapM (itemWrites? key number (fun _ => false) accepting?)
  let s ← Storage.empty.writes? .tabled (Write.perState items)
  return ofStorage 0 s

variable {key : κ → ι} {accepting? : κ → Option Bool} {accepting : κ → Bool}
  {found : List (κ × List (Char × κ))}

theorem ofExploration?_eq
    (hnumbered : Numbered key (numbering (found.map fun entry => key entry.1)) found)
    (haccepting : ∀ entry ∈ found, accepting? entry.1 = some (accepting entry.1))
    (hrows : ∀ entry ∈ found, entry.2.Pairwise fun a b => a.1 < b.1) :
    ofExploration? key accepting? found = some (ofExploration key accepting found) := by
  rw [ofExploration?, ofExploration]
  generalize numbering (found.map fun entry => key entry.1) = number at *
  have hitems := hnumbered.mapM_itemWrites? (fun _ => false) haccepting
  -- What is written item by item is what would be written for the finished nodes.
  have hnodes : (found.mapIdx fun i entry =>
      stateWrites i false (accepting entry.1) (numberedMoves key number entry)) =
      (found.map fun entry => ({
        accepting := accepting entry.1
        moves := numberedMoves key number entry } : Node Char)).mapIdx
        fun i n => stateWrites i n.initial n.accepting n.moves := by
    refine List.ext_getElem? fun i => ?_
    simp only [List.getElem?_map, List.getElem?_mapIdx]
    cases found[i]? <;> rfl
  -- Rows come in ascending order, so entering their moves one by one changes nothing.
  have hrow : ∀ entry ∈ found, (numberedMoves key number entry).foldl
      (fun row move => Keeping.tabled.enter move row) [] = numberedMoves key number entry := by
    refine fun entry hentry => Row.foldl_set_of_perm ?_ (List.Perm.refl _)
    refine (hrows entry hentry).filterMap _ fun a b hab a' ha b' hb => ?_
    obtain ⟨_, _, rfl⟩ := Option.map_eq_some_iff.mp ha
    obtain ⟨_, _, rfl⟩ := Option.map_eq_some_iff.mp hb
    exact hab
  simp only [hitems, Option.bind_eq_bind, Option.bind_some]
  rw [hnodes, ← nodeWrites, Storage.writes?_nodeWrites Keeping.lawful_tabled, Option.bind_some,
    List.map_map]
  refine congrArg some ((ofStorage_eq Storage.inStep_ofMachine).trans ?_)
  simp only [Storage.ofMachine, List.map_toArray, List.map_map]
  refine congrArg (fun rows => ofRows rows.toArray 0 _) (List.map_congr_left fun entry hentry => ?_)
  exact hrow entry hentry

end ofExploration

end Dfa

namespace Storage

/-! ### The subset construction -/

/-- The set that a symbol leads to from a set of states, if it has a member. -/
def subsetTarget? (s : Storage (Option Char)) (closures : Array StateSet) (t : StateSet)
    (c : Char) : Option (Option StateSet) := do
  let next ← s.advance? Acceptor.reads t c
  if next.isEmpty then return none
  else (closeUnder? closures next).map some

/-- The successors of a set of states by ascending symbol. -/
def subsetMoves? (s : Storage (Option Char)) (closures : Array StateSet) (t : StateSet) :
    Option (List (Char × StateSet)) :=
  filterMap? (fun c => (s.subsetTarget? closures t c).map fun next? =>
    next?.map fun next => (c, next)) s.symbols

/-- The deterministic automaton of the reachable sets of states. -/
def determinize? (s : Storage (Option Char)) : Option Dfa := do
  let closures ← s.silentClosures? Option.isNone
  let start ← s.startSet? closures
  let found ← explore? (·.bits) (s.subsetMoves? closures) (fun moves => moves.map (·.2))
    (2 ^ s.size) [start]
  Dfa.ofExploration? (·.bits) (fun t => some (t.toList.any (marked s.accepting))) found

variable {a : Acceptor} {t : StateSet} {c : Char} (ha : a.Closed)

include ha

theorem subsetTarget?_ofMachine (ht : ∀ q ∈ t, q < a.size) :
    (ofMachine (.ordered id) a).subsetTarget? (a.silentClosures Option.isNone) t c =
      some (a.subsetTarget t c) ∧
    ∀ next, a.subsetTarget t c = some next → ∀ q ∈ next, q < a.size := by
  have hadvance : ∀ q ∈ a.advance Acceptor.reads t c, q < a.size := fun q =>
    Machine.lt_size_of_mem_advance ha
  obtain ⟨hclose, hlt⟩ := closeUnder?_silentClosures ha Option.isNone hadvance
  rw [subsetTarget?, advance?_ofMachine ha ht, Acceptor.subsetTarget, Option.bind_eq_bind,
    Option.bind_some]
  split
  · exact ⟨rfl, fun _ hnext => by cases hnext⟩
  · rw [hclose]
    exact ⟨rfl, fun next hnext => Option.some.inj hnext ▸ hlt⟩

theorem subsetMoves?_ofMachine (ht : ∀ q ∈ t, q < a.size) :
    (ofMachine (.ordered id) a).subsetMoves? (a.silentClosures Option.isNone) t =
      some (a.subsetMoves (a.silentClosures Option.isNone) a.alphabet t) ∧
    ∀ c next, (c, next) ∈ a.subsetMoves (a.silentClosures Option.isNone) a.alphabet t →
      ∀ q ∈ next, q < a.size := by
  rw [Acceptor.subsetMoves_eq]
  refine ⟨filterMap?_eq fun c _ => ?_, fun c next hnext => ?_⟩
  · rw [(subsetTarget?_ofMachine ha ht).1, Option.map_some]
  · exact (subsetTarget?_ofMachine ha ht).2 next ((mem_filterMap_symbols fun _ => rfl).mp hnext).2

/-- The subset construction fails nowhere. -/
theorem determinize?_eq : (ofMachine (.ordered id) a).determinize? = some a.determinize := by
  obtain ⟨hstart, hlt⟩ := startSet?_ofMachine (K := .ordered id) ha Option.isNone
  have hmoves (t : StateSet) (ht : ∀ q ∈ t, q < a.size) := subsetMoves?_ofMachine ha ht
  have hroots : ∀ t ∈ [a.startSet Option.isNone], ∀ q ∈ t, q < a.size :=
    List.forall_mem_singleton.mpr hlt
  -- The sets met hold states only, so no row and no closure is missed.
  have hfound : explore? (·.bits)
      ((ofMachine (.ordered id) a).subsetMoves? (a.silentClosures Option.isNone))
      (fun moves => moves.map (·.2)) (2 ^ a.size) [a.startSet Option.isNone] = some a.subsets := by
    refine explore?_eq (P := fun t => ∀ q ∈ t, q < a.size) hroots fun t ht =>
      ⟨(hmoves t ht).1, fun next hnext => ?_⟩
    obtain ⟨⟨c, _⟩, hmove, rfl⟩ := List.mem_map.mp hnext
    exact (hmoves t ht).2 c _ hmove
  simp only [determinize?, silentClosures?_ofMachine ha, hstart, size_ofMachine, hfound,
    Option.bind_eq_bind, Option.bind_some]
  refine Dfa.ofExploration?_eq ?_ (fun entry _ => ?_) fun entry hentry => ?_
  · have hbits (t : StateSet) (ht : ∀ q ∈ t, q < a.size) : t.bits ∈ List.range (2 ^ a.size) :=
      List.mem_range.mpr (StateSet.bits_lt.mpr ht)
    exact numbered_explore hroots (fun t ht => (hmoves t ht).2) hbits
      (Nat.le_of_eq List.length_range)
  · refine congrArg some (congrArg (List.any _) (funext fun q => ?_))
    exact marked_accepting_ofMachine
  · rw [Acceptor.subsets] at hentry
    rw [snd_of_mem_explore hentry, Acceptor.subsetMoves_eq]
    exact pairwise_filterMap_symbols (fun _ => rfl) a.alphabet_pairwise

end Storage

end Transduction
