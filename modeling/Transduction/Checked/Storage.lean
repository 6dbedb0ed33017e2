/-
Machines in separate containers.

A program that builds a machine keeps its parts in containers of their own: the rows of moves, the
marks of either kind with one bit a state, and the symbols of the alphabet.  It fills them by single
writes.  A write may name a state that is not there, and nothing but the program keeps the
containers in step:

* `Storage`, `Write` and `Storage.write?` — the containers, and one write, which gives nothing where
  it names a state that is not there;
* `Storage.InStep` — there are as many marks of either kind as rows, and the alphabet holds the
  symbols of the moves and no others.  One write keeps that (`InStep.write?`), and so does every
  program of writes (`InStep.writes?`);
* `Storage.ofMachine` — the containers of a machine;
* `Write.Fits`, `Storage.exists_writes?` — a program in which every write names a state that is
  there by then succeeds, and what the containers hold afterwards;
* `Storage.writes?_eq_ofMachine`, `Storage.writes?_of_nothing` — which machine it makes of a
  machine, and of nothing.
-/
import Transduction.Checked.Loops
import Transduction.Machine.Basic

namespace Transduction

/-- A machine in separate containers. -/
structure Storage (L : Type) where
  rows : Array (List (L × Nat))
  initial : Array Bool
  accepting : Array Bool
  /-- The symbols of the alphabet, in ascending order. -/
  symbols : List Char
deriving DecidableEq, Repr

/-- How a row keeps its moves, and which symbol of a label is one of the alphabet. -/
structure Keeping (L : Type) where
  enter : L × Nat → List (L × Nat) → List (L × Nat)
  symbol? : L → Option Char

namespace Keeping

variable {L : Type}

/-- Rows are sets of moves, listed in ascending order. -/
def ordered [Ord L] (symbol? : L → Option Char) : Keeping L where
  enter move row := ascending (move :: row)
  symbol? := symbol?

/-- Rows list their moves in the order in which they come, and there is no alphabet. -/
def listed : Keeping L where
  enter move row := row ++ [move]
  symbol? _ := none

/-- A row with one more move has its symbol besides those that it had. -/
def Lawful (K : Keeping L) : Prop := ∀ c move row,
  (∃ entry ∈ K.enter move row, K.symbol? entry.1 = some c) ↔
    K.symbol? move.1 = some c ∨ ∃ entry ∈ row, K.symbol? entry.1 = some c

theorem lawful_ordered [Ord L] [Std.TransOrd L] [Std.LawfulEqOrd L] {symbol? : L → Option Char} :
    (ordered symbol?).Lawful := by
  intro c move row
  simp [ordered, mem_ascending]

theorem lawful_listed : (listed (L := L)).Lawful := by
  intro c move row
  simp [listed]

end Keeping

/-- One write into the containers. -/
inductive Write (L : Type) where
  /-- Adds a state without marks and moves. -/
  | state
  | initial (q : Nat)
  | accepting (q : Nat)
  | move (p : Nat) (l : L) (t : Nat)

namespace Write

variable {L : Type}

/-- The state that has to be there. -/
def source? : Write L → Option Nat
  | state => none
  | initial q | accepting q | move q _ _ => some q

def isState : Write L → Bool
  | state => true
  | _ => false

/-- The number of states that writes add. -/
def states (ws : List (Write L)) : Nat := ws.countP isState

/-- The move that a write gives to a state. -/
def moveFrom? (q : Nat) : Write L → Option (L × Nat)
  | move p l t => if p = q then some (l, t) else none
  | _ => none

/-- Where there are `size` states to begin with, each write names one that is there by then. -/
def Fits : Nat → List (Write L) → Prop
  | _, [] => True
  | size, w :: ws => (∀ q ∈ w.source?, q < size) ∧ Fits (if w.isState then size + 1 else size) ws

variable {ws ws' : List (Write L)} {size n : Nat}

@[simp] theorem states_append : states (ws ++ ws') = states ws + states ws' := List.countP_append

@[simp] theorem states_replicate : states (List.replicate n (state : Write L)) = n := by
  rw [states, List.countP_replicate]
  rfl

@[simp] theorem states_nil : states ([] : List (Write L)) = 0 := rfl

theorem states_cons {w : Write L} :
    states (w :: ws) = states ws + (if w.isState then 1 else 0) := List.countP_cons

@[simp] theorem states_state_cons : states (state :: ws) = states ws + 1 := states_cons

@[simp] theorem states_initial_cons {q : Nat} : states (initial q :: ws) = states ws := states_cons

@[simp] theorem states_accepting_cons {q : Nat} : states (accepting q :: ws) = states ws :=
  states_cons

/-- Writes that name states add none. -/
theorem states_eq_zero (h : ∀ w ∈ ws, w.isState = false) : states ws = 0 :=
  List.countP_eq_zero.mpr fun w hw => by simp [h w hw]

theorem fits_state_cons : Fits size (state :: ws) ↔ Fits (size + 1) ws := by
  simp [Fits, source?, isState]

theorem fits_append : Fits size (ws ++ ws') ↔ Fits size ws ∧ Fits (size + states ws) ws' := by
  induction ws generalizing size with
  | nil => simp [Fits, states]
  | cons w ws ih =>
    rw [List.cons_append, Fits, Fits, ih, and_assoc, states_cons]
    have hsize : (if w.isState then size + 1 else size) + states ws =
        size + (states ws + if w.isState then 1 else 0) := by split <;> omega
    rw [hsize]

theorem fits_of_forall_lt (h : ∀ w ∈ ws, ∀ q ∈ w.source?, q < size) : Fits size ws := by
  induction ws generalizing size with
  | nil => trivial
  | cons w ws ih =>
    refine ⟨h w List.mem_cons_self, ih fun w' hw' q hq => ?_⟩
    have := h w' (List.mem_cons_of_mem w hw') q hq
    split <;> omega

theorem mem_filterMap_moveFrom? {q t : Nat} {l : L} :
    (l, t) ∈ ws.filterMap (moveFrom? q) ↔ move q l t ∈ ws := by
  rw [List.mem_filterMap]
  constructor
  · rintro ⟨w, hw, h⟩
    cases w with
    | move p l' t' =>
      rw [moveFrom?] at h
      split at h
      · rename_i hp
        cases h
        exact hp ▸ hw
      · cases h
    | _ => cases h
  · exact fun h => ⟨_, h, if_pos rfl⟩

end Write

namespace Storage

variable {L : Type}

/-- Containers that hold nothing. -/
def empty : Storage L := ⟨#[], #[], #[], []⟩

/-- The number of states. -/
def size (s : Storage L) : Nat := s.rows.size

/-- The moves of a state; none of a state that is not there. -/
def row (s : Storage L) (q : Nat) : List (L × Nat) := (s.rows[q]?).getD []

/-- Whether a position of a row of bits is there and set. -/
def marked (bits : Array Bool) (q : Nat) : Bool := (bits[q]?).getD false

/-- The positions of the bits that are set, in ascending order. -/
def ones (bits : Array Bool) : List Nat := (List.range bits.size).filter (marked bits)

/-- Makes one write, unless it names a state that is not there. -/
def write? (K : Keeping L) (s : Storage L) : Write L → Option (Storage L)
  | .state => some { s with
      rows := s.rows.push []
      initial := s.initial.push false
      accepting := s.accepting.push false }
  | .initial q =>
    if q < s.initial.size then some { s with initial := s.initial.setIfInBounds q true } else none
  | .accepting q =>
    if q < s.accepting.size then some { s with accepting := s.accepting.setIfInBounds q true }
    else none
  | .move p l t =>
    if p < s.rows.size then
      some { s with
        rows := s.rows.modify p (K.enter (l, t))
        symbols := (K.symbol? l).elim s.symbols fun c => ascending (c :: s.symbols) }
    else none

/-- Makes writes one after the other. -/
def writes? (K : Keeping L) (s : Storage L) (ws : List (Write L)) : Option (Storage L) :=
  ws.foldlM (write? K) s

/-- There are as many marks of either kind as rows, and the alphabet holds the symbols of the
moves and no others. -/
structure InStep (K : Keeping L) (s : Storage L) : Prop where
  initial_size : s.initial.size = s.size
  accepting_size : s.accepting.size = s.size
  mem_symbols : ∀ c, c ∈ s.symbols ↔ ∃ q, ∃ entry ∈ s.row q, K.symbol? entry.1 = some c
  symbols_ascending : s.symbols.Pairwise fun c d => compare c d = .lt

/-- The containers of a machine. -/
def ofMachine (K : Keeping L) (m : Machine L) : Storage L where
  rows := m.nodes.map (·.moves)
  initial := m.nodes.map (·.initial)
  accepting := m.nodes.map (·.accepting)
  symbols := ascending (m.nodes.toList.flatMap fun n => n.moves.filterMap fun (l, _) => K.symbol? l)

variable {K : Keeping L} {s s' : Storage L} {m m' : Machine L} {w : Write L} {ws : List (Write L)}
  {p q : Nat}

/-! ### The containers of a machine -/

section ofMachine

@[simp] theorem size_ofMachine : (ofMachine K m).size = m.size := Array.size_map

@[simp] theorem row_ofMachine : (ofMachine K m).row q = m.moves q := by
  rw [row, ofMachine, Array.getElem?_map, Machine.moves]
  cases m.nodes[q]? <;> rfl

@[simp] theorem marked_initial_ofMachine : marked (ofMachine K m).initial q = m.isInitial q := by
  rw [marked, ofMachine, Array.getElem?_map, Machine.isInitial]
  cases m.nodes[q]? <;> rfl

@[simp] theorem marked_accepting_ofMachine :
    marked (ofMachine K m).accepting q = m.isAccepting q := by
  rw [marked, ofMachine, Array.getElem?_map, Machine.isAccepting]
  cases m.nodes[q]? <;> rfl

@[simp] theorem ones_initial_ofMachine : ones (ofMachine K m).initial = m.initialStates := by
  rw [ones, Machine.initialStates]
  refine congrArg₂ _ (funext fun _ => marked_initial_ofMachine) ?_
  exact congrArg List.range Array.size_map

@[simp] theorem ones_accepting_ofMachine : ones (ofMachine K m).accepting = m.acceptingStates := by
  rw [ones, Machine.acceptingStates]
  refine congrArg₂ _ (funext fun _ => marked_accepting_ofMachine) ?_
  exact congrArg List.range Array.size_map

theorem rows_ofMachine (hq : q < m.size) : (ofMachine K m).rows[q]? = some (m.moves q) := by
  have hnode : m.nodes[q]? = some m.nodes[q] := Array.getElem?_eq_getElem hq
  rw [ofMachine, Array.getElem?_map, Machine.moves, hnode]
  rfl

theorem initial_ofMachine (hq : q < m.size) :
    (ofMachine K m).initial[q]? = some (m.isInitial q) := by
  have hnode : m.nodes[q]? = some m.nodes[q] := Array.getElem?_eq_getElem hq
  rw [ofMachine, Array.getElem?_map, Machine.isInitial, hnode]
  rfl

theorem accepting_ofMachine (hq : q < m.size) :
    (ofMachine K m).accepting[q]? = some (m.isAccepting q) := by
  have hnode : m.nodes[q]? = some m.nodes[q] := Array.getElem?_eq_getElem hq
  rw [ofMachine, Array.getElem?_map, Machine.isAccepting, hnode]
  rfl

theorem inStep_ofMachine : (ofMachine K m).InStep K where
  initial_size := by rw [size_ofMachine]; exact Array.size_map
  accepting_size := by rw [size_ofMachine]; exact Array.size_map
  mem_symbols c := by
    simp only [row_ofMachine]
    rw [ofMachine, mem_ascending, List.mem_flatMap]
    constructor
    · rintro ⟨n, hn, hc⟩
      obtain ⟨entry, hentry, hc⟩ := List.mem_filterMap.mp hc
      obtain ⟨q, hq⟩ := List.getElem?_of_mem hn
      rw [Array.getElem?_toList] at hq
      exact ⟨q, entry, by rwa [Machine.moves, hq], hc⟩
    · rintro ⟨q, entry, hentry, hc⟩
      rw [Machine.moves] at hentry
      cases hq : m.nodes[q]? with
      | none => rw [hq] at hentry; cases hentry
      | some n =>
        rw [hq] at hentry
        exact ⟨n, Array.mem_toList_iff.mpr (Array.mem_of_getElem? hq),
          List.mem_filterMap.mpr ⟨entry, hentry, hc⟩⟩
  symbols_ascending := ascending_pairwise _

end ofMachine

/-- Containers in step are known by their rows and marks. -/
theorem eq_of_inStep (hs : s.InStep K) (hs' : s'.InStep K) (hsize : s.size = s'.size)
    (hrow : ∀ q, s.row q = s'.row q) (hinitial : ∀ q, marked s.initial q = marked s'.initial q)
    (haccepting : ∀ q, marked s.accepting q = marked s'.accepting q) : s = s' := by
  have bits {xs ys : Array Bool} (hlength : xs.size = ys.size)
      (h : ∀ q, marked xs q = marked ys q) : xs = ys := by
    refine Array.ext hlength fun q hx hy => ?_
    simpa [marked, hx, hy] using h q
  have hrows : s.rows = s'.rows := by
    refine Array.ext hsize fun q hx hy => ?_
    simpa [row, hx, hy] using hrow q
  have hsymbols : s.symbols = s'.symbols := by
    refine eq_of_pairwise_lt hs.symbols_ascending hs'.symbols_ascending fun c => ?_
    rw [hs.mem_symbols, hs'.mem_symbols]
    simp only [hrow]
  have hinitial := bits (by rw [hs.initial_size, hs'.initial_size, hsize]) hinitial
  have haccepting := bits (by rw [hs.accepting_size, hs'.accepting_size, hsize]) haccepting
  cases s
  cases s'
  simp_all

/-! ### One write -/

theorem row_push (hs : s'.rows = s.rows.push []) : s'.row q = s.row q := by
  rw [row, row, hs, Array.getElem?_push]
  split
  · rename_i hq
    simp [hq]
  · rfl

theorem row_modify {f : List (L × Nat) → List (L × Nat)} (hp : p < s.rows.size)
    (hs : s'.rows = s.rows.modify p f) : s'.row q = if p = q then f (s.row q) else s.row q := by
  rw [row, row, hs, Array.getElem?_modify]
  split
  · rename_i hpq
    subst hpq
    simp [hp]
  · rfl

theorem marked_push {bits : Array Bool} : marked (bits.push false) q = marked bits q := by
  rw [marked, marked, Array.getElem?_push]
  split
  · rename_i hq
    simp [hq]
  · rfl

theorem marked_set {bits : Array Bool} (hp : p < bits.size) :
    marked (bits.setIfInBounds p true) q = true ↔ q = p ∨ marked bits q = true := by
  rw [marked, marked, Array.getElem?_setIfInBounds]
  split
  · rename_i hpq
    subst hpq
    simp [hp]
  · rename_i hpq
    simp [Ne.symm hpq]

/-- Whatever a write changes, the containers stay in step. -/
theorem InStep.write? (hK : K.Lawful) (hs : s.InStep K) (h : s.write? K w = some s') :
    s'.InStep K := by
  have hinitial : s.initial.size = s.rows.size := hs.initial_size
  have haccepting : s.accepting.size = s.rows.size := hs.accepting_size
  cases w with
  | state =>
    have hrow (q : Nat) : s'.row q = s.row q := by
      cases h
      exact row_push rfl
    have hsymbols (c : Char) :
        c ∈ s.symbols ↔ ∃ q, ∃ entry ∈ s'.row q, K.symbol? entry.1 = some c := by
      simp only [hrow, hs.mem_symbols]
    cases h
    exact ⟨by simp [size, hinitial], by simp [size, haccepting], hsymbols, hs.symbols_ascending⟩
  | initial q =>
    obtain ⟨_, h⟩ := Option.ite_none_right_eq_some.mp h
    cases h
    exact ⟨by simp [size, hinitial], hs.accepting_size, hs.mem_symbols, hs.symbols_ascending⟩
  | accepting q =>
    obtain ⟨_, h⟩ := Option.ite_none_right_eq_some.mp h
    cases h
    exact ⟨hs.initial_size, by simp [size, haccepting], hs.mem_symbols, hs.symbols_ascending⟩
  | move p l t =>
    obtain ⟨hp, h⟩ := Option.ite_none_right_eq_some.mp h
    have hrow (q : Nat) : s'.row q = if p = q then K.enter (l, t) (s.row q) else s.row q := by
      cases h
      exact row_modify hp rfl
    -- the symbol of the new move joins those that the rows have had
    have hrows (c : Char) : (∃ q, ∃ entry ∈ s'.row q, K.symbol? entry.1 = some c) ↔
        K.symbol? l = some c ∨ c ∈ s.symbols := by
      simp only [hrow, hs.mem_symbols]
      constructor
      · rintro ⟨q, entry, hentry, hc⟩
        split at hentry
        · exact ((hK c (l, t) _).mp ⟨entry, hentry, hc⟩).imp_right fun h => ⟨q, h⟩
        · exact Or.inr ⟨q, entry, hentry, hc⟩
      · rintro (hc | ⟨q, entry, hentry, hc⟩)
        · exact ⟨p, by rw [if_pos rfl]; exact (hK c (l, t) _).mpr (Or.inl hc)⟩
        · refine ⟨q, ?_⟩
          split
          · exact (hK c (l, t) _).mpr (Or.inr ⟨entry, hentry, hc⟩)
          · exact ⟨entry, hentry, hc⟩
    have hsymbols : s'.symbols =
        (K.symbol? l).elim s.symbols fun c => ascending (c :: s.symbols) := by
      cases h
      rfl
    refine ⟨?_, ?_, fun c => ?_, ?_⟩
    · cases h
      simp [size, hinitial]
    · cases h
      simp [size, haccepting]
    · rw [hrows, hsymbols]
      cases K.symbol? l with
      | none => simp
      | some d => simp [mem_ascending, eq_comm]
    · rw [hsymbols]
      cases K.symbol? l with
      | none => exact hs.symbols_ascending
      | some c => exact ascending_pairwise _

/-- A write that names a state that is there succeeds, and what the containers hold then. -/
theorem exists_write? (hs : s.InStep K) (hw : ∀ q ∈ w.source?, q < s.size) :
    ∃ s', s.write? K w = some s' ∧ s'.size = (if w.isState then s.size + 1 else s.size) ∧
      (∀ q, s'.row q = (w.moveFrom? q).elim (s.row q) fun move => K.enter move (s.row q)) ∧
      (∀ q, marked s'.initial q = true ↔ w = .initial q ∨ marked s.initial q = true) ∧
      ∀ q, marked s'.accepting q = true ↔ w = .accepting q ∨ marked s.accepting q = true := by
  -- The containers are in step, so a state that has a row has a bit for each mark.
  have hinitial : s.initial.size = s.rows.size := hs.initial_size
  have haccepting : s.accepting.size = s.rows.size := hs.accepting_size
  cases w with
  | state =>
    refine ⟨_, rfl, by simp [size, Write.isState], fun q => row_push (s := s) rfl, fun q => ?_,
      fun q => ?_⟩
    · simp [marked_push]
    · simp [marked_push]
  | initial p =>
    have hp : p < s.initial.size := hinitial ▸ hw p rfl
    refine ⟨_, if_pos hp, rfl, fun _ => rfl, fun q => ?_, fun q => by simp⟩
    rw [marked_set hp, Write.initial.injEq, eq_comm]
  | accepting p =>
    have hp : p < s.accepting.size := haccepting ▸ hw p rfl
    refine ⟨_, if_pos hp, rfl, fun _ => rfl, fun q => by simp, fun q => ?_⟩
    rw [marked_set hp, Write.accepting.injEq, eq_comm]
  | move p l t =>
    have hp : p < s.rows.size := hw p rfl
    refine ⟨_, if_pos hp, by simp [size, Write.isState], fun q => ?_, fun q => by simp,
      fun q => by simp⟩
    rw [row_modify hp rfl, Write.moveFrom?]
    split <;> rfl

/-! ### Programs of writes -/

/-- Whatever a program writes, the containers stay in step. -/
theorem InStep.writes? (hK : K.Lawful) (hs : s.InStep K) (h : s.writes? K ws = some s') :
    s'.InStep K := by
  induction ws generalizing s with
  | nil =>
    cases h
    exact hs
  | cons w ws ih =>
    obtain ⟨next, hnext, h⟩ := Option.bind_eq_some_iff.mp h
    exact ih (hs.write? hK hnext) h

/-- A program in which every write names a state that is there by then succeeds.  Afterwards a
row has entered the moves of its state in order, and what has been marked is marked. -/
theorem exists_writes? (hK : K.Lawful) (hs : s.InStep K) (hws : Write.Fits s.size ws) :
    ∃ s', s.writes? K ws = some s' ∧ s'.size = s.size + Write.states ws ∧
      (∀ q, s'.row q = (ws.filterMap (Write.moveFrom? q)).foldl
        (fun row move => K.enter move row) (s.row q)) ∧
      (∀ q, marked s'.initial q = true ↔ .initial q ∈ ws ∨ marked s.initial q = true) ∧
      ∀ q, marked s'.accepting q = true ↔ .accepting q ∈ ws ∨ marked s.accepting q = true := by
  -- The invariant is that the containers are in step; a write that makes a state moves the bound
  -- for those behind it.
  induction ws generalizing s with
  | nil => exact ⟨s, rfl, rfl, fun _ => rfl, by simp, by simp⟩
  | cons w ws ih =>
    obtain ⟨next, hnext, hsize, hrow, hinitial, haccepting⟩ := exists_write? hs hws.1
    obtain ⟨s', hs', hsize', hrow', hinitial', haccepting'⟩ :=
      ih (hs.write? hK hnext) (hsize ▸ hws.2)
    refine ⟨s', ?_, ?_, fun q => ?_, fun q => ?_, fun q => ?_⟩
    · rw [writes?, List.foldlM_cons, hnext]
      exact hs'
    · rw [hsize', hsize, Write.states_cons]
      split <;> omega
    · rw [hrow', hrow, List.filterMap_cons]
      cases Write.moveFrom? q w <;> rfl
    · rw [hinitial', hinitial, List.mem_cons, eq_comm (a := w), or_assoc, or_left_comm]
    · rw [haccepting', haccepting, List.mem_cons, eq_comm (a := w), or_assoc, or_left_comm]

theorem size_of_write? (h : s.write? K w = some s') :
    s'.size = s.size + (if w.isState then 1 else 0) := by
  cases w with
  | state =>
    cases h
    exact Array.size_push _
  | initial q =>
    obtain ⟨_, h⟩ := Option.ite_none_right_eq_some.mp h
    cases h
    rfl
  | accepting q =>
    obtain ⟨_, h⟩ := Option.ite_none_right_eq_some.mp h
    cases h
    rfl
  | move p l t =>
    obtain ⟨_, h⟩ := Option.ite_none_right_eq_some.mp h
    cases h
    exact Array.size_modify

theorem size_of_writes? (h : s.writes? K ws = some s') : s'.size = s.size + Write.states ws := by
  induction ws generalizing s with
  | nil =>
    cases h
    rfl
  | cons w ws ih =>
    obtain ⟨next, hnext, h⟩ := Option.bind_eq_some_iff.mp h
    rw [ih h, size_of_write? hnext, Write.states_cons]
    omega

theorem writes?_append {ws' : List (Write L)} (h : s.writes? K ws = some s') :
    s.writes? K (ws ++ ws') = s'.writes? K ws' := by
  rw [writes?, List.foldlM_append, ← writes?, h]
  rfl

/-- Which machine a program makes of a machine. -/
theorem writes?_eq_ofMachine (hK : K.Lawful) (hws : Write.Fits m.size ws)
    (hsize : m'.size = m.size + Write.states ws)
    (hmoves : ∀ q, m'.moves q = (ws.filterMap (Write.moveFrom? q)).foldl
      (fun row move => K.enter move row) (m.moves q))
    (hinitial : ∀ q, m'.isInitial q = true ↔ .initial q ∈ ws ∨ m.isInitial q = true)
    (haccepting : ∀ q, m'.isAccepting q = true ↔ .accepting q ∈ ws ∨ m.isAccepting q = true) :
    (ofMachine K m).writes? K ws = some (ofMachine K m') := by
  obtain ⟨s', hs', hsize', hrow', hinitial', haccepting'⟩ :=
    exists_writes? hK (inStep_ofMachine (m := m)) (size_ofMachine (K := K) ▸ hws)
  rw [hs']
  refine congrArg some (eq_of_inStep (inStep_ofMachine.writes? hK hs') inStep_ofMachine ?_ ?_ ?_ ?_)
  · rw [hsize', size_ofMachine, size_ofMachine, hsize]
  · intro q
    rw [hrow', row_ofMachine, row_ofMachine, hmoves]
  · intro q
    rw [Bool.eq_iff_iff, hinitial', marked_initial_ofMachine, marked_initial_ofMachine, hinitial]
  · intro q
    rw [Bool.eq_iff_iff, haccepting', marked_accepting_ofMachine, marked_accepting_ofMachine,
      haccepting]

theorem empty_eq_ofMachine (K : Keeping L) : empty = ofMachine K { nodes := #[] } := by
  have hsymbols : ascending ([] : List Char) = [] := ascending_eq_self .nil
  simp [empty, ofMachine, hsymbols]

theorem inStep_empty : (empty : Storage L).InStep K := empty_eq_ofMachine K ▸ inStep_ofMachine

/-- Which machine a program makes of nothing. -/
theorem writes?_of_nothing (hK : K.Lawful) (hws : Write.Fits 0 ws)
    (hsize : m.size = Write.states ws)
    (hmoves : ∀ q, m.moves q = (ws.filterMap (Write.moveFrom? q)).foldl
      (fun row move => K.enter move row) [])
    (hinitial : ∀ q, m.isInitial q = true ↔ .initial q ∈ ws)
    (haccepting : ∀ q, m.isAccepting q = true ↔ .accepting q ∈ ws) :
    empty.writes? K ws = some (ofMachine K m) := by
  rw [empty_eq_ofMachine K]
  refine writes?_eq_ofMachine hK hws (hsize.trans (Nat.zero_add _).symm) hmoves (fun q => ?_)
    fun q => ?_
  · rw [hinitial]
    exact (or_iff_left Bool.false_ne_true).symm
  · rw [haccepting]
    exact (or_iff_left Bool.false_ne_true).symm

section ordered

variable [Ord L] [Std.TransOrd L] [Std.LawfulEqOrd L] {symbol? : L → Option Char}

theorem mem_foldl_ordered {moves row : List (L × Nat)} {entry : L × Nat} :
    entry ∈ moves.foldl (fun row move => (Keeping.ordered symbol?).enter move row) row ↔
      entry ∈ moves ∨ entry ∈ row := by
  induction moves generalizing row with
  | nil => simp
  | cons move moves ih =>
    rw [List.foldl_cons, ih, Keeping.ordered, mem_ascending, List.mem_cons, List.mem_cons,
      or_assoc, or_left_comm]

omit [Std.LawfulEqOrd L] in
theorem pairwise_foldl_ordered {moves row : List (L × Nat)}
    (hrow : row.Pairwise fun x y => compare x y = .lt) :
    (moves.foldl (fun row move => (Keeping.ordered symbol?).enter move row) row).Pairwise
      fun x y => compare x y = .lt := by
  induction moves generalizing row with
  | nil => exact hrow
  | cons move moves ih => exact ih (ascending_pairwise _)

/-- Where rows are sets, only the members of the rows matter. -/
theorem writes?_ordered (hm : ∀ q, (m.moves q).Pairwise fun x y => compare x y = .lt)
    (hm' : ∀ q, (m'.moves q).Pairwise fun x y => compare x y = .lt)
    (hws : Write.Fits m.size ws) (hsize : m'.size = m.size + Write.states ws)
    (hmoves : ∀ q l t, (l, t) ∈ m'.moves q ↔ .move q l t ∈ ws ∨ (l, t) ∈ m.moves q)
    (hinitial : ∀ q, m'.isInitial q = true ↔ .initial q ∈ ws ∨ m.isInitial q = true)
    (haccepting : ∀ q, m'.isAccepting q = true ↔ .accepting q ∈ ws ∨ m.isAccepting q = true) :
    (ofMachine (.ordered symbol?) m).writes? (.ordered symbol?) ws =
      some (ofMachine (.ordered symbol?) m') := by
  refine writes?_eq_ofMachine Keeping.lawful_ordered hws hsize (fun q => ?_) hinitial haccepting
  refine eq_of_pairwise_lt (hm' q) (pairwise_foldl_ordered (hm q)) fun ⟨l, t⟩ => ?_
  rw [mem_foldl_ordered, Write.mem_filterMap_moveFrom?, hmoves]

/-- Where rows are sets, only the members of the rows matter. -/
theorem writes?_ordered_of_nothing
    (hm : ∀ q, (m.moves q).Pairwise fun x y => compare x y = .lt)
    (hws : Write.Fits 0 ws) (hsize : m.size = Write.states ws)
    (hmoves : ∀ q l t, (l, t) ∈ m.moves q ↔ .move q l t ∈ ws)
    (hinitial : ∀ q, m.isInitial q = true ↔ .initial q ∈ ws)
    (haccepting : ∀ q, m.isAccepting q = true ↔ .accepting q ∈ ws) :
    empty.writes? (.ordered symbol?) ws = some (ofMachine (.ordered symbol?) m) := by
  refine writes?_of_nothing Keeping.lawful_ordered hws hsize (fun q => ?_) hinitial haccepting
  refine eq_of_pairwise_lt (hm q) (pairwise_foldl_ordered .nil) fun ⟨l, t⟩ => ?_
  rw [mem_foldl_ordered, Write.mem_filterMap_moveFrom?, hmoves, or_iff_left List.not_mem_nil]

end ordered

end Storage

end Transduction
