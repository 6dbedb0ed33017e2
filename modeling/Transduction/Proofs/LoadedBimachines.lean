/-
Bimachines as they are loaded.

A text that is loaded need not have been saved: its automata may start in, move to and accept
states that do not exist, its table may name others, and its alphabet may miss symbols.  Only
the table is in order, since of a repeated key the last entry counts.  This is enough for both
ways to evaluate a word:

* `Bimachine.functional_of_load` — the table of a loaded bimachine has one output a key;
* `Bimachine.processAt`, with `processAt_eq` — an evaluation that looks into its paths by
  number finds what it looks for, and its subtractions stay in the numbers;
* `Bimachine.position_of_process` — a word is refused at one of its positions;
* `Bimachine.SearchesEnd`, with `searchesEnd` — the searches behind the transducer end;
* `Bimachine.evaluates_of_load` — both evaluations of a loaded bimachine have a result, and
  that of the transducer has nothing that the other one has not.

The two need not agree: the transducer reads only symbols of the right alphabet and meets only
pairs of which the right state exists.
-/
import Mathlib.Data.Nat.PSub
import Transduction.Bimachine.Saved
import Transduction.Json.Yields
import Transduction.Proofs.ErrorPositions
import Transduction.Proofs.Unfolding

namespace Transduction.Bimachine

open Json Saved

variable {b : Bimachine} {text : String} {w : Word} {p : Nat}

/-! ### The table -/

theorem yields_readBimachine {bound : Nat} :
    Yields (readBimachine bound) fun b => OutputTable.Functional b.table := by
  refine yields_record (P := fun h => ∀ table, h.table = some table →
    OutputTable.Functional table) ?_ (fun _ h => nomatch h) fun h hh => ?_
  · intro field hfield h hh
    simp only [List.mem_cons, List.not_mem_nil, or_false] at hfield
    rcases hfield with rfl | rfl | rfl
    · exact yields_bind fun _ => yields_pure hh
    · exact yields_bind fun _ => yields_pure hh
    · refine yields_bind fun entries => yields_pure fun table htable => ?_
      cases htable
      exact OutputTable.functional_ofEntries
  · exact yields_bind fun _ => yields_bind fun _ => yields_required.bind fun table htable =>
      yields_pure (hh table htable)

theorem functional_of_load (h : load text = .ok b) : OutputTable.Functional b.table :=
  Yields.of_read (P := fun b : Bimachine => OutputTable.Functional b.table) yields_readBimachine h

/-! ### Evaluation by position -/

/-- The outputs from a position on, where both paths are looked into by number; a number that
is too large, or below zero, has no result. -/
def outputsAt (b : Bimachine) (leftPath rightPath : List Nat) (length : Nat) :
    Nat → Word → Word → Option (Except BimachineError Word)
  | _, output, [] => some (.ok output)
  | position, output, c :: rest => do
    let l ← leftPath[position]?
    let r ← rightPath[← Nat.psub (← Nat.psub length 1) position]?
    match b.table.output? l c r with
    | none => some (.error (.outsideDomain position))
    | some v => b.outputsAt leftPath rightPath length (position + 1) (output ++ v) rest

/-- The evaluation of a word, where each number is computed and each path looked into as it is
written down. -/
def processAt (b : Bimachine) (w : Word) : Option (Except BimachineError Word) := do
  let (_, leftPath) := b.left.forwardTrace w
  if leftPath.length ≤ w.length then
    return .error (.outsideDomain (← Nat.psub leftPath.length 1))
  let (accepted, rightPath) := b.right.backwardTrace w
  if rightPath.length ≤ w.length then
    return .error (.outsideDomain (← Nat.psub w.length rightPath.length))
  if !accepted then return .error (.outsideDomain 0)
  b.outputsAt leftPath rightPath w.length 0 [] w

/-- Behind both scans the paths have one state more than the word has symbols, so every symbol
finds its states. -/
theorem outputsAt_eq {leftPath rightPath : List Nat} {length position : Nat} {output rest : Word}
    (hleft : leftPath.length = length + 1) (hright : rightPath.length = length + 1)
    (hlength : position + rest.length = length) :
    b.outputsAt leftPath rightPath length position output rest =
      some ((b.outputs position ((leftPath.drop position).zip
        (rest.zip (rightPath.reverse.drop (position + 1))))).map (output ++ ·)) := by
  -- The induction is on what is left to read.  The invariant is that it begins at the position,
  -- so that both paths reach beyond it.
  induction rest generalizing position output with
  | nil => simp [outputsAt, outputs, Except.map]
  | cons c rest ih =>
    rw [List.length_cons] at hlength
    have hl : position < leftPath.length := by omega
    have hr : length - 1 - position < rightPath.length := by omega
    have hreverse : position + 1 < rightPath.reverse.length := by
      rw [List.length_reverse]
      omega
    -- The right path runs backwards: read from its end it gives the state behind the symbol.
    have behind : rightPath.reverse[position + 1] = rightPath[length - 1 - position] := by
      rw [List.getElem_reverse]
      congr 1
      omega
    have rest_eq (v : Word) : b.outputsAt leftPath rightPath length (position + 1) (output ++ v)
        rest = _ := ih (by omega)
    rw [outputsAt, List.drop_eq_getElem_cons hl, List.drop_eq_getElem_cons hreverse, behind,
      List.zip_cons_cons, List.zip_cons_cons, outputs, List.getElem?_eq_getElem hl,
      Nat.psub_eq_sub (show 1 ≤ length by omega)]
    simp only [Option.bind_eq_bind, Option.bind_some,
      Nat.psub_eq_sub (show position ≤ length - 1 by omega), List.getElem?_eq_getElem hr]
    -- The table decides whether the scan goes on.
    cases b.table.output? leftPath[position] c rightPath[length - 1 - position] with
    | none => rfl
    | some v =>
      simp only [rest_eq]
      cases b.outputs (position + 1) _ with
      | error e => rfl
      | ok o => simp [Except.map]

/-- No look into a path misses it, and no subtraction falls below zero. -/
theorem processAt_eq : b.processAt w = some (b.process w) := by
  obtain ⟨left_pos, left_le⟩ := b.left.length_forwardTrace_bounds w
  obtain ⟨_, right_le⟩ := b.right.length_backwardTrace_bounds w
  unfold processAt process
  dsimp only
  split
  · rw [Nat.psub_eq_sub left_pos]
    rfl
  split
  · rename_i hright
    rw [Nat.psub_eq_sub hright]
    rfl
  split
  · rfl
  · rw [outputsAt_eq (by omega) (by omega) (Nat.zero_add _), List.drop_zero, Nat.zero_add,
      List.drop_one]
    cases b.outputs 0 _ with
    | error e => rfl
    | ok o => rfl

/-! ### Positions -/

theorem position_of_outputs {position : Nat} {entries : List (Nat × Char × Nat)}
    (h : b.outputs position entries = .error (.outsideDomain p)) :
    p < position + entries.length := by
  induction entries generalizing position with
  | nil => cases h
  | cons entry entries ih =>
    obtain ⟨l, c, r⟩ := entry
    rw [outputs] at h
    rw [List.length_cons]
    split at h
    · cases h
      omega
    · cases hrest : b.outputs (position + 1) entries with
      | ok o =>
        rw [hrest] at h
        cases h
      | error e =>
        rw [hrest] at h
        cases h
        have := ih hrest
        omega

/-- A word is refused at one of its positions, and the empty word at zero. -/
theorem position_of_process (h : b.process w = .error (.outsideDomain p)) :
    p < w.length ∨ w = [] ∧ p = 0 := by
  obtain ⟨left_pos, left_le⟩ := b.left.length_forwardTrace_bounds w
  obtain ⟨right_pos, right_le⟩ := b.right.length_backwardTrace_bounds w
  unfold process at h
  dsimp only at h
  split at h
  · cases h
    omega
  split at h
  · cases h
    omega
  split at h
  · cases h
    rw [← List.length_eq_zero_iff]
    omega
  · have hlt := position_of_outputs h
    simp only [List.length_zip] at hlt
    omega

/-! ### The searches of the transducer -/

/-- The searches that make the transducer of a bimachine end: that for the pairs of states, of
which it is made, and those that trim it. -/
structure SearchesEnd (b : Bimachine) : Prop where
  pairs : ∃ found, DrainsFrom id b.pairMoves (fun moves => moves.map (·.2))
      (((List.range b.right.size).filter b.right.isAccepting).map fun r => (b.left.start, r))
      found ∧
    b.unfolded = Machine.ofExploration id
      (fun pair => pair.1 == b.left.start && b.right.isAccepting pair.2 && pair.2 < b.right.size)
      (fun pair => pair.2 == b.right.start) found
  trims : b.unfolded.TrimEnds
  trimmed : b.toTransducer = b.unfolded.trim

/-- A left state is met only as the start or as a target, and a right state only where it
exists, so there are finitely many pairs to meet, whatever the automata. -/
theorem searchesEnd (b : Bimachine) : b.SearchesEnd where
  pairs := by
    refine ⟨_, drains_explore (P := (· ∈ b.pairs)) (fun _ => mem_pairs_of_root) ?_ (fun _ h => h)
      length_pairs.le, rfl⟩
    intro pair _ pair' hpair'
    obtain ⟨move, hmove, rfl⟩ := List.mem_map.mp hpair'
    exact mem_pairs_of_move hmove
  trims := closed_unfolded.trimEnds
  trimmed := toTransducer_eq b

/-! ### Both evaluations -/

/-- A loaded bimachine evaluates every word, inside its paths, to an output or a position of
the word.  Its transducer can be made, and gives a word no output or the same one. -/
theorem evaluates_of_load (h : load text = .ok b) (w : Word) :
    b.processAt w = some (b.process w) ∧
    ((∃ o, b.process w = .ok o) ∨
      ∃ p, b.process w = .error (.outsideDomain p) ∧ (p < w.length ∨ w = [] ∧ p = 0)) ∧
    b.SearchesEnd ∧
    ∃ ys, b.toTransducer.process w = .ok ys ∧
      (ys = [] ∨ ∃ o, ys = [o] ∧ b.process w = .ok o) := by
  refine ⟨processAt_eq, ?_, searchesEnd b, exists_process_toTransducer (functional_of_load h) w⟩
  cases hprocess : b.process w with
  | ok o => exact Or.inl ⟨o, rfl⟩
  | error e =>
    obtain ⟨p⟩ := e
    exact Or.inr ⟨p, rfl, position_of_process hprocess⟩

/-- Moves into states that do not exist, of which one is marked, and misses its symbol in the
right alphabet. -/
def dangling : Bimachine where
  left := .ofRows #[[('a', 5)]] 0 #[]
  right :=
    { Dfa.ofRows #[[('a', 9)]] 0
        #[false, false, false, false, false, false, false, false, false, true] with
      alphabet := [] }
  table := [((0, 'a', 0), ['x'])]

/-- A text of it, with the fields in order instead of named. -/
def danglingText : String :=
  "[[[[\x7b\"a\":5\x7d]],0,[\"bitvec::order::Lsb0\",[8,0],0,[]],[\"a\"]]," ++
    "[[[\x7b\"a\":9\x7d]],0,[\"bitvec::order::Lsb0\",[8,0],10,[0,2]],[]]," ++
    "[[0,\"a\",0,\"x\"]]]"

/-- The symbol has an output, which the transducer misses, and two of them leave the left
automaton behind the first. -/
theorem evaluates_of_load_dangling :
    load danglingText = .ok dangling ∧
    dangling.processAt ['a'] = some (.ok ['x']) ∧
    dangling.toTransducer.process ['a'] = .ok [] ∧
    (∃ ys, dangling.toTransducer.process ['a', 'a'] = .ok ys ∧
      (ys = [] ∨ ∃ o, ys = [o] ∧ dangling.process ['a', 'a'] = .ok o)) ∧
    dangling.process ['a', 'a'] = .error (.outsideDomain 1) ∧
    dangling.SearchesEnd := by
  have hload : load danglingText = .ok dangling := by decide +kernel
  obtain ⟨inside, _, ends, _⟩ := evaluates_of_load hload ['a']
  obtain ⟨_, _, _, outputs⟩ := evaluates_of_load hload ['a', 'a']
  refine ⟨hload, inside.trans (congrArg some (by decide)), by decide +kernel, outputs, by decide,
    ends⟩

end Transduction.Bimachine
