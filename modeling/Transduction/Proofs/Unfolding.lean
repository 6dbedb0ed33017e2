/-
Transducers of bimachines.

A run of the transducer guesses the right state in front of the word and checks the
guess symbol by symbol:

* `Bimachine.mem_sources_iff` — the table of sources inverts the moves;
* `Bimachine.behind_and_emit_of_path`, `exists_path` — a path reads a word from a pair of
  states to the end exactly when the right state is the one in front of the word and the
  outputs along it are written;
* `Bimachine.process_eq_of_relates`, `relates_toTransducer` — the transducer relates a word
  to its output, and to nothing else whatever the automata;
* `Bimachine.trail_unique`, `unambiguous_toTransducer` — the moves along a word are
  determined from its two ends, so no word has two runs;
* `Bimachine.process_toTransducer` — the transducer gives each word its one output, by
  one run.
-/
import Mathlib.Data.List.ProdSigma
import Mathlib.Tactic.Tauto
import Transduction.Bimachine.Unfolding
import Transduction.Proofs.Ambiguity
import Transduction.Proofs.Declared
import Transduction.Proofs.RealTime
import Transduction.Proofs.Scans

namespace Transduction.Bimachine

variable {b : Bimachine} {d : Dfa} {symbols : List Char} {q r t l : Nat} {c : Char}
  {v w x y : Word} {pair pair' : Nat × Nat} {ls : List (Option Char × Word)}

/-! ### Sources -/

/-- Enters a state into the lists of the targets that it moves to. -/
def enterSource (d : Dfa) (symbols : List Char) (q : Nat)
    (found : Std.TreeMap (Nat × Char) (List Nat)) : Std.TreeMap (Nat × Char) (List Nat) :=
  symbols.foldl (fun found c =>
    match d.delta q c with
    | none => found
    | some t => found.insert (t, c) (q :: (found[(t, c)]?).getD [])) found

theorem mem_enterSource_iff {found : Std.TreeMap (Nat × Char) (List Nat)} :
    r ∈ ((enterSource d symbols q found)[(t, c)]?).getD [] ↔
      (r = q ∧ c ∈ symbols ∧ d.delta q c = some t) ∨ r ∈ (found[(t, c)]?).getD [] := by
  induction symbols generalizing found with
  | nil => simp [enterSource]
  | cons e symbols ih =>
    rw [show enterSource d (e :: symbols) q found = enterSource d symbols q _ from rfl, ih]
    cases he : d.delta q e with
    | none =>
      simp only [he]
      by_cases hc : c = e
      · subst hc
        simp [he]
      · simp [hc]
    | some u =>
      simp only [he, Std.TreeMap.getElem?_insert]
      -- Two symbols enter the source under two keys, so each key sees it once at most.
      by_cases hkey : (u, e) = (t, c)
      · cases hkey
        simp [he]
        tauto
      · rw [if_neg fun h => hkey (Std.LawfulEqOrd.eq_of_compare h)]
        have : ¬(c = e ∧ d.delta q c = some t) := by
          rintro ⟨rfl, ht⟩
          exact hkey (by rw [Option.some.inj (he.symm.trans ht)])
        simp only [List.mem_cons]
        tauto

/-- The table of sources inverts the moves on the symbols. -/
theorem mem_sources_iff :
    r ∈ ((sources d symbols)[(t, c)]?).getD [] ↔ c ∈ symbols ∧ d.delta r c = some t := by
  have fold (states : List Nat) :
      r ∈ ((states.foldr (enterSource d symbols) ∅)[(t, c)]?).getD [] ↔
        r ∈ states ∧ c ∈ symbols ∧ d.delta r c = some t := by
    induction states with
    | nil => simp
    | cons q states ih =>
      rw [List.foldr_cons, mem_enterSource_iff, ih, List.mem_cons]
      constructor
      · rintro (⟨rfl, h⟩ | ⟨hr, h⟩)
        · exact ⟨Or.inl rfl, h⟩
        · exact ⟨Or.inr hr, h⟩
      · rintro ⟨rfl | hr, h⟩
        · exact Or.inl ⟨rfl, h⟩
        · exact Or.inr ⟨hr, h⟩
  refine (fold (List.range d.size)).trans ⟨fun h => h.2, fun h => ⟨?_, h⟩⟩
  exact List.mem_range.mpr (Dfa.lt_size_of_delta h.2)

/-! ### Moves of pairs -/

/-- The moves of a pair of a left state and a right state. -/
def pairMoves (b : Bimachine) (pair : Nat × Nat) : List ((Option Char × Word) × Nat × Nat) :=
  b.right.alphabet.flatMap fun c =>
    match b.left.delta pair.1 c with
    | none => []
    | some l => (((sources b.right b.right.alphabet)[(pair.2, c)]?).getD []).filterMap fun r =>
      ((Std.TreeMap.ofList b.table compare :
        Std.TreeMap (Nat × Char × Nat) Word)[(pair.1, c, r)]?).map fun w => ((some c, w), l, r)

/-- A move of a pair is a move of the left state, and the converse of a move of the
right state, with the output that the table has for them. -/
theorem of_mem_pairMoves {label : Option Char} (h : ((label, w), pair') ∈ b.pairMoves pair) :
    ∃ c, label = some c ∧ b.left.delta pair.1 c = some pair'.1 ∧
      b.right.delta pair'.2 c = some pair.2 ∧
      (Std.TreeMap.ofList b.table compare :
        Std.TreeMap (Nat × Char × Nat) Word)[(pair.1, c, pair'.2)]? = some w := by
  rw [pairMoves, List.mem_flatMap] at h
  obtain ⟨c, hc, hmem⟩ := h
  cases hl : b.left.delta pair.1 c with
  | none => rw [hl] at hmem; cases hmem
  | some l =>
    rw [hl] at hmem
    obtain ⟨r, hsource, hout⟩ := List.mem_filterMap.mp hmem
    obtain ⟨w', hw', he⟩ := Option.map_eq_some_iff.mp hout
    cases he
    exact ⟨c, rfl, hl, (mem_sources_iff.mp hsource).2, hw'⟩

/-- A table with one output a key is the same in the moves as in the scans. -/
theorem output?_of_mem_pairMoves (ht : OutputTable.Functional b.table) {label : Option Char}
    (h : ((label, w), pair') ∈ b.pairMoves pair) :
    ∃ c, label = some c ∧ b.left.delta pair.1 c = some pair'.1 ∧
      b.right.delta pair'.2 c = some pair.2 ∧ b.table.output? pair.1 c pair'.2 = some w := by
  obtain ⟨c, hlabel, hl, hdelta, hout⟩ := of_mem_pairMoves h
  exact ⟨c, hlabel, hl, hdelta,
    ht.output?_eq_some_iff.mpr ((OutputTable.getElem?_ofList_iff ht).mp hout)⟩

theorem mem_pairMoves_iff (hr : b.right.WellFormed) (ht : OutputTable.Functional b.table)
    {label : Option Char} : ((label, w), pair') ∈ b.pairMoves pair ↔
      ∃ c, label = some c ∧ b.left.delta pair.1 c = some pair'.1 ∧
        b.right.delta pair'.2 c = some pair.2 ∧ b.table.output? pair.1 c pair'.2 = some w := by
  constructor
  · exact output?_of_mem_pairMoves ht
  · rintro ⟨c, rfl, hl, hsource, hout⟩
    have hc := hr.mem_alphabet_of_delta hsource
    refine List.mem_flatMap.mpr ⟨c, hc, ?_⟩
    rw [hl]
    refine List.mem_filterMap.mpr ⟨pair'.2, mem_sources_iff.mpr ⟨hc, hsource⟩, ?_⟩
    rw [(OutputTable.getElem?_ofList_iff ht).mpr (ht.output?_eq_some_iff.mp hout)]
    rfl

/-- A path up to the start state of the right automaton starts at the right state in front
of the word that it reads and writes the outputs along this word. -/
theorem behind_and_emit_of_path (ht : OutputTable.Functional b.table) {l' : Nat}
    (hpath : Path b.pairMoves (l, r) ls (l', b.right.start)) :
    b.behind (readsOf ls) = some r ∧ b.emit l (readsOf ls) = some (writesOf ls) := by
  generalize hs : (l, r) = s, he : (l', b.right.start) = e at hpath
  induction hpath generalizing l r with
  | nil k =>
    cases hs.trans he.symm
    exact ⟨rfl, rfl⟩
  | @cons k p _ label ls hmove hpath ih =>
    subst hs
    obtain ⟨l₁, r₁⟩ := p
    obtain ⟨symbol, v⟩ := label
    obtain ⟨c, rfl, hl, hdelta, hout⟩ := output?_of_mem_pairMoves ht hmove
    obtain ⟨hbehind, hemit⟩ := ih rfl he
    simp only [readsOf_cons, writesOf_cons, Option.toList_some, List.singleton_append]
    refine ⟨?_, emit_cons_eq_some.mpr ⟨r₁, l₁, v, _, hbehind, hl, hout, hemit, rfl⟩⟩
    rw [behind_cons, hbehind]
    exact hdelta

/-- Every word that the right automaton reads and that has outputs is read by such a path. -/
theorem exists_path (hr : b.right.WellFormed) (ht : OutputTable.Functional b.table)
    (hbehind : b.behind x = some r) (hemit : b.emit l x = some y) :
    ∃ ls l', Path b.pairMoves (l, r) ls (l', b.right.start) ∧ readsOf ls = x ∧
      writesOf ls = y := by
  induction x generalizing l r y with
  | nil =>
    cases hbehind
    cases hemit
    exact ⟨[], l, .nil _, rfl, rfl⟩
  | cons c x ih =>
    obtain ⟨r₁, l₁, v, o, hbehind₁, hl, hout, hemit₁, rfl⟩ := emit_cons_eq_some.mp hemit
    rw [behind_cons, hbehind₁] at hbehind
    obtain ⟨ls, l', hpath, hreads, hwrites⟩ := ih hbehind₁ hemit₁
    refine ⟨(some c, v) :: ls, l', .cons ?_ hpath, by simp [hreads], by simp [hwrites]⟩
    exact (mem_pairMoves_iff hr ht).mpr ⟨c, rfl, hl, hbehind, hout⟩

/-! ### The transducer -/

/-- The left states that can be met: the start state and the targets of moves. -/
def leftStates (d : Dfa) : List Nat := d.start :: d.rows.toList.flatMap fun row => row.map (·.2)

theorem length_leftStates : (leftStates d).length = d.moveCount + 1 := by
  have fold (rows : List (List (Char × Nat))) (n : Nat) :
      rows.foldl (fun n row => n + row.length) n =
        n + (rows.flatMap fun row => row.map (·.2)).length := by
    induction rows generalizing n with
    | nil => rfl
    | cons row rows ih =>
      rw [List.foldl_cons, ih, List.flatMap_cons, List.length_append, List.length_map,
        Nat.add_assoc]
  rw [leftStates, List.length_cons, Dfa.moveCount, ← Array.foldl_toList, fold, Nat.zero_add]

theorem mem_leftStates_of_delta (h : d.delta q c = some t) : t ∈ leftStates d := by
  have hq := Dfa.lt_size_of_delta h
  have hmem := mem_of_lookup h
  rw [Dfa.row, Array.getElem?_eq_getElem hq, Option.getD_some] at hmem
  refine List.mem_cons_of_mem _ (List.mem_flatMap.mpr ⟨d.rows[q], ?_, ?_⟩)
  · exact Array.mem_toList_iff.mpr (Array.getElem_mem hq)
  · exact List.mem_map.mpr ⟨(c, t), hmem, rfl⟩

/-- The transducer before it is trimmed. -/
def unfolded (b : Bimachine) : Transducer :=
  Machine.explored id b.pairMoves ((b.left.moveCount + 1) * b.right.size)
    (((List.range b.right.size).filter b.right.isAccepting).map fun r => (b.left.start, r))
    (fun pair => pair.1 == b.left.start && b.right.isAccepting pair.2 && pair.2 < b.right.size)
    fun pair => pair.2 == b.right.start

theorem toTransducer_eq (b : Bimachine) : b.toTransducer = b.unfolded.trim := rfl

theorem closed_unfolded : b.unfolded.Closed :=
  Machine.closed_explored Function.injective_id

theorem wellFormed_toTransducer : b.toTransducer.WellFormed :=
  Machine.wellFormed_trim closed_unfolded

/-- The pairs that can be met, whatever the automata. -/
def pairs (b : Bimachine) : List (Nat × Nat) := leftStates b.left ×ˢ List.range b.right.size

theorem length_pairs : b.pairs.length = (b.left.moveCount + 1) * b.right.size := by
  rw [pairs, List.length_product, length_leftStates, List.length_range]

theorem mem_pairs_of_root (h : pair ∈ ((List.range b.right.size).filter b.right.isAccepting).map
    fun r => (b.left.start, r)) : pair ∈ b.pairs := by
  obtain ⟨r, hmem, rfl⟩ := List.mem_map.mp h
  exact List.mem_product.mpr ⟨List.mem_cons_self, List.mem_of_mem_filter hmem⟩

theorem mem_pairs_of_move {label : Option Char × Word} (h : (label, pair') ∈ b.pairMoves pair) :
    pair' ∈ b.pairs := by
  obtain ⟨c, _, hl, hdelta, _⟩ := of_mem_pairMoves h
  exact List.mem_product.mpr
    ⟨mem_leftStates_of_delta hl, List.mem_range.mpr (Dfa.lt_size_of_delta hdelta)⟩

theorem acceptsLabels_unfolded_iff : b.unfolded.AcceptsLabels ls ↔
    ∃ k s,
      (k.1 == b.left.start && b.right.isAccepting k.2 && decide (k.2 < b.right.size)) = true ∧
      Path b.pairMoves k ls s ∧ (s.2 == b.right.start) = true := by
  refine Machine.acceptsLabels_explored_iff (P := (· ∈ b.pairs)) Function.injective_id
    (fun _ => mem_pairs_of_root) (fun _ _ _ _ => mem_pairs_of_move) (fun k hk => hk)
    length_pairs.le ?_
  · rintro ⟨l, r⟩ h
    simp only [Bool.and_eq_true, beq_iff_eq, decide_eq_true_eq] at h
    obtain ⟨⟨rfl, hacc⟩, hlt⟩ := h
    exact List.mem_map.mpr ⟨r, List.mem_filter.mpr ⟨List.mem_range.mpr hlt, hacc⟩, rfl⟩

/-- What the transducer of a bimachine relates a word to is its output, whatever the automata. -/
theorem process_eq_of_relates (ht : OutputTable.Functional b.table)
    (h : b.toTransducer.Relates x y) : b.process x = .ok y := by
  simp only [Transducer.relates_iff, toTransducer_eq, Transducer.trim,
    Machine.acceptsLabels_trim closed_unfolded, acceptsLabels_unfolded_iff] at h
  obtain ⟨ls, ⟨⟨l, r⟩, ⟨l', r'⟩, hinit, hpath, hend⟩, rfl, rfl⟩ := h
  simp only [Bool.and_eq_true, beq_iff_eq, decide_eq_true_eq] at hinit hend
  obtain ⟨⟨rfl, hacc⟩, _⟩ := hinit
  subst hend
  obtain ⟨hbehind, hemit⟩ := behind_and_emit_of_path ht hpath
  exact process_eq_ok_iff.mpr ⟨⟨r, hbehind, hacc⟩, hemit⟩

/-- The transducer of a bimachine gives a word its output or no output, whatever the
automata. -/
theorem exists_process_toTransducer (ht : OutputTable.Functional b.table) (w : Word) :
    ∃ ys, b.toTransducer.process w = .ok ys ∧ (ys = [] ∨ ∃ o, ys = [o] ∧ b.process w = .ok o) := by
  have finite (x : Word) : {y | b.toTransducer.Relates x y}.Finite := by
    refine Set.Subsingleton.finite fun y hy z hz => ?_
    exact Except.ok.inj ((process_eq_of_relates ht hy).symm.trans (process_eq_of_relates ht hz))
  obtain ⟨ys, hys, hascending, mem_iff⟩ :=
    Transducer.exists_process wellFormed_toTransducer.closed finite w
  refine ⟨ys, hys, ?_⟩
  by_cases hnil : ys = []
  · exact Or.inl hnil
  · obtain ⟨o, ho⟩ := List.exists_mem_of_ne_nil ys hnil
    have hprocess := process_eq_of_relates ht ((mem_iff o).mp ho)
    refine Or.inr ⟨o, Transducer.eq_singleton_of_ascending hascending fun y => ?_, hprocess⟩
    constructor
    · intro hy
      have := process_eq_of_relates ht ((mem_iff y).mp hy)
      exact Except.ok.inj (this.symm.trans hprocess)
    · rintro rfl
      exact ho

/-- The transducer of a bimachine relates a word to its output. -/
theorem relates_toTransducer (hr : b.right.WellFormed) (ht : OutputTable.Functional b.table) :
    b.toTransducer.Relates x y ↔ b.process x = .ok y := by
  refine ⟨process_eq_of_relates ht, fun h => ?_⟩
  obtain ⟨⟨r, hbehind, hacc⟩, hemit⟩ := process_eq_ok_iff.mp h
  obtain ⟨ls, l', hpath, hreads, hwrites⟩ := exists_path hr ht hbehind hemit
  have hlt : r < b.right.size := follow_keeps (P := (· < b.right.size))
    (fun _ _ _ _ h => hr.delta_lt h) hr.start_lt hbehind
  rw [Transducer.relates_iff, toTransducer_eq, Transducer.trim]
  refine ⟨ls, (Machine.acceptsLabels_trim closed_unfolded).mpr ?_, hreads, hwrites⟩
  exact acceptsLabels_unfolded_iff.mpr
    ⟨(b.left.start, r), (l', b.right.start), by simp [hacc, hlt], hpath, by simp⟩

/-! ### One run a word -/

/-- Trails that read one word between the same left state in front of it and the same
right state behind it are equal. -/
theorem trail_unique (hr : b.right.WellFormed) (ht : OutputTable.Functional b.table)
    {k k' e e' : Nat × Nat} {steps steps' : List ((Option Char × Word) × Nat × Nat)}
    (h : Trail b.pairMoves k steps e) (h' : Trail b.pairMoves k' steps' e')
    (hleft : k.1 = k'.1) (hright : e.2 = e'.2)
    (hreads : readsOf (steps.map (·.1)) = readsOf (steps'.map (·.1))) :
    k = k' ∧ steps = steps' := by
  induction h generalizing k' steps' with
  | nil k =>
    cases h' with
    | nil => exact ⟨Prod.ext hleft hright, rfl⟩
    | @cons _ t _ l _ hmove _ =>
      obtain ⟨symbol, v⟩ := l
      obtain ⟨c, rfl, _⟩ := (mem_pairMoves_iff hr ht).mp hmove
      simp at hreads
  | @cons k t e l steps hmove _ ih =>
    obtain ⟨symbol, v⟩ := l
    obtain ⟨c, rfl, hl, hdelta, hout⟩ := (mem_pairMoves_iff hr ht).mp hmove
    cases h' with
    | nil => simp at hreads
    | @cons _ t' _ l' steps' hmove' hrest' =>
      obtain ⟨symbol', v'⟩ := l'
      obtain ⟨c', rfl, hl', hdelta', hout'⟩ := (mem_pairMoves_iff hr ht).mp hmove'
      simp only [List.map_cons, readsOf_cons, Option.toList_some, List.singleton_append,
        List.cons.injEq] at hreads
      obtain ⟨rfl, hreads⟩ := hreads
      -- the left state goes forward, and the right state comes back from the rest
      rw [← hleft, hl] at hl'
      obtain ⟨rfl, rfl⟩ := ih hrest' (Option.some.inj hl') hright hreads
      rw [hdelta] at hdelta'
      rw [← hleft, hout] at hout'
      obtain rfl := Option.some.inj hout'
      exact ⟨Prod.ext hleft (Option.some.inj hdelta'), rfl⟩

theorem unambiguous_toTransducer (hr : b.right.WellFormed) (ht : OutputTable.Functional b.table)
    (w : Word) : Unambiguous b.toTransducer.moves b.toTransducer.isInitial
      b.toTransducer.isAccepting fun ls => readsOf ls = w := by
  refine Machine.unambiguous_trim (Machine.unambiguous_explored Function.injective_id ?_)
  intro k k' steps steps' hspans hspans' hw hw'
  obtain ⟨hk, e, htrail, he⟩ := hspans
  obtain ⟨hk', e', htrail', he'⟩ := hspans'
  simp only [Bool.and_eq_true, beq_iff_eq] at hk hk' he he'
  exact trail_unique hr ht htrail htrail' (hk.1.1.trans hk'.1.1.symm) (he.trans he'.symm)
    (hw.trans hw'.symm)

/-- The transducer of a bimachine gives the words of its domain their one output, each
by exactly one accepted run, and has no output and no accepted run for other words. -/
theorem process_toTransducer (b : Bimachine) (hr : b.right.WellFormed)
    (ht : OutputTable.Functional b.table) (w : Word) :
    (∀ o, b.process w = .ok o → b.toTransducer.process w = .ok [o] ∧
      ∃! run : Nat × List ((Option Char × Word) × Nat),
        Machine.Accepted b.toTransducer run.1 run.2 ∧ Transducer.inputOf run.2 = w) ∧
    (∀ e, b.process w = .error e → b.toTransducer.process w = .ok [] ∧
      ∀ p steps, Machine.Accepted b.toTransducer p steps → Transducer.inputOf steps ≠ w) := by
  have relates_iff {x y : Word} := relates_toTransducer hr ht (x := x) (y := y)
  -- A word has one output at most, hence finitely many.
  have finite (x : Word) : {y | b.toTransducer.Relates x y}.Finite := by
    refine Set.Subsingleton.finite fun y hy z hz => ?_
    exact Except.ok.inj ((relates_iff.mp hy).symm.trans (relates_iff.mp hz))
  obtain ⟨ys, hys, hascending, mem_iff⟩ :=
    Transducer.exists_process wellFormed_toTransducer.closed finite w
  simp only [relates_iff] at mem_iff
  refine ⟨fun o ho => ⟨?_, ?_⟩, fun e he => ⟨?_, ?_⟩⟩
  · rw [hys]
    refine congrArg _ (Transducer.eq_singleton_of_ascending hascending fun y => ?_)
    rw [mem_iff, ho, Except.ok.injEq, eq_comm]
  -- The output has a run, and two runs on one word are the same.
  · obtain ⟨p, steps, hrun, hinput, _⟩ := relates_iff.mpr ho
    refine ⟨(p, steps), ⟨hrun, hinput⟩, fun run hrun' => ?_⟩
    obtain ⟨p_eq, steps_eq⟩ := unambiguous_toTransducer hr ht w _ _ _ _
      (Machine.accepted_iff_spans.mp hrun'.1) (Machine.accepted_iff_spans.mp hrun)
      ((Transducer.inputOf_eq _).symm.trans hrun'.2) ((Transducer.inputOf_eq _).symm.trans hinput)
    exact Prod.ext p_eq steps_eq
  · rw [hys]
    refine congrArg _ (List.eq_nil_iff_forall_not_mem.mpr fun y hy => ?_)
    cases he.symm.trans ((mem_iff y).mp hy)
  -- A run on a word outside the domain would give it an output.
  · intro p steps hrun hinput
    cases he.symm.trans (relates_iff.mp ⟨p, steps, hrun, hinput, rfl⟩)

/-- Accepts the words of even length, through the start state again and again. -/
def evenLength : Dfa := .ofRows #[[('a', 1)], [('a', 0)]] 0 #[true, false]

/-- Writes `y` in front of an odd number of symbols and `x` in front of an even number,
for words of even length. -/
def alternates : Bimachine where
  left := .ofRows #[[('a', 0)]] 0 #[false]
  right := evenLength
  table := .ofEntries [((0, 'a', 0), ['x']), ((0, 'a', 1), ['y'])]

/-- Two symbols have one run, and one symbol has none. -/
theorem process_toTransducer_alternates :
    alternates.right.WellFormed ∧ OutputTable.Functional alternates.table ∧
    alternates.toTransducer.process ['a', 'a'] = .ok [['y', 'x']] ∧
    (∃! run : Nat × List ((Option Char × Word) × Nat),
      Machine.Accepted alternates.toTransducer run.1 run.2 ∧
        Transducer.inputOf run.2 = ['a', 'a']) ∧
    ∀ p steps, Machine.Accepted alternates.toTransducer p steps →
      Transducer.inputOf steps ≠ ['a'] := by
  have declared : Dfa.declare 2 0 [0] [(0, 'a', 1), (1, 'a', 0)] = .ok evenLength := by decide
  have hr : alternates.right.WellFormed := Dfa.wellFormed_declare declared
  have ht : OutputTable.Functional alternates.table := OutputTable.functional_ofEntries
  have two : alternates.process ['a', 'a'] = .ok ['y', 'x'] := by decide
  have one : alternates.process ['a'] = .error (.outsideDomain 0) := by decide
  obtain ⟨outputs, run⟩ := (process_toTransducer alternates hr ht ['a', 'a']).1 _ two
  exact ⟨hr, ht, outputs, run, ((process_toTransducer alternates hr ht ['a']).2 _ one).2⟩

end Transduction.Bimachine
