/-
Range acceptors, and the acceptors of the same words over an alphabet.

The silent closures of a range acceptor come from the transitive closure of a relation, those of
an acceptor from a search for each state.  Both hold what silent runs lead to, and so a word is
recognized when a run reads it.  A range over an alphabet is a move for each symbol in it, and a
word over the alphabet has the same runs on both sides:

* `RangeAcceptor.closures_eq` — the closures from the relation are those of the searches;
* `RangeAcceptor.recognizes_eq`, `RangeAcceptor.recognizes_iff` — recognition, and runs;
* `Machine.ReadsBetween`, `Machine.ReadsBetween.transfer` — a word between two states, and the same
  word in a machine with other labels;
* `RangeAcceptor.accepts_toAcceptor_iff` — single symbols in place of ranges;
* `RangeAcceptor.recognizes_over_alphabet` — both acceptors, word by word;
* `RangeAcceptor.silentlyReachable_toAcceptor` — both acceptors, state by state: neither the ranges
  nor the alphabet matter to silent moves;
* `silentlyReachable_exact` — what is listed as silently reachable is.
-/
import Transduction.Proofs.Constructions
import Transduction.Proofs.Recognition
import Transduction.Proofs.TransitiveClosure

namespace Transduction

/-! ### Runs of machines with other labels -/

namespace Machine

variable {L L' : Type} {m : Machine L} {m' : Machine L'} {silent : L → Bool} {silent' : L' → Bool}
  {reads : L → Char → Bool} {reads' : L' → Char → Bool} {p q : Nat} {w : Word}

/-- Some labels from the one state to the other read the word. -/
def ReadsBetween (silent : L → Bool) (reads : L → Char → Bool) (m : Machine L) (p : Nat) (w : Word)
    (q : Nat) : Prop :=
  ∃ ls, Path m.moves p ls q ∧ Spells silent reads ls w

theorem arrives_iff_readsBetween : m.Arrives silent reads w q ↔
    ∃ p, m.isInitial p = true ∧ m.ReadsBetween silent reads p w q := by
  simp only [Arrives, ReadsBetween, exists_and_left]

/-- What holds of every symbol that a move reads holds of the symbols of the word. -/
theorem ReadsBetween.forall_mem {P : Char → Prop} (h : m.ReadsBetween silent reads p w q)
    (hP : ∀ p l t c, (l, t) ∈ m.moves p → reads l c = true → P c) : ∀ c ∈ w, P c := by
  obtain ⟨ls, hpath, hspells⟩ := h
  induction hpath generalizing w with
  | nil p =>
    cases hspells
    exact fun c hc => absurd hc List.not_mem_nil
  | cons hmove _ ih =>
    cases hspells with
    | pass _ hspells => exact ih hspells
    | read hl hspells => exact List.forall_mem_cons.mpr ⟨hP _ _ _ _ hmove hl, ih hspells⟩

/-- A word is read between the same states of a machine that has a silent move for each silent
move, and a move on a symbol of the word for each such move. -/
theorem ReadsBetween.transfer (h : m.ReadsBetween silent reads p w q)
    (hsilent : ∀ p l t, (l, t) ∈ m.moves p → silent l = true →
      ∃ k, (k, t) ∈ m'.moves p ∧ silent' k = true)
    (hreads : ∀ p l t, ∀ c ∈ w, (l, t) ∈ m.moves p → reads l c = true →
      ∃ k, (k, t) ∈ m'.moves p ∧ reads' k c = true) : m'.ReadsBetween silent' reads' p w q := by
  obtain ⟨ls, hpath, hspells⟩ := h
  induction hpath generalizing w with
  | nil p =>
    cases hspells
    exact ⟨[], .nil p, .nil⟩
  | cons hmove _ ih =>
    cases hspells with
    | pass hl hspells =>
      obtain ⟨k, hmove, hk⟩ := hsilent _ _ _ hmove hl
      obtain ⟨ks, hpath, hks⟩ := ih hreads hspells
      exact ⟨k :: ks, .cons hmove hpath, .pass hk hks⟩
    | read hl hspells =>
      obtain ⟨k, hmove, hk⟩ := hreads _ _ _ _ List.mem_cons_self hmove hl
      obtain ⟨ks, hpath, hks⟩ := ih
        (fun p l t c hc => hreads p l t c (List.mem_cons_of_mem _ hc)) hspells
      exact ⟨k :: ks, .cons hmove hpath, .read hk hks⟩

end Machine

namespace RangeAcceptor

variable {a : RangeAcceptor} {A : List Char} {p q t : Nat} {c : Char} {w : Word} {s : StateSet}
  {closures : Array StateSet}

/-! ### Silent closures -/

/-- A silent move leads from one state to the other. -/
abbrev SilentMove (a : RangeAcceptor) (q t : Nat) : Prop := (none, t) ∈ a.moves q

theorem mem_silentPairs : (q, t) ∈ a.silentPairs ↔ a.SilentMove q t := by
  rw [silentPairs, mem_ascending]
  simp only [List.mem_flatMap, List.mem_range, List.mem_filterMap]
  constructor
  · rintro ⟨p, _, ⟨l, r⟩, hmove, he⟩
    split at he
    · rename_i hl
      obtain rfl := Option.isNone_iff_eq_none.mp hl
      cases he
      exact hmove
    · cases he
  · intro hmove
    exact ⟨q, Machine.lt_size_of_mem_moves hmove, (none, t), hmove, rfl⟩

theorem mem_foldl_insert {pairs : List (Nat × Nat)} (hq : q < closures.size) :
    t ∈ ((pairs.foldl (fun closures (q, t) => closures.modify q (·.insert t)) closures)[q]?).getD
      .empty ↔ t ∈ (closures[q]?).getD .empty ∨ (q, t) ∈ pairs := by
  induction pairs generalizing closures with
  | nil => simp
  | cons pair pairs ih =>
    obtain ⟨p, r⟩ := pair
    rw [List.foldl_cons, ih (by simpa using hq), Array.getElem?_modify, List.mem_cons]
    by_cases hp : p = q
    · subst hp
      simp only [if_pos, Array.getElem?_eq_getElem hq, Option.map_some, Option.getD_some,
        StateSet.mem_insert, Prod.mk.injEq, true_and]
      grind
    · rw [if_neg hp, Prod.mk.injEq]
      grind

theorem size_closures : a.closures.size = a.size := by
  rw [RangeAcceptor.closures, Machine.size_foldl_modify, Array.size_ofFn]

/-- The closure of a state holds what chains of silent moves lead to. -/
theorem mem_closures (hq : q < a.size) :
    t ∈ (a.closures[q]?).getD .empty ↔ Relation.ReflTransGen a.SilentMove q t := by
  rw [RangeAcceptor.closures, mem_foldl_insert (by simpa using hq),
    Relation.mem_transitiveClosure_iff, Relation.reflTransGen_iff_eq_or_transGen]
  simp only [mem_silentPairs]
  simp [hq]

/-- The closures from the relation are those of the searches. -/
theorem closures_eq (ha : a.Closed) : a.closures = a.silentClosures Option.isNone := by
  have size_eq : a.closures.size = (a.silentClosures Option.isNone).size := by
    rw [size_closures, Machine.silentClosures, Array.size_ofFn]
  refine Array.ext size_eq fun q hq hq' => ?_
  have hlt : q < a.size := size_closures (a := a) ▸ hq
  have mem_iff (t : Nat) : t ∈ (a.closures[q]?).getD .empty ↔
      t ∈ ((a.silentClosures Option.isNone)[q]?).getD .empty := by
    rw [mem_closures hlt, Machine.reflTransGen_silent_iff, Machine.getElem?_silentClosures hlt,
      Option.getD_some, Machine.mem_silentClosure ha hlt]
  rw [Array.getElem?_eq_getElem hq, Array.getElem?_eq_getElem hq'] at mem_iff
  exact StateSet.ext mem_iff

/-- The states listed for a state are those of its closure. -/
theorem mem_silentlyReachable_iff (hq : q < a.size) :
    t ∈ a.silentlyReachable q ↔ Relation.ReflTransGen a.SilentMove q t := by
  have hlt : q < a.closures.size := size_closures.symm ▸ hq
  rw [← mem_closures hq, silentlyReachable, Array.getElem?_eq_getElem hlt, Option.elim_some,
    Option.getD_some, StateSet.mem_toList]

/-- Nothing is listed for a state that does not exist. -/
theorem silentlyReachable_eq_nil (hq : a.size ≤ q) : a.silentlyReachable q = [] := by
  rw [silentlyReachable, Array.getElem?_eq_none (size_closures.symm ▸ hq), Option.elim_none]

/-! ### Recognition -/

/-- The sets after the symbols of a word, whether or not one of them is empty. -/
def follow (a : RangeAcceptor) (closures : Array StateSet) (s : StateSet) (w : Word) : StateSet :=
  w.foldl (fun s c => Machine.closeUnder closures (a.advance reads s c)) s

theorem follow_empty : a.follow closures .empty w = .empty := by
  induction w with
  | nil => rfl
  | cons c w ih =>
    have step : Machine.closeUnder closures (a.advance reads .empty c) = .empty :=
      StateSet.ext fun q => by simp [Machine.mem_closeUnder, Machine.mem_advance]
    rw [follow, List.foldl_cons, step]
    exact ih

/-- To stop at an empty set changes nothing. -/
theorem recognizesFrom_eq :
    a.recognizesFrom closures s w = (a.follow closures s w).toList.any a.isAccepting := by
  induction w generalizing s with
  | nil => rfl
  | cons c w ih =>
    rw [recognizesFrom, ih]
    split
    · rename_i hempty
      have stuck : Machine.closeUnder closures (a.advance reads s c) = .empty :=
        StateSet.ext fun q => by simp [Machine.mem_closeUnder, StateSet.isEmpty_iff.mp hempty]
      rw [follow, List.foldl_cons, stuck, ← follow, follow_empty]
      rfl
    · rfl

theorem recognizes_eq (ha : a.Closed) :
    a.recognizes w = Machine.recognizes Option.isNone reads a w := by
  rw [recognizes, closures_eq ha, recognizesFrom_eq]
  rfl

theorem reads_iff {steps : List (Option (Char × Char) × Nat)} :
    Reads steps w ↔ Machine.Spells Option.isNone reads (steps.map (·.1)) w := by
  constructor
  · intro h
    induction h with
    | nil => exact .nil
    | silent _ ih => exact .pass rfl ih
    | symbol hc _ ih => exact .read hc ih
  · intro h
    generalize hls : steps.map (·.1) = ls at h
    induction h generalizing steps with
    | nil =>
      obtain rfl := List.map_eq_nil_iff.mp hls
      exact .nil
    | @pass l ls w hl _ ih =>
      obtain ⟨⟨k, t⟩, steps, rfl, rfl, rfl⟩ := List.map_eq_cons_iff.mp hls
      obtain rfl := Option.isNone_iff_eq_none.mp hl
      exact .silent (ih rfl)
    | @read l ls c w hl _ ih =>
      obtain ⟨⟨k, t⟩, steps, rfl, rfl, rfl⟩ := List.map_eq_cons_iff.mp hls
      cases k with
      | none => cases hl
      | some range => exact .symbol hl (ih rfl)

theorem accepts_iff_arrives :
    a.Accepts w ↔ ∃ q, Machine.Arrives Option.isNone reads a w q ∧ a.isAccepting q = true := by
  simp only [Accepts, Machine.Accepted, Machine.Arrives, Machine.path_iff_exists_run, reads_iff]
  constructor
  · rintro ⟨p, steps, ⟨hp, q, hrun, hq⟩, hw⟩
    exact ⟨q, ⟨p, _, hp, ⟨steps, hrun, rfl⟩, hw⟩, hq⟩
  · rintro ⟨q, ⟨p, _, hp, ⟨steps, hrun, rfl⟩, hw⟩, hq⟩
    exact ⟨p, steps, ⟨hp, q, hrun, hq⟩, hw⟩

/-- A range acceptor recognizes the words that it accepts. -/
theorem recognizes_iff (ha : a.Closed) : a.recognizes w = true ↔ a.Accepts w := by
  rw [recognizes_eq ha, Machine.recognizes_iff ha, accepts_iff_arrives]

/-! ### Single symbols in place of ranges -/

theorem mem_moves_toAcceptor_iff {move : Option Char × Nat} :
    move ∈ (a.toAcceptor A).moves q ↔ ∃ old ∈ a.moves q, move ∈ expandMove A old := by
  simp only [Machine.moves, toAcceptor, Array.getElem?_map]
  cases a.nodes[q]? with
  | none => simp
  | some n => simp [mem_ascending]

@[simp] theorem isInitial_toAcceptor : (a.toAcceptor A).isInitial q = a.isInitial q := by
  simp only [Machine.isInitial, toAcceptor, Array.getElem?_map]
  cases a.nodes[q]? <;> rfl

@[simp] theorem isAccepting_toAcceptor : (a.toAcceptor A).isAccepting q = a.isAccepting q := by
  simp only [Machine.isAccepting, toAcceptor, Array.getElem?_map]
  cases a.nodes[q]? <;> rfl

theorem silent_mem_moves_toAcceptor_iff :
    (none, t) ∈ (a.toAcceptor A).moves q ↔ a.SilentMove q t := by
  rw [mem_moves_toAcceptor_iff]
  constructor
  · rintro ⟨⟨l, r⟩, hmove, hmem⟩
    cases l with
    | none =>
      cases List.mem_singleton.mp hmem
      exact hmove
    | some range => simp [expandMove] at hmem
  · exact fun hmove => ⟨(none, t), hmove, List.mem_singleton_self _⟩

/-- A symbol of the alphabet stands for the ranges that hold it. -/
theorem symbol_mem_moves_toAcceptor_iff : (some c, t) ∈ (a.toAcceptor A).moves q ↔
    c ∈ A ∧ ∃ l, (l, t) ∈ a.moves q ∧ reads l c = true := by
  rw [mem_moves_toAcceptor_iff]
  constructor
  · rintro ⟨⟨l, r⟩, hmove, hmem⟩
    cases l with
    | none => simp [expandMove] at hmem
    | some range =>
      obtain ⟨d, hd, he⟩ := List.mem_map.mp hmem
      cases he
      exact ⟨(List.mem_filter.mp hd).1, some range, hmove, (List.mem_filter.mp hd).2⟩
  · rintro ⟨hc, l, hmove, hl⟩
    cases l with
    | none => cases hl
    | some range =>
      exact ⟨(some range, t), hmove, List.mem_map.mpr ⟨c, List.mem_filter.mpr ⟨hc, hl⟩, rfl⟩⟩

/-- A run over single symbols takes the ranges that hold them, and back. -/
theorem readsBetween_toAcceptor_iff :
    (a.toAcceptor A).ReadsBetween Option.isNone Acceptor.reads p w q ↔
      (∀ c ∈ w, c ∈ A) ∧ a.ReadsBetween Option.isNone reads p w q := by
  have symbol_of_reads {p t : Nat} {l : Option Char} {c : Char}
      (hmove : (l, t) ∈ (a.toAcceptor A).moves p) (hl : Acceptor.reads l c = true) :
      c ∈ A ∧ ∃ k, (k, t) ∈ a.moves p ∧ reads k c = true := by
    obtain rfl : l = some c := beq_iff_eq.mp hl
    exact symbol_mem_moves_toAcceptor_iff.mp hmove
  constructor
  · intro h
    refine ⟨h.forall_mem fun _ _ _ c hmove hl => (symbol_of_reads hmove hl).1, ?_⟩
    refine h.transfer (fun p l t hmove hl => ?_) fun p l t c _ hmove hl =>
      (symbol_of_reads hmove hl).2
    obtain rfl := Option.isNone_iff_eq_none.mp hl
    exact ⟨none, silent_mem_moves_toAcceptor_iff.mp hmove, rfl⟩
  · rintro ⟨hw, h⟩
    refine h.transfer (fun p l t hmove hl => ?_) fun p l t c hc hmove hl =>
      ⟨some c, symbol_mem_moves_toAcceptor_iff.mpr ⟨hw c hc, l, hmove, hl⟩, beq_iff_eq.mpr rfl⟩
    obtain rfl := Option.isNone_iff_eq_none.mp hl
    exact ⟨none, silent_mem_moves_toAcceptor_iff.mpr hmove, rfl⟩

/-- Single symbols accept the words over the alphabet that the ranges accept. -/
theorem accepts_toAcceptor_iff :
    (a.toAcceptor A).Accepts w ↔ (∀ c ∈ w, c ∈ A) ∧ a.Accepts w := by
  rw [Acceptor.accepts_iff_reaches, accepts_iff_arrives]
  simp only [← Acceptor.arrives_iff_reaches, Machine.arrives_iff_readsBetween, isInitial_toAcceptor,
    isAccepting_toAcceptor, readsBetween_toAcceptor_iff]
  constructor
  · rintro ⟨q, ⟨p, hp, hw, hbetween⟩, hq⟩
    exact ⟨hw, q, ⟨p, hp, hbetween⟩, hq⟩
  · rintro ⟨hw, q, ⟨p, hp, hbetween⟩, hq⟩
    exact ⟨q, ⟨p, hp, hw, hbetween⟩, hq⟩

/-- A range acceptor recognizes the words that some run from an initial to an accepting state
reads, each symbol inside the range of its move, and the acceptor over an alphabet recognizes those
of them that are words over the alphabet. -/
theorem recognizes_over_alphabet (a : RangeAcceptor) (ha : a.WellFormed) (A : List Char)
    (w : Word) :
    (a.recognizes w = true ↔ a.Accepts w) ∧
    ((a.toAcceptor A).recognizes w = true ↔ (∀ c ∈ w, c ∈ A) ∧ a.recognizes w = true) := by
  have hover : (a.toAcceptor A).Closed := (wellFormed_toAcceptor ha).closed
  refine ⟨recognizes_iff ha.closed, ?_⟩
  rw [Acceptor.recognizes_iff hover, accepts_toAcceptor_iff, recognizes_iff ha.closed]

/-- A letter, of which `g` to `m` lie in two ranges and the last ones in a range that is given
twice, and then digits.  A silent cycle leads through all states. -/
def overlapping : RangeAcceptor where
  nodes := #[{ initial := true, moves := [(some ('a', 'm'), 1), (some ('g', 'z'), 1),
      (some ('g', 'z'), 1), (none, 2)] },
    { accepting := true, moves := [(none, 0)] },
    { moves := [(none, 1), (some ('0', '9'), 2)] }]

/-- The digit is read behind two silent moves, if it is a symbol of the alphabet. -/
theorem recognizes_over_alphabet_overlapping : overlapping.WellFormed ∧
    overlapping.recognizes ['h', '5'] = true ∧
    (overlapping.toAcceptor ['5', 'h']).recognizes ['h', '5'] = true ∧
    (overlapping.toAcceptor ['h']).recognizes ['h', '5'] = false := by
  have ha : overlapping.WellFormed := by decide
  have hover := fun A => recognizes_over_alphabet overlapping ha A ['h', '5']
  have accepted : overlapping.Accepts ['h', '5'] :=
    ⟨0, [(some ('g', 'z'), 1), (none, 0), (none, 2), (some ('0', '9'), 2), (none, 1)],
      ⟨rfl, 1, by simp [overlapping, Machine.moves], rfl⟩,
      .symbol rfl (.silent (.silent (.symbol rfl (.silent .nil))))⟩
  have recognized := (hover []).1.mpr accepted
  refine ⟨ha, recognized, (hover ['5', 'h']).2.mpr ⟨by simp, recognized⟩, ?_⟩
  rw [Bool.eq_false_iff, ne_eq, (hover ['h']).2]
  rintro ⟨hmem, _⟩
  exact absurd (hmem '5' (by simp)) (by decide)

/-! ### Silent closures of both acceptors -/

@[simp] theorem size_toAcceptor : (a.toAcceptor A).size = a.size := by
  simp [toAcceptor, Machine.size]

/-- The closure of a state is found in the same way over single symbols. -/
theorem silentClosure_toAcceptor (ha : a.WellFormed) (hq : q < a.size) :
    (a.toAcceptor A).silentClosure Option.isNone q = a.silentClosure Option.isNone q := by
  have hover : (a.toAcceptor A).Closed := (wellFormed_toAcceptor ha).closed
  refine StateSet.ext fun t => ?_
  rw [Machine.mem_silentClosure hover (by rwa [size_toAcceptor]),
    Machine.mem_silentClosure ha.closed hq, ← Machine.reflTransGen_silent_iff,
    ← Machine.reflTransGen_silent_iff]
  simp only [silent_mem_moves_toAcceptor_iff]

/-- An alphabet changes nothing about the states that silent moves lead to. -/
theorem silentlyReachable_toAcceptor (ha : a.WellFormed) (A : List Char) (q : Nat) :
    (a.toAcceptor A).silentlyReachable q = a.silentlyReachable q := by
  rw [Acceptor.silentlyReachable, size_toAcceptor]
  by_cases hq : q < a.size
  · rw [if_pos hq, silentClosure_toAcceptor ha hq, silentlyReachable, closures_eq ha.closed,
      Machine.getElem?_silentClosures hq, Option.elim_some]
  · rw [if_neg hq, silentlyReachable_eq_nil (Nat.le_of_not_lt hq)]

end RangeAcceptor

namespace Acceptor

variable {a : Acceptor} {q t : Nat}

/-- A silent move leads from one state to the other. -/
abbrev SilentMove (a : Acceptor) (q t : Nat) : Prop := (none, t) ∈ a.moves q

/-- The states listed for a state are those of its closure. -/
theorem mem_silentlyReachable_iff (ha : a.Closed) (hq : q < a.size) :
    t ∈ a.silentlyReachable q ↔ Relation.ReflTransGen a.SilentMove q t := by
  rw [silentlyReachable, if_pos hq, StateSet.mem_toList, Machine.mem_silentClosure ha hq,
    Machine.reflTransGen_silent_iff]

end Acceptor

/-- The states listed as silently reachable are those that zero or more silent moves lead to, for
acceptors and for range acceptors.  A range acceptor lists the same states as the acceptor over any
alphabet, of any number, whether it is a state or not. -/
theorem silentlyReachable_exact :
    (∀ a : Acceptor, a.WellFormed → ∀ q < a.size, ∀ t,
      t ∈ a.silentlyReachable q ↔ Relation.ReflTransGen a.SilentMove q t) ∧
    ∀ a : RangeAcceptor, a.WellFormed →
      (∀ q < a.size, ∀ t,
        t ∈ a.silentlyReachable q ↔ Relation.ReflTransGen a.SilentMove q t) ∧
      ∀ (A : List Char) (q : Nat),
        a.silentlyReachable q = (a.toAcceptor A).silentlyReachable q := by
  refine ⟨fun a ha q hq t => Acceptor.mem_silentlyReachable_iff ha.closed hq, fun a ha => ⟨?_, ?_⟩⟩
  · exact fun q hq t => RangeAcceptor.mem_silentlyReachable_iff hq
  · exact fun A q => (RangeAcceptor.silentlyReachable_toAcceptor ha A q).symm

/-- Two states on a silent cycle, and one that is left by a silent move and entered by `a` only. -/
def cycleWithEntry : Acceptor where
  nodes := #[{ initial := true, moves := [(none, 1)] },
    { moves := [(none, 0), (some 'a', 2)] },
    { accepting := true, moves := [(none, 0)] }]

/-- The cycle is closed but for the state that a symbol leads to, and from there all states are
reached.  The digits of the other machine are reached without a digit in its alphabet. -/
theorem silentlyReachable_exact_cycleWithEntry :
    cycleWithEntry.WellFormed ∧ RangeAcceptor.overlapping.WellFormed ∧
    0 ∈ cycleWithEntry.silentlyReachable 1 ∧ 2 ∉ cycleWithEntry.silentlyReachable 1 ∧
    1 ∈ cycleWithEntry.silentlyReachable 2 ∧
    2 ∈ RangeAcceptor.overlapping.silentlyReachable 1 ∧
    2 ∈ (RangeAcceptor.overlapping.toAcceptor []).silentlyReachable 1 := by
  have hcycle : cycleWithEntry.WellFormed := by decide
  have hranges : RangeAcceptor.overlapping.WellFormed := by decide
  have reached {q : Nat} (hq : q < cycleWithEntry.size) (t : Nat) :=
    silentlyReachable_exact.1 cycleWithEntry hcycle q hq t
  obtain ⟨listed, same⟩ := silentlyReachable_exact.2 RangeAcceptor.overlapping hranges
  have back : cycleWithEntry.SilentMove 1 0 := by decide
  have forth : cycleWithEntry.SilentMove 0 1 := by decide
  have leave : cycleWithEntry.SilentMove 2 0 := by decide
  have digits : 2 ∈ RangeAcceptor.overlapping.silentlyReachable 1 :=
    (listed 1 (by decide) 2).mpr ((Relation.ReflTransGen.single
      (by decide : RangeAcceptor.overlapping.SilentMove 1 0)).tail (by decide))
  refine ⟨hcycle, hranges, (reached (by decide) 0).mpr (.single back), fun hmem => ?_,
    (reached (by decide) 1).mpr ((Relation.ReflTransGen.single leave).tail forth), digits,
    same [] 1 ▸ digits⟩
  -- silent moves that start on the cycle stay on it
  have step : ∀ q < 2, ∀ move ∈ cycleWithEntry.moves q, move.1 = none → move.2 < 2 := by decide
  have stays {t : Nat} (h : Relation.ReflTransGen cycleWithEntry.SilentMove 1 t) : t < 2 := by
    induction h with
    | refl => exact Nat.lt_succ_self 1
    | tail _ hmove ih => exact step _ ih _ hmove rfl
  exact absurd (stays ((reached (by decide) 2).mp hmem)) (Nat.lt_irrefl 2)

end Transduction
