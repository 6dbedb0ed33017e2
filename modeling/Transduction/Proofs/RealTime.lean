/-
The outputs of a word.

A transducer relates words by its accepted runs, silent moves included, while
`process` folds the silent moves away first.  Both agree:

* `Transducer.mem_unboundedStates_iff` — the states that are refused are those with
  a writing silent move on a silent cycle;
* `Transducer.mem_silentOutputs_iff` — without such a state, fewer steps than there
  are states reach every output of a silent path;
* `RealTime.mem_process_iff` — the outputs of a word are those of its runs;
* `Transducer.toRealTime_eq_error_iff_infinite` — a transducer is refused exactly
  when some word has infinitely many outputs;
* `Transducer.process_iff_relates` — what is refused, and the outputs otherwise.

The invariant behind the second statement: where no silent cycle writes, a silent
path that visits a state twice writes nothing in between, so it has a shorter
path with the same ends and the same output.
-/
import Mathlib.Data.Set.Finite.Basic
import Mathlib.Order.Bounds.Basic
import Transduction.Proofs.Simulation
import Transduction.Proofs.Trim
import Transduction.Transducer.RealTime

namespace Transduction

open Machine (lt_size_of_mem_moves)

theorem readsOf_eq_nil_iff {ls : List (Option Char × Word)} :
    readsOf ls = [] ↔ ∀ l ∈ ls, l.1 = none := by
  simp [readsOf, List.filterMap_eq_nil_iff]

namespace Transducer

variable {m : Transducer} {p q r : Nat} {u v w x y : Word}

/-! ### Silent paths -/

/-- A path of silent moves that writes the word. -/
def SilentPath (m : Transducer) (p : Nat) (v : Word) (q : Nat) : Prop :=
  ∃ ls, Path m.moves p ls q ∧ readsOf ls = [] ∧ writesOf ls = v

theorem SilentPath.nil (q : Nat) : m.SilentPath q [] q := ⟨[], .nil q, rfl, rfl⟩

theorem SilentPath.cons (h : ((none, w), q) ∈ m.moves p) (h' : m.SilentPath q v r) :
    m.SilentPath p (w ++ v) r := by
  obtain ⟨ls, hpath, hreads, rfl⟩ := h'
  exact ⟨(none, w) :: ls, .cons h hpath, by simpa using hreads, rfl⟩

theorem SilentPath.append (h : m.SilentPath p v q) (h' : m.SilentPath q w r) :
    m.SilentPath p (v ++ w) r := by
  obtain ⟨ls, hpath, hreads, rfl⟩ := h
  obtain ⟨more, hpath', hreads', rfl⟩ := h'
  exact ⟨ls ++ more, hpath.append hpath', by simp [hreads, hreads'], by simp⟩

theorem mem_silentMoves : (q, w) ∈ m.silentMoves p ↔ ((none, w), q) ∈ m.moves p := by
  simp only [silentMoves, List.mem_filterMap]
  constructor
  · rintro ⟨⟨⟨l, w'⟩, t⟩, hmem, h⟩
    split at h
    · rename_i hl
      cases h
      exact hl ▸ hmem
    · cases h
  · exact fun h => ⟨((none, w), q), h, rfl⟩

/-- The state has a silent move that writes and lies on a silent cycle. -/
def WritesOnCycle (m : Transducer) (q : Nat) : Prop :=
  ∃ w t v, ((none, w), t) ∈ m.moves q ∧ w ≠ [] ∧ m.SilentPath t v q

theorem mem_unboundedStates_iff (hm : m.Closed) : q ∈ m.unboundedStates ↔ m.WritesOnCycle q := by
  -- That the target leads back is looked up in its closure.
  have back_iff {t : Nat} (ht : t < m.size) :
      (((m.silentClosures fun l => l.1.isNone)[t]?).getD .empty).contains q = true ↔
        ∃ v, m.SilentPath t v q := by
    rw [Machine.getElem?_silentClosures ht, Option.getD_some, ← StateSet.mem_def,
      Machine.mem_silentClosure hm ht]
    simp only [SilentPath, readsOf_eq_nil_iff, Option.isNone_iff_eq_none]
    constructor
    · rintro ⟨ls, hpath, hs⟩
      exact ⟨_, ls, hpath, hs, rfl⟩
    · rintro ⟨_, ls, hpath, hs, _⟩
      exact ⟨ls, hpath, hs⟩
  simp only [unboundedStates, List.mem_filter, List.mem_range, List.any_eq_true, Bool.and_eq_true,
    Bool.not_eq_true', List.isEmpty_eq_false_iff]
  constructor
  · rintro ⟨_, ⟨t, w⟩, hmem, hw, hback⟩
    rw [mem_silentMoves] at hmem
    obtain ⟨v, hv⟩ := (back_iff (hm _ _ _ hmem)).mp hback
    exact ⟨w, t, v, hmem, hw, hv⟩
  · rintro ⟨w, t, v, hmem, hw, hv⟩
    exact ⟨lt_size_of_mem_moves hmem, (t, w), mem_silentMoves.mpr hmem, hw,
      (back_iff (hm _ _ _ hmem)).mpr ⟨v, hv⟩⟩

/-- Without a writing silent cycle, a silent loop writes nothing. -/
theorem writesOf_eq_nil_of_loop (hb : ∀ q, ¬m.WritesOnCycle q) {ls : List (Option Char × Word)}
    (h : Path m.moves q ls q) (hs : readsOf ls = []) : writesOf ls = [] := by
  refine List.flatMap_eq_nil_iff.mpr fun l hl => ?_
  by_contra hw
  obtain ⟨front, back, rfl⟩ := List.append_of_mem hl
  obtain ⟨s, hfront, hrest⟩ := path_append_iff.mp h
  obtain ⟨t, hmove, hback⟩ := path_cons_iff.mp hrest
  obtain ⟨c, w⟩ := l
  obtain rfl : c = none := readsOf_eq_nil_iff.mp hs (c, w) (by simp)
  rw [readsOf_append, readsOf_cons, List.append_eq_nil_iff] at hs
  -- from behind the move around the rest of the loop to its start
  exact hb s ⟨w, t, _, hmove, hw, back ++ front, hback.append hfront, by simp_all, rfl⟩

/-- Without a writing silent cycle, every output of a silent path is reached in
fewer steps than there are states. -/
theorem SilentPath.exists_short (hm : m.Closed) (hb : ∀ q, ¬m.WritesOnCycle q) (hp : p < m.size)
    (h : m.SilentPath p v q) :
    ∃ ls, Path m.moves p ls q ∧ readsOf ls = [] ∧ writesOf ls = v ∧ ls.length < m.size := by
  obtain ⟨ls, hpath, hs, rfl⟩ := h
  induction hn : ls.length using Nat.strongRecOn generalizing ls with
  | ind n ih =>
    subst hn
    rcases hpath.exists_loop with ⟨visited, hlen, hnodup, hsplit⟩ |
      ⟨front, loop, back, s, rfl, hne, hfront, hloop, hback⟩
    -- all states differ, so there are no more of them than states
    · refine ⟨ls, hpath, hs, rfl, ?_⟩
      have hsub : visited ⊆ List.range m.size := fun s hs => by
        obtain ⟨front, _, _, hfront, _⟩ := hsplit s hs
        exact List.mem_range.mpr (hm.path_lt hfront hp)
      have := (hnodup.subperm hsub).length_le
      rw [List.length_range] at this
      omega
    -- a loop is left out
    · have hnone := readsOf_eq_nil_iff.mp hs
      have hwrite : writesOf loop = [] :=
        writesOf_eq_nil_of_loop hb hloop (readsOf_eq_nil_iff.mpr fun l hl => hnone l (by simp [hl]))
      have hpos : 0 < loop.length := List.length_pos_iff.mpr hne
      obtain ⟨short, h1, h2, h3, h4⟩ := ih (front ++ back).length (by simp; omega)
        (front ++ back) (hfront.append hback)
        (readsOf_eq_nil_iff.mpr fun l hl => hnone l (by
          rcases List.mem_append.mp hl with h | h <;> simp [h])) rfl
      exact ⟨short, h1, h2, by simpa [hwrite] using h3, h4⟩

/-- The pairs found are the ends and outputs of the silent paths. -/
theorem mem_silentOutputs_iff (hm : m.Closed) (hb : ∀ q, ¬m.WritesOnCycle q) (hp : p < m.size) :
    (q, v) ∈ m.silentOutputs p ↔ m.SilentPath p v q := by
  set extend : Nat × Word → List (Nat × Word) := fun reached =>
    (m.silentMoves reached.1).map fun move => (move.1, reached.2 ++ move.2) with hextend
  have mem_extend {a t : Nat} {b c : Word} :
      (t, c) ∈ extend (a, b) ↔ ∃ w, ((none, w), t) ∈ m.moves a ∧ c = b ++ w := by
    simp only [hextend, List.mem_map, Prod.mk.injEq]
    constructor
    · rintro ⟨⟨t', w⟩, hmem, rfl, rfl⟩
      exact ⟨w, mem_silentMoves.mp hmem, rfl⟩
    · rintro ⟨w, hmem, rfl⟩
      exact ⟨(t, w), mem_silentMoves.mpr hmem, rfl, rfl⟩
  rw [silentOutputs, List.mem_map]
  constructor
  · -- each state and output that the search finds is that of a silent path
    rintro ⟨entry, h, he⟩
    suffices m.SilentPath p entry.1.2 entry.1.1 by rwa [he] at this
    refine forall_mem_explore (P := fun k => m.SilentPath p k.2 k.1) h ?_ ?_
    · intro k hk
      obtain rfl := List.mem_singleton.mp hk
      exact .nil p
    · rintro ⟨a, b⟩ hk ⟨t, c⟩ ht
      obtain ⟨w, hmove, rfl⟩ := mem_extend.mp ht
      exact hk.append ⟨[(none, w)], .single hmove, rfl, by simp⟩
  · -- what no cycle writes on has a path without cycles, which is within the rounds of the search
    intro h
    obtain ⟨ls, hpath, hs, rfl, hlen⟩ := h.exists_short hm hb hp
    have steps : ∀ {ls : List (Option Char × Word)} {a b : Nat} {u : Word}, Path m.moves a ls b →
        readsOf ls = [] → Steps extend ls.length (a, u) (b, u ++ writesOf ls) := by
      intro ls a b u hpath hs
      induction hpath generalizing u with
      | nil k => simpa using Steps.zero (k, u)
      | @cons k t r l ls hl _ ih =>
        obtain ⟨c, w⟩ := l
        obtain rfl : c = none := readsOf_eq_nil_iff.mp hs (c, w) List.mem_cons_self
        have rest := ih (u := u ++ w) (by simpa using hs)
        rw [List.append_assoc] at rest
        exact .succ (mem_extend.mpr ⟨w, hl, rfl⟩) rest
    exact ⟨((q, writesOf ls), extend (q, writesOf ls)),
      mem_explore_of_steps (Function.injective_id) (List.mem_singleton_self _)
        (steps (u := []) hpath hs) hlen, rfl⟩

/-- The states that silent moves lead to, with whatever output, exist. -/
theorem lt_size_of_mem_silentOutputs (hm : m.Closed) (hq : q < m.size)
    (h : (p, v) ∈ m.silentOutputs q) : p < m.size := by
  obtain ⟨⟨reached, moves⟩, hentry, he⟩ := List.mem_map.mp h
  obtain rfl : reached = (p, v) := he
  refine forall_mem_explore (P := fun reached => reached.1 < m.size) hentry (fun k hk => ?_)
    fun k _ t ht => ?_
  · obtain rfl := List.mem_singleton.mp hk
    exact hq
  · obtain ⟨⟨s, w⟩, hmove, rfl⟩ := List.mem_map.mp ht
    exact hm _ _ _ (mem_silentMoves.mp hmove)

end Transducer

/-! ### Runs of real-time transducers -/

namespace RealTime

variable {m : RealTime} {p q r : Nat} {u v w x y : Word}

/-- The moves read the first word, write the second and lead from one state to
another. -/
inductive Run (m : RealTime) : Nat → Word → Word → Nat → Prop where
  | nil (q : Nat) : Run m q [] [] q
  | cons {q t r : Nat} {c : Char} {w x y : Word} :
      (c, w, t) ∈ m.moves q → Run m t x y r → Run m q (c :: x) (w ++ y) r

/-- From the state on, the first word can be read to its end and the second one
written, the final output included. -/
inductive Completes (m : RealTime) : Nat → Word → Word → Prop where
  | nil {q : Nat} {v : Word} : v ∈ m.finalOutputs q → Completes m q [] v
  | cons {q t : Nat} {c : Char} {w x y : Word} :
      (c, w, t) ∈ m.moves q → Completes m t x y → Completes m q (c :: x) (w ++ y)

/-- Some initial state completes the word. -/
def Relates (m : RealTime) (x y : Word) : Prop := ∃ q, m.isInitial q = true ∧ m.Completes q x y

theorem run_nil_iff : m.Run q [] y r ↔ q = r ∧ y = [] := by
  constructor
  · rintro ⟨⟩
    exact ⟨rfl, rfl⟩
  · rintro ⟨rfl, rfl⟩
    exact .nil q

theorem run_cons_iff {c : Char} :
    m.Run q (c :: x) y r ↔ ∃ w t z, (c, w, t) ∈ m.moves q ∧ m.Run t x z r ∧ y = w ++ z := by
  constructor
  · rintro (_ | ⟨hmem, hrun⟩)
    exact ⟨_, _, _, hmem, hrun, rfl⟩
  · rintro ⟨w, t, z, hmem, hrun, rfl⟩
    exact .cons hmem hrun

theorem Run.append {z : Word} (h : m.Run p x y q) (h' : m.Run q v z r) :
    m.Run p (x ++ v) (y ++ z) r := by
  induction h with
  | nil => exact h'
  | cons hmem _ ih => exact List.append_assoc _ _ _ ▸ .cons hmem (ih h')

/-- A word is completed in two parts: a run, and a completion behind it. -/
theorem completes_append_iff :
    m.Completes q (x ++ v) y ↔
      ∃ r w z, m.Run q x w r ∧ m.Completes r v z ∧ y = w ++ z := by
  induction x generalizing q y with
  | nil =>
    simp only [List.nil_append, run_nil_iff]
    constructor
    · exact fun h => ⟨q, [], y, ⟨rfl, rfl⟩, h, rfl⟩
    · rintro ⟨r, w, z, ⟨rfl, rfl⟩, h, rfl⟩
      exact h
  | cons c x ih =>
    constructor
    · rintro (_ | ⟨hmem, h⟩)
      obtain ⟨r, w, z, hrun, hc, rfl⟩ := ih.mp h
      exact ⟨r, _, z, .cons hmem hrun, hc, by simp⟩
    · rintro ⟨r, w, z, hrun, hc, rfl⟩
      obtain ⟨w₁, t, w₂, hmem, hrest, rfl⟩ := run_cons_iff.mp hrun
      rw [List.append_assoc]
      exact .cons hmem (ih.mpr ⟨r, w₂, z, hrest, hc, rfl⟩)

theorem mem_initialStates : q ∈ m.initialStates ↔ m.isInitial q = true := by
  simp only [initialStates, List.mem_filter, List.mem_range, and_iff_right_iff_imp]
  intro h
  by_contra hq
  simp [isInitial, Array.getElem?_eq_none (Nat.le_of_not_lt hq)] at h

theorem mem_advance {current : Configurations} {c : Char} :
    (r, w) ∈ m.advance current c ↔
      ∃ q u, (q, u) ∈ current ∧ ∃ v, (c, v, r) ∈ m.moves q ∧ w = u ++ v := by
  simp only [advance, mem_ascending, List.mem_flatMap, List.mem_filterMap]
  constructor
  · rintro ⟨⟨q, u⟩, hq, ⟨d, v, t⟩, hmem, h⟩
    split at h
    · rename_i hd
      cases h
      exact ⟨q, u, hq, v, hd ▸ hmem, rfl⟩
    · cases h
  · rintro ⟨q, u, hq, v, hmem, rfl⟩
    exact ⟨(q, u), hq, (c, v, r), hmem, by simp⟩

theorem mem_foldl_advance {current : Configurations} :
    (r, w) ∈ x.foldl m.advance current ↔
      ∃ q u, (q, u) ∈ current ∧ ∃ v, m.Run q x v r ∧ w = u ++ v := by
  induction x generalizing current with
  | nil =>
    constructor
    · exact fun h => ⟨r, w, h, [], .nil r, by simp⟩
    · rintro ⟨q, u, hq, v, hrun, rfl⟩
      obtain ⟨rfl, rfl⟩ := run_nil_iff.mp hrun
      simpa using hq
  | cons c x ih =>
    rw [List.foldl_cons, ih]
    constructor
    · rintro ⟨q, u, hq, v, hrun, rfl⟩
      obtain ⟨q', u', hq', v', hmem, rfl⟩ := mem_advance.mp hq
      exact ⟨q', u', hq', v' ++ v, .cons hmem hrun, by simp⟩
    · rintro ⟨q, u, hq, v, hrun, rfl⟩
      obtain ⟨v', t, z, hmem, hrest, rfl⟩ := run_cons_iff.mp hrun
      exact ⟨t, u ++ v', mem_advance.mpr ⟨q, u, hq, v', hmem, rfl⟩, z, hrest, by simp⟩

/-- The outputs listed for a word are those of its runs. -/
theorem mem_process_iff : y ∈ m.process x ↔ m.Relates x y := by
  simp only [process, mem_ascending, List.mem_flatMap, List.mem_map]
  constructor
  · rintro ⟨⟨r, w⟩, hr, z, hz, rfl⟩
    obtain ⟨q, u, hq, v, hrun, rfl⟩ := mem_foldl_advance.mp hr
    obtain ⟨q', hq', he⟩ := List.mem_map.mp hq
    cases he
    refine ⟨q, mem_initialStates.mp hq', ?_⟩
    rw [← List.append_nil x]
    exact completes_append_iff.mpr ⟨r, v, z, hrun, .nil hz, by simp⟩
  · rintro ⟨q, hq, hc⟩
    rw [← List.append_nil x] at hc
    obtain ⟨r, w, z, hrun, hfinal, rfl⟩ := completes_append_iff.mp hc
    have hstart : (q, []) ∈ m.initialStates.map fun q => (q, ([] : Word)) :=
      List.mem_map.mpr ⟨q, mem_initialStates.mpr hq, rfl⟩
    cases hfinal with
    | nil hz => exact ⟨(r, w), mem_foldl_advance.mpr ⟨q, [], hstart, w, hrun, rfl⟩, z, hz, rfl⟩

theorem process_pairwise (m : RealTime) (x : Word) :
    (m.process x).Pairwise fun y z => compare y z = .lt :=
  ascending_pairwise _

end RealTime

/-! ### The real-time form of a transducer -/

namespace Transducer

variable {m : Transducer} {p q r : Nat} {u v w x y : Word}

/-- The transducer with its silent moves folded away. -/
def folded (m : Transducer) : RealTime where
  nodes := Array.ofFn fun q : Fin m.size => m.realTimeNode q.val

@[simp] theorem size_folded : m.folded.size = m.size := by simp [folded, RealTime.size]

theorem isInitial_folded : m.folded.isInitial q = m.isInitial q := by
  by_cases hq : q < m.size
  · simp [RealTime.isInitial, folded, realTimeNode, hq]
  · rw [Bool.eq_iff_iff]
    constructor
    · intro h
      simp [RealTime.isInitial, folded, hq] at h
    · exact fun h => absurd (Machine.lt_size_of_isInitial h) hq

section folded

variable (hm : m.Closed) (hb : ∀ q, ¬m.WritesOnCycle q)

include hm hb

theorem mem_moves_folded {c : Char} (hq : q < m.size) :
    (c, u, r) ∈ m.folded.moves q ↔
      ∃ p v w, m.SilentPath q v p ∧ ((some c, w), r) ∈ m.moves p ∧ u = v ++ w := by
  simp only [RealTime.moves, folded, realTimeNode, Array.getElem?_ofFn, hq, dite_true,
    Option.elim_some, mem_ascending, List.mem_flatMap, List.mem_filterMap, Option.map_eq_some_iff]
  constructor
  · rintro ⟨⟨p, v⟩, hp, ⟨⟨l, w⟩, t⟩, hmem, c', rfl, he⟩
    cases he
    exact ⟨p, v, w, (mem_silentOutputs_iff hm hb hq).mp hp, hmem, rfl⟩
  · rintro ⟨p, v, w, hp, hmem, rfl⟩
    exact ⟨(p, v), (mem_silentOutputs_iff hm hb hq).mpr hp, ((some c, w), r), hmem, c, rfl, rfl⟩

theorem mem_finalOutputs_folded (hq : q < m.size) :
    v ∈ m.folded.finalOutputs q ↔ ∃ p, m.SilentPath q v p ∧ m.isAccepting p = true := by
  simp only [RealTime.finalOutputs, folded, realTimeNode, Array.getElem?_ofFn, hq, dite_true,
    Option.elim_some, mem_ascending, List.mem_filterMap]
  constructor
  · rintro ⟨⟨p, v'⟩, hp, h⟩
    split at h
    · cases h
      exact ⟨p, (mem_silentOutputs_iff hm hb hq).mp hp, by assumption⟩
    · cases h
  · rintro ⟨p, hp, ha⟩
    exact ⟨(p, v), (mem_silentOutputs_iff hm hb hq).mpr hp, by simp [ha]⟩

/-- A silent move in front is folded into whatever follows it. -/
theorem completes_folded_of_silent (h : ((none, w), q) ∈ m.moves p)
    (hc : m.folded.Completes q x y) : m.folded.Completes p x (w ++ y) := by
  have hp := lt_size_of_mem_moves h
  have hq := hm _ _ _ h
  cases hc with
  | nil hv =>
    obtain ⟨r, hr, ha⟩ := (mem_finalOutputs_folded hm hb hq).mp hv
    exact .nil ((mem_finalOutputs_folded hm hb hp).mpr ⟨r, hr.cons h, ha⟩)
  | cons hmove hc =>
    obtain ⟨s, v, w', hs, hmem, rfl⟩ := (mem_moves_folded hm hb hq).mp hmove
    rw [← List.append_assoc]
    exact .cons ((mem_moves_folded hm hb hp).mpr ⟨s, w ++ v, w', hs.cons h, hmem, by simp⟩) hc

/-- The folded transducer completes a word in a state as the paths from there do. -/
theorem completes_folded_iff (hq : q < m.size) :
    m.folded.Completes q x y ↔
      ∃ ls r, Path m.moves q ls r ∧ m.isAccepting r = true ∧ readsOf ls = x ∧ writesOf ls = y := by
  constructor
  · intro h
    induction h with
    | nil hv =>
      obtain ⟨r, ⟨ls, hpath, hreads, hwrites⟩, ha⟩ := (mem_finalOutputs_folded hm hb hq).mp hv
      exact ⟨ls, r, hpath, ha, hreads, hwrites⟩
    | cons hmove _ ih =>
      -- A folded move stands for silent moves and one that reads behind them.
      obtain ⟨s, v, w, ⟨ls, hpath, hreads, rfl⟩, hmem, rfl⟩ := (mem_moves_folded hm hb hq).mp hmove
      obtain ⟨more, r, hmore, ha, rfl, rfl⟩ := ih (hm _ _ _ hmem)
      exact ⟨ls ++ (some _, w) :: more, r, hpath.append (.cons hmem hmore), ha,
        by simp [hreads], by simp⟩
  · rintro ⟨ls, r, hpath, ha, rfl, rfl⟩
    -- A silent move is absorbed by whatever comes behind it.
    induction hpath with
    | nil r => exact .nil ((mem_finalOutputs_folded hm hb hq).mpr ⟨r, .nil r, ha⟩)
    | @cons p t r l ls hmem _ ih =>
      obtain ⟨c, w⟩ := l
      have rest := ih (hm _ _ _ hmem) ha
      cases c with
      | none => exact completes_folded_of_silent hm hb hmem rest
      | some c =>
        exact .cons ((mem_moves_folded hm hb hq).mpr ⟨p, [], w, .nil p, hmem, rfl⟩) rest

theorem relates_folded_iff : m.folded.Relates x y ↔ m.Relates x y := by
  rw [relates_iff]
  constructor
  · rintro ⟨q, hq, hc⟩
    rw [isInitial_folded] at hq
    obtain ⟨ls, r, hpath, ha, hx, hy⟩ :=
      (completes_folded_iff hm hb (Machine.lt_size_of_isInitial hq)).mp hc
    exact ⟨ls, ⟨q, r, hq, hpath, ha⟩, hx, hy⟩
  · rintro ⟨ls, ⟨q, r, hq, hpath, ha⟩, hx, hy⟩
    exact ⟨q, isInitial_folded.trans hq,
      (completes_folded_iff hm hb (Machine.lt_size_of_isInitial hq)).mpr
        ⟨ls, r, hpath, ha, hx, hy⟩⟩

end folded

/-! ### Which transducers are refused -/

theorem relates_trim (hm : m.Closed) : m.trim.Relates x y ↔ m.Relates x y := by
  simp only [relates_iff, trim, Machine.acceptsLabels_trim hm]

theorem toRealTime_eq_ok_iff (hm : m.Closed) {f : RealTime} :
    m.toRealTime = .ok f ↔ (∀ q, ¬m.trim.WritesOnCycle q) ∧ f = m.trim.folded := by
  have htrim : m.trim.Closed := (Machine.wellFormed_trim hm).closed
  simp only [← mem_unboundedStates_iff htrim, toRealTime]
  cases h : m.trim.unboundedStates with
  | nil => simp [folded, eq_comm]
  | cons q qs =>
    simp only [reduceCtorEq, false_iff, not_and]
    intro hq
    exact absurd (hq q) (by simp)

/-- The state that is named is the lowest one that writes on a silent cycle. -/
theorem toRealTime_eq_error_iff (hm : m.Closed) :
    m.toRealTime = .error (.unboundedOutput q) ↔ IsLeast {q | m.trim.WritesOnCycle q} q := by
  have htrim : m.trim.Closed := (Machine.wellFormed_trim hm).closed
  have ascends : m.trim.unboundedStates.Pairwise (· < ·) := List.pairwise_lt_range.filter _
  have mem_iff (p : Nat) : p ∈ {q | m.trim.WritesOnCycle q} ↔ p ∈ m.trim.unboundedStates :=
    (mem_unboundedStates_iff htrim).symm
  rw [toRealTime]
  cases h : m.trim.unboundedStates with
  | nil =>
    simp only [reduceCtorEq, false_iff]
    intro hq
    have := (mem_iff q).mp hq.1
    simp [h] at this
  | cons p ps =>
    rw [h] at ascends
    simp only [Except.error.injEq, TransducerError.unboundedOutput.injEq]
    -- The states are found in ascending order, so the first one is the least.
    have least : IsLeast {q | m.trim.WritesOnCycle q} p := by
      refine ⟨(mem_iff p).mpr (by simp [h]), fun s hs => ?_⟩
      have := (mem_iff s).mp hs
      rw [h] at this
      rcases List.mem_cons.mp this with rfl | hs
      · exact le_refl _
      · exact ((List.pairwise_cons.mp ascends).1 s hs).le
    constructor
    · rintro rfl
      exact least
    · exact fun hq => IsLeast.unique least hq

/-- A state of a trimmed transducer that writes on a silent cycle gives some word
an output for each number of rounds on the cycle. -/
theorem exists_infinite_of_writesOnCycle (hm : m.Closed) (h : m.trim.WritesOnCycle q) :
    ∃ x, {y | m.Relates x y}.Infinite := by
  obtain ⟨w, t, v, hmove, hw, hback⟩ := h
  obtain ⟨⟨p, front, hp, hfront⟩, r, back, hpath, hr⟩ :=
    Machine.exists_paths_of_mem_moves_trim hm hmove
  have cycle : m.trim.SilentPath q (w ++ v) q := hback.cons hmove
  have rounds (n : Nat) : m.trim.SilentPath q (List.replicate n (w ++ v)).flatten q := by
    induction n with
    | zero => exact .nil q
    | succ n ih => exact List.replicate_succ ▸ cycle.append ih
  refine ⟨readsOf front ++ readsOf back, Set.infinite_of_injective_forall_mem
    (f := fun n => writesOf front ++ (List.replicate n (w ++ v)).flatten ++ writesOf back) ?_ ?_⟩
  -- more rounds write a longer word
  · intro a b hab
    have hlen := congrArg List.length hab
    have hpos : 0 < (w ++ v).length := List.length_pos_iff.mpr (by simp [hw])
    simp only [List.length_append, List.length_flatten, List.map_replicate, List.sum_replicate_nat]
      at hlen hpos
    exact Nat.eq_of_mul_eq_mul_right hpos (by omega)
  · intro n
    obtain ⟨ls, hloop, hreads, hwrites⟩ := rounds n
    refine (relates_trim hm).mp (relates_iff.mpr ⟨front ++ ls ++ back,
      ⟨p, r, hp, (hfront.append hloop).append hpath, hr⟩, ?_, ?_⟩)
    · simp [hreads]
    · simp [hwrites]

theorem relates_of_toRealTime (hm : m.Closed) {f : RealTime} (hf : m.toRealTime = .ok f) :
    f.Relates x y ↔ m.Relates x y := by
  obtain ⟨hb, rfl⟩ := (toRealTime_eq_ok_iff hm).mp hf
  exact (relates_folded_iff (Machine.wellFormed_trim hm).closed hb).trans (relates_trim hm)

theorem finite_outputs_of_toRealTime (hm : m.Closed) {f : RealTime} (hf : m.toRealTime = .ok f)
    (x : Word) : {y | m.Relates x y}.Finite := by
  refine (List.finite_toSet (f.process x)).subset fun y hy => ?_
  exact RealTime.mem_process_iff.mpr ((relates_of_toRealTime hm hf).mpr hy)

/-- A transducer is refused exactly when some word has infinitely many outputs. -/
theorem toRealTime_eq_error_iff_infinite (hm : m.Closed) :
    (∃ q, m.toRealTime = .error (.unboundedOutput q)) ↔ ∃ x, {y | m.Relates x y}.Infinite := by
  constructor
  · rintro ⟨q, hq⟩
    exact exists_infinite_of_writesOnCycle hm ((toRealTime_eq_error_iff hm).mp hq).1
  · rintro ⟨x, hx⟩
    cases h : m.toRealTime with
    | error e => exact ⟨_, rfl⟩
    | ok f => exact absurd (finite_outputs_of_toRealTime hm h x) hx

theorem exists_toRealTime (hm : m.Closed) (h : ∀ x, {y | m.Relates x y}.Finite) :
    ∃ f, m.toRealTime = .ok f := by
  cases hf : m.toRealTime with
  | ok f => exact ⟨f, rfl⟩
  | error e =>
    obtain ⟨x, hx⟩ := (toRealTime_eq_error_iff_infinite hm).mp ⟨_, hf⟩
    exact absurd (h x) hx

/-- Processing fails on a word as the removal of silent moves fails. -/
theorem process_eq_error_iff {e : TransducerError} :
    m.process w = .error e ↔ m.toRealTime = .error e := by
  rw [process]
  cases m.toRealTime <;> simp [Except.map]

/-- The outputs of a word that is processed are those it is related to. -/
theorem mem_of_process_iff {ys : List Word} (hm : m.Closed) (h : m.process x = .ok ys) :
    y ∈ ys ↔ m.Relates x y := by
  cases hf : m.toRealTime with
  | error e =>
    rw [process, hf] at h
    cases h
  | ok f =>
    rw [process, hf] at h
    cases h
    exact RealTime.mem_process_iff.trans (relates_of_toRealTime hm hf)

/-- The outputs of a word that is processed are in ascending order. -/
theorem process_ascending {ys : List Word} (h : m.process x = .ok ys) :
    ys.Pairwise fun y z => compare y z = .lt := by
  cases hf : m.toRealTime with
  | error e =>
    rw [process, hf] at h
    cases h
  | ok f =>
    rw [process, hf] at h
    cases h
    exact f.process_pairwise x

/-- A list in ascending order with one member. -/
theorem eq_singleton_of_ascending {ys : List Word} {z : Word}
    (hascending : ys.Pairwise fun y z => compare y z = .lt) (hmem : ∀ y, y ∈ ys ↔ y = z) :
    ys = [z] := by
  cases ys with
  | nil => exact absurd ((hmem z).mpr rfl) List.not_mem_nil
  | cons y ys =>
    obtain rfl := (hmem y).mp List.mem_cons_self
    refine congrArg (y :: ·) (List.eq_nil_iff_forall_not_mem.mpr fun z hz => ?_)
    obtain rfl := (hmem z).mp (List.mem_cons_of_mem y hz)
    have hlt := (List.pairwise_cons.mp hascending).1 z hz
    rw [Std.ReflOrd.compare_self] at hlt
    cases hlt

/-- Where all words have finitely many outputs, processing lists them. -/
theorem exists_process (hm : m.Closed) (h : ∀ x, {y | m.Relates x y}.Finite) (w : Word) :
    ∃ ys, m.process w = .ok ys ∧ (ys.Pairwise fun y z => compare y z = .lt) ∧
      ∀ y, y ∈ ys ↔ m.Relates w y := by
  obtain ⟨f, hf⟩ := exists_toRealTime hm h
  refine ⟨f.process w, by rw [process, hf]; rfl, f.process_pairwise w, fun y => ?_⟩
  exact RealTime.mem_process_iff.trans (relates_of_toRealTime hm hf)

/-- A transducer is refused exactly when some word has infinitely many outputs, at
the lowest state that writes on a silent cycle once it is trimmed; any other
transducer lists the outputs of all accepted runs on a word, each once. -/
theorem outputs_exact (m : Transducer) (hm : m.WellFormed) :
    ((∃ q, m.toRealTime = .error (.unboundedOutput q)) ↔ ∃ x, {y | m.Relates x y}.Infinite) ∧
    (∀ q, m.toRealTime = .error (.unboundedOutput q) ↔ IsLeast {q | m.trim.WritesOnCycle q} q) ∧
    (∀ w e, m.process w = .error e ↔ m.toRealTime = .error e) ∧
    ((∀ x, {y | m.Relates x y}.Finite) → ∀ w, ∃ ys, m.process w = .ok ys ∧
      (ys.Pairwise fun y z => compare y z = .lt) ∧ ∀ y, y ∈ ys ↔ m.Relates w y) :=
  ⟨toRealTime_eq_error_iff_infinite hm.closed, fun _ => toRealTime_eq_error_iff hm.closed,
    fun _ _ => process_eq_error_iff, exists_process hm.closed⟩

/-- Writes `x` on a silent cycle through both of its states. -/
def writingCycle : Transducer where
  nodes := #[{ initial := true, moves := [((none, ['x']), 1)] },
    { accepting := true, moves := [((none, []), 0)] }]

/-- The cycle is refused at state 0, so some word has infinitely many outputs. -/
theorem outputs_exact_writingCycle :
    writingCycle.WellFormed ∧ writingCycle.toRealTime = .error (.unboundedOutput 0) ∧
      IsLeast {q | writingCycle.trim.WritesOnCycle q} 0 ∧
      ∃ x, {y | writingCycle.Relates x y}.Infinite :=
  have hm : writingCycle.WellFormed := by decide
  have refused : writingCycle.toRealTime = .error (.unboundedOutput 0) := by decide
  have exact := outputs_exact writingCycle hm
  ⟨hm, refused, (exact.2.1 0).mp refused, exact.1.mp ⟨0, refused⟩⟩

end Transducer

end Transduction
