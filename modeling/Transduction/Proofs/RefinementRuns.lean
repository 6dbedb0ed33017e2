/-
Refinement from its first table to its last.

The moves of single states, one after the other, make up the splits, the passes and the loop of
refinement.  So what holds at every step holds on the way to the table that minimization uses:

* `Refining.exists_reached_refine` — the steps lead to the table that refinement ends with, if
  there are no more passes than it takes;
* `Refining.OneClass` — what becomes of one class that has the number of the next;
* `Refining.Reached.passes_le` — the passes of the refinement by acceptance, of any automaton;
* `Dfa.refinement_exact` — refinement by acceptance: the table at every step, the numbers of
  new classes, the passes that move no state, and where it ends.

An automaton that is loaded may have more marks than states.  If all of its states are marked
and some further mark is missing, then they are one class with the number of the next, and a
split moves its members nowhere.  It may also have moves on symbols that its alphabet misses,
which refinement does not look at, or no states at all, and one pass goes over none.
-/
import Transduction.Bimachine.Saved
import Transduction.Proofs.Distinguishing
import Transduction.Proofs.RefinementSteps

namespace Transduction

namespace ClassTable

variable {t : ClassTable} {k n : Nat}

/-- A table that puts all states into one class has one class. -/
theorem Valid.classCount_eq_one (ht : t.Valid) (hn : t.Covers n) (hpos : 0 < n)
    (hsame : ∀ q < n, t.classOf[q]? = some k) : t.classCount = 1 := by
  rw [ht.classCount_eq hn, Finset.card_eq_one]
  refine ⟨k, Finset.ext fun j => ?_⟩
  rw [hn.mem_image, Finset.mem_singleton]
  constructor
  · rintro ⟨q, hq⟩
    exact Option.some.inj (hq.symm.trans (hsame q ((hn q).mp ⟨j, hq⟩)))
  · rintro rfl
    exact ⟨0, hsame 0 hpos⟩

end ClassTable

namespace Refining

variable {d : Dfa} {visit : ClassTable → List (List Nat)} {partition members moved : List Nat}
  {classes : List (List Nat)} {leaving : List (Nat × Nat)} {t : ClassTable} {s s' : Refining}
  {n k q fresh before passes bound rounds : Nat}

/-! ### Steps that make up a pass -/

/-- A split moves the members that leave, if there are any. -/
theorem splitClass_eq : d.splitClass (t, fresh) members =
    if d.outliers t members = [] then (t, fresh)
    else ((d.outliers t members).foldl (fun t q => t.assign q fresh) t, fresh + 1) := by
  cases members with
  | nil => rfl
  | cons first rest =>
    rw [Dfa.splitClass, Dfa.outliers]
    cases (first :: rest).filter fun q => !d.agree t q first <;> simp

/-- All states that are about to move do so. -/
theorem Reached.moves {leaving : List Nat} (h : Reached d visit partition
    ⟨t, fresh, leaving.map fun q => (q, k), classes, before, moved, passes⟩) :
    ∃ moved', Reached d visit partition ⟨leaving.foldl (fun t q => t.assign q k) t, fresh, [],
      classes, before, moved', passes⟩ := by
  induction leaving generalizing t moved with
  | nil => exact ⟨moved, h⟩
  | cons q leaving ih => exact ih (h.step rfl)

theorem Reached.splitClass (h : Reached d visit partition
    ⟨t, fresh, [], members :: classes, before, moved, passes⟩) :
    ∃ moved', Reached d visit partition ⟨(d.splitClass (t, fresh) members).1,
      (d.splitClass (t, fresh) members).2, [], classes, before, moved', passes⟩ := by
  rw [splitClass_eq]
  split
  · rename_i hnone
    exact ⟨moved, h.step (by simp [Refining.step, hnone, keep])⟩
  · rename_i hsome
    obtain ⟨q, leaving, hleaving⟩ := List.exists_cons_of_ne_nil hsome
    have hsplit : Reached d visit partition
        ⟨t, fresh + 1, (d.outliers t members).map fun q => (q, fresh), classes, before, moved,
          passes⟩ := h.step (by simp [Refining.step, hleaving, split])
    exact hsplit.moves

theorem Reached.foldl_splitClass (h : Reached d visit partition
    ⟨t, fresh, [], classes, before, moved, passes⟩) :
    ∃ moved', Reached d visit partition ⟨(classes.foldl d.splitClass (t, fresh)).1,
      (classes.foldl d.splitClass (t, fresh)).2, [], [], before, moved', passes⟩ := by
  induction classes generalizing t fresh moved with
  | nil => exact ⟨moved, h⟩
  | cons members classes ih =>
    obtain ⟨moved', hsplit⟩ := h.splitClass
    exact ih hsplit

/-- The steps of a pass lead to the table and the number that the pass ends with. -/
theorem Reached.refinePass (h : Reached d visit partition (beginPass visit t fresh passes)) :
    ∃ moved, Reached d visit partition ⟨(d.refinePass visit t fresh).1,
      (d.refinePass visit t fresh).2, [], [], t.classCount, moved, passes⟩ :=
  h.foldl_splitClass

/-- The passes lead to the table that the loop ends with, if it makes more rounds than are
taken. -/
theorem exists_reached_refineLoop
    (hbound : ∀ s, Reached d visit partition s → s.passes ≤ bound)
    (h : Reached d visit partition (beginPass visit t fresh passes))
    (hrounds : bound < passes + rounds) :
    ∃ s, Reached d visit partition s ∧ s.step d visit = none ∧
      s.table = d.refineLoop visit rounds t fresh := by
  induction rounds generalizing t fresh passes with
  | zero =>
    -- Without rounds left there would have been more passes than the bound.
    have hpasses : passes ≤ bound := hbound _ h
    omega
  | succ rounds ih =>
    simp only [Dfa.refineLoop]
    obtain ⟨moved, hpass⟩ := h.refinePass
    split
    · rename_i hcount
      exact ⟨_, hpass, step_eq_none_iff.mpr ⟨rfl, rfl, hcount⟩, rfl⟩
    · rename_i hcount
      have hnext : Reached d visit partition (beginPass visit (d.refinePass visit t fresh).1
          (d.refinePass visit t fresh).2 (passes + 1)) :=
        hpass.step (by simp [Refining.step, hcount])
      exact ih hnext (by omega)

/-- Refinement ends, and its table is the one that the steps lead to. -/
theorem exists_reached_refine (hv : ∀ t : ClassTable, t.Valid → t.Visits (visit t))
    (hlength : partition.length = d.size)
    (hbound : ∀ s, Reached d visit partition s → s.passes ≤ max 1 d.size) :
    ∃ s, Reached d visit partition s ∧ s.step d visit = none ∧
      s.table = d.refine visit partition := by
  by_cases hpos : 0 < d.size
  · exact exists_reached_refineLoop hbound .start (by omega)
  · -- without states there are no classes, and the one pass changes nothing
    obtain rfl : partition = [] := List.length_eq_zero_iff.mp (by omega)
    have hstart : Reached d visit [] (start visit []) := .start
    obtain ⟨moved, hpass⟩ := hstart.refinePass
    have hzero : d.size = 0 := by omega
    have ht := Dfa.refinable_ofPartition (d := d) hlength fun k hk => nomatch hk
    have hsame : d.refinePass visit (.ofPartition []) (ClassTable.ofPartition []).classCount =
        (.ofPartition [], (ClassTable.ofPartition []).classCount) := by
      obtain ⟨hsame, _⟩ | ⟨t', fresh', _, ht', _, hcount⟩ :=
        Dfa.refinePass_cases (d := d) ht (hv _ ht.valid)
      · exact hsame
      · have := ht'.valid.classCount_le ht'.covers
        omega
    rw [hsame] at hpass
    refine ⟨_, hpass, step_eq_none_iff.mpr ⟨rfl, rfl, rfl⟩, ?_⟩
    rw [Dfa.refine, hzero]
    rfl

/-! ### One class with the number of the next -/

/-- All states are in one class, and the first class to be split takes them there again. -/
structure OneClass (n k : Nat) (s : Refining) : Prop extends Tabled n s where
  same : ∀ q < n, s.table.classOf[q]? = some k
  into : ∀ e ∈ s.leaving, e.2 = k
  alone : s.classes.Pairwise fun ms ns => ms ≠ [] → ns = []
  fresh_eq : s.fresh = k ∨ ∀ ms ∈ s.classes, ms = []
  before_eq : s.before = 1
  passes_eq : s.passes = 1

section oneClass

variable (hv : ∀ t : ClassTable, t.Valid → t.Visits (visit t))

include hv

/-- Of the classes of a snapshot no second one has members. -/
theorem oneClass_beginPass (ht : t.Valid) (hn : t.Covers n) (hpos : 0 < n)
    (hsame : ∀ q < n, t.classOf[q]? = some k) : OneClass n k (beginPass visit t k 1) where
  toTabled := tabled_beginPass hv ht hn
  same := hsame
  into _ he := nomatch he
  alone := by
    have hvisits := hv t ht
    refine hvisits.disjoint.imp_of_mem fun {ms ns} hms hns hdisjoint hne => ?_
    obtain ⟨p, hp⟩ := List.exists_mem_of_ne_nil ms hne
    refine List.eq_nil_iff_forall_not_mem.mpr fun q hq => hdisjoint q ?_ hq
    have hpclass := hsame p (hvisits.lt_of_mem hn hms hp)
    have hqclass := hsame q (hvisits.lt_of_mem hn hns hq)
    exact (Dfa.wholeClass_of_visits hvisits hms p hp q).mpr (hqclass.trans hpclass.symm)
  fresh_eq := Or.inl rfl
  before_eq := ht.classCount_eq_one hn hpos hsame
  passes_eq := rfl

/-- States move where they are, and no second pass begins. -/
theorem OneClass.step (hs : OneClass n k s) (hpos : 0 < n) (h : s.step d visit = some s') :
    OneClass n k s' := by
  have htabled := hs.toTabled.step hv h
  obtain ⟨q, j, leaving, hleaving, rfl⟩ | ⟨members, classes, _, hclasses, _, rfl⟩ |
    ⟨members, classes, _, hclasses, hsome, rfl⟩ | ⟨_, _, hcount, _⟩ := step_cases h
  · have mem_leaving : (q, j) ∈ s.leaving := hleaving ▸ List.mem_cons_self
    obtain rfl : j = k := hs.into _ mem_leaving
    refine { hs with toTabled := htabled, same := fun r hr => ?_
                     into := fun e he => hs.into e (hleaving ▸ List.mem_cons_of_mem _ he) }
    rw [move, ClassTable.classOf_assign]
    split
    · rfl
    · exact hs.same r hr
  · have halone := hs.alone
    rw [hclasses, List.pairwise_cons] at halone
    exact { hs with
      toTabled := htabled
      alone := halone.2
      fresh_eq := hs.fresh_eq.imp_right fun hempty ms hms =>
        hempty ms (hclasses ▸ List.mem_cons_of_mem _ hms) }
  · -- the class that is split is the one that has members
    have halone := hs.alone
    rw [hclasses, List.pairwise_cons] at halone
    have hne : members ≠ [] := fun hnil => hsome (by rw [hnil, Dfa.outliers])
    have hfresh : s.fresh = k :=
      hs.fresh_eq.resolve_right fun hempty => hne (hempty members (hclasses ▸ List.mem_cons_self))
    refine { hs with toTabled := htabled, into := fun e he => ?_, alone := halone.2
                     fresh_eq := Or.inr fun ms hms => halone.1 ms hms hne }
    obtain ⟨q, _, rfl⟩ := List.mem_map.mp he
    exact hfresh
  · have hone := hs.valid.classCount_eq_one hs.covers hpos hs.same
    exact absurd (hone.trans hs.before_eq.symm) hcount

end oneClass

/-! ### The passes of the refinement by acceptance -/

/-- Where classes are not numbered from 0 on, all states are marked and in class 1. -/
theorem acceptancePartition_eq_of_gap {j : Nat} (hk : k ∈ d.acceptancePartition) (hj : j < k)
    (hgap : j ∉ d.acceptancePartition) : ∀ q < d.size, d.acceptancePartition[q]? = some 1 := by
  have values (q : Nat) (hq : q < d.size) :
      d.acceptancePartition[q]? = some 0 ∨ d.acceptancePartition[q]? = some 1 := by
    rw [Dfa.getElem?_acceptancePartition hq]
    split
    · exact Or.inr rfl
    · exact Or.inl rfl
  have length_eq : d.acceptancePartition.length = d.size := by simp [Dfa.acceptancePartition]
  obtain ⟨p, hp⟩ := List.mem_iff_getElem?.mp hk
  have hp_lt : p < d.size := length_eq ▸ (List.getElem?_eq_some_iff.mp hp).1
  have hj0 : j = 0 := by
    obtain h | h := values p hp_lt <;> rw [hp] at h <;> cases h <;> omega
  intro q hq
  refine (values q hq).resolve_left fun h => hgap ?_
  rw [hj0]
  exact List.mem_of_getElem? h

section acceptance

variable (hv : ∀ t : ClassTable, t.Valid → t.Visits (visit t))

include hv

/-- Of any automaton there are no more passes than states, but for the one pass over none. -/
theorem Reached.passes_le (h : Reached d visit d.acceptancePartition s) :
    s.passes ≤ max 1 d.size := by
  have hlength : d.acceptancePartition.length = d.size := by simp [Dfa.acceptancePartition]
  obtain ⟨hvalid, hclass⟩ := ClassTable.ofPartition_spec d.acceptancePartition
  have hcovers := hlength ▸ ClassTable.covers_ofPartition d.acceptancePartition
  -- Every pass but the last one adds a class, and there are no more classes than states, provided
  -- that numbers of classes are not used twice.
  by_cases hgaps : ∀ k ∈ d.acceptancePartition, ∀ j < k, j ∈ d.acceptancePartition
  · refine (h.sound hv hlength hgaps).passes_le_size fun hpos => ?_
    have hmem : d.acceptancePartition[0] ∈ d.acceptancePartition := List.getElem_mem (by omega)
    exact Nat.zero_lt_of_lt (ClassTable.lt_classCount_ofPartition hgaps hmem)
  -- With a gap in the numbers there is one class, all states have number 1, and one pass is made.
  · push Not at hgaps
    obtain ⟨k, hk, j, hj, hgap⟩ := hgaps
    have hsame : ∀ q < d.size,
        (ClassTable.ofPartition d.acceptancePartition).classOf[q]? = some 1 :=
      fun q hq => (hclass q).trans (acceptancePartition_eq_of_gap hk hj hgap q hq)
    have hpos : 0 < d.size := hlength ▸ List.length_pos_of_mem hk
    have hcount : (ClassTable.ofPartition d.acceptancePartition).classCount = 1 :=
      hvalid.classCount_eq_one hcovers hpos hsame
    have hone : OneClass d.size 1 s := by
      induction h with
      | start =>
        rw [Refining.start, hcount]
        exact oneClass_beginPass hv hvalid hcovers hpos hsame
      | step _ hstep ih => exact ih.step hv hpos hstep
    rw [hone.passes_eq]
    exact Nat.le_max_left 1 d.size

end acceptance

end Refining

namespace Dfa

open Refining

variable {d : Dfa} {visit : ClassTable → List (List Nat)}

/-- Refinement by acceptance, in whatever order it visits classes and members, of any automaton
for which it begins, since each state has a mark.  At every step the two sides of the table agree,
no class is empty and the states are those that have a class; there are no more passes than states.
If some state has no mark where the marks are mixed, then no class has the number that the next one
takes, a pass that adds no class has moved no state, and where refinement stands still the members
of a class move alike on each symbol that the alphabet holds or that no state moves on.  It comes to
stand still, with the table that minimization uses.  For an automaton that operations give it
begins; such an automaton has states, its marks are like that, and so is every symbol. -/
theorem refinement_exact (hv : ∀ t : ClassTable, t.Valid → t.Visits (visit t)) :
    (∀ partition, d.acceptancePartition? = some partition →
      (∀ s, Reached d visit partition s →
        s.table.Valid ∧ s.table.Covers d.size ∧ s.passes ≤ max 1 d.size ∧
        (d.SomeUnmarked →
          s.fresh ∉ s.table.members ∧
          (s.leaving = [] → s.classes = [] → s.table.classCount = s.before → s.moved = []) ∧
          (s.step d visit = none → ∀ p q c, p < d.size →
            s.table.classOf[p]? = s.table.classOf[q]? →
            (c ∈ d.alphabet ∨ ∀ r, d.delta r c = none) →
            Option.Rel (fun u v => s.table.classOf[u]? = s.table.classOf[v]?)
              (d.delta p c) (d.delta q c)))) ∧
      ∃ s, Reached d visit partition s ∧ s.step d visit = none ∧
        s.table = d.refine visit partition) ∧
    (Obtained (.dfa d) →
      d.acceptancePartition? = some d.acceptancePartition ∧
      0 < d.size ∧ d.SomeUnmarked ∧ ∀ c, c ∈ d.alphabet ∨ ∀ r, d.delta r c = none) := by
  have hlength : d.acceptancePartition.length = d.size := by simp [acceptancePartition]
  constructor
  · intro partition hpartition
    obtain ⟨_, rfl⟩ := acceptancePartition?_eq_some_iff.mp hpartition
    refine ⟨fun s hs => ?_, exists_reached_refine hv hlength fun s hs => hs.passes_le hv⟩
    -- The table is in order on every run, since each step keeps it so.
    have htabled : Tabled d.size s := hlength ▸ hs.tabled hv
    refine ⟨htabled.valid, htabled.covers, hs.passes_le hv, fun hmarks => ?_⟩
    -- The rest needs a number for the next class that no class has, which a state without a mark
    -- provides.
    have hsound := hs.sound hv hlength hmarks.gaps
    refine ⟨hsound.fresh_not_mem, fun _ _ hcount => hsound.moved_eq_nil hcount,
      fun hnone p q c hp hclass hc => ?_⟩
    -- On a symbol of the alphabet stability speaks; on any other there is nothing to compare.
    obtain hc | hc := hc
    · exact (hsound.stable hnone).delta_rel_of_mem hsound.covers hp hclass hc
    · rw [hc p, hc q]
      exact .none
  · intro hd
    have hwf : d.WellFormed := wellFormed_of_obtained hd
    exact ⟨acceptancePartition?_eq_some_iff.mpr ⟨hwf.accepting_size.ge, rfl⟩,
      Nat.zero_lt_of_lt hwf.start_lt, hwf.someUnmarked,
      fun c => (Decidable.em (c ∈ d.alphabet)).imp_right hwf.delta_eq_none⟩

/-- States 1 and 3 stay in one class, and refinement stands still after at most five passes. -/
theorem refinement_exact_redundant :
    (∀ t : ClassTable, t.Valid → t.Visits t.ascendingClasses) ∧ Obtained (.dfa redundant) ∧
    ∃ partition s, redundant.acceptancePartition? = some partition ∧
      Reached redundant ClassTable.ascendingClasses partition s ∧
      s.step redundant ClassTable.ascendingClasses = none ∧ s.passes ≤ 5 ∧ s.moved = [] ∧
      s.table.classOf[1]? = s.table.classOf[3]? ∧ s.table.classOf[1]? ≠ s.table.classOf[4]? ∧
      Option.Rel (fun u v => s.table.classOf[u]? = s.table.classOf[v]?)
        (redundant.delta 1 'b') (redundant.delta 3 'b') := by
  have hvisits : ∀ t : ClassTable, t.Valid → t.Visits t.ascendingClasses :=
    fun _ ht => ht.visits_ascendingClasses
  obtain ⟨runs, obtained⟩ := refinement_exact (d := redundant) hvisits
  obtain ⟨hpartition, _, hmarks, hsymbols⟩ := obtained obtained_redundant
  obtain ⟨steps, s, hs, hnone, htable⟩ := runs _ hpartition
  obtain ⟨_, _, hpasses, hsound⟩ := steps s hs
  obtain ⟨_, hmoved, hstable⟩ := hsound hmarks
  obtain ⟨hleaving, hclasses, hcount⟩ := step_eq_none_iff.mp hnone
  have hclass : s.table.classOf[1]? = s.table.classOf[3]? := by
    rw [htable]
    decide +kernel
  refine ⟨hvisits, obtained_redundant, _, s, hpartition, hs, hnone, hpasses,
    hmoved hleaving hclasses hcount, hclass, ?_,
    hstable hnone 1 3 'b' (by decide) hclass (hsymbols 'b')⟩
  rw [htable]
  decide +kernel

/-! ### Automata that are loaded -/

/-- Both states are marked, and a third mark is missing; only the first one has a move. -/
def overmarked : Dfa := .ofRows #[[('a', 1)], []] 0 #[true, true, false]

/-- Only the second state moves on a symbol that the alphabet misses. -/
def unlisted : Dfa :=
  { Dfa.ofRows #[[('a', 1)], [('a', 0), ('b', 1)]] 0 #[false, false] with alphabet := ['a'] }

/-- An automaton without states. -/
def stateless : Dfa := .ofRows #[] 0 #[]

/-- The saved text of a bimachine that has the first two of these. -/
def overmarkedText : String :=
  "[[[[\x7b\"a\":1\x7d],[\x7b\x7d]],0,[\"bitvec::order::Lsb0\",[8,0],3,[3]],[\"a\"]]," ++
    "[[[\x7b\"a\":1\x7d],[\x7b\"a\":0,\"b\":1\x7d]],0," ++
    "[\"bitvec::order::Lsb0\",[8,0],2,[0]],[\"a\"]],[]]"

/-- The saved text of a bimachine without states. -/
def statelessText : String :=
  "[[[],0,[\"bitvec::order::Lsb0\",[8,0],0,[]],[]]," ++
    "[[],0,[\"bitvec::order::Lsb0\",[8,0],0,[]],[]],[]]"

/-- All three are loaded, and refinement begins for each of them.  The one class of the first has
the number of the next, so its second member moves nowhere and refinement stands still with states
in one class that do not move alike.  So it does for the second, where it does not look at the
move.  For the third there is one pass, over no states. -/
theorem refinement_unstable_loaded :
    Bimachine.load overmarkedText = .ok ⟨overmarked, unlisted, []⟩ ∧
    Bimachine.load statelessText = .ok ⟨stateless, stateless, []⟩ ∧
    (∀ d ∈ [overmarked, unlisted, stateless],
      d.acceptancePartition? = some d.acceptancePartition) ∧
    (∃ s, Reached overmarked ClassTable.ascendingClasses overmarked.acceptancePartition s ∧
      s.leaving = [] ∧ s.classes = [[0, 1]] ∧ overmarked.outliers s.table [0, 1] = [1] ∧
      s.fresh ∈ s.table.members) ∧
    (∃ s, Reached overmarked ClassTable.ascendingClasses overmarked.acceptancePartition s ∧
      s.step overmarked ClassTable.ascendingClasses = none ∧
      s.table.classOf[0]? = s.table.classOf[1]? ∧ overmarked.delta 0 'a' = some 1 ∧
      overmarked.delta 1 'a' = none) ∧
    (∃ s, Reached unlisted ClassTable.ascendingClasses unlisted.acceptancePartition s ∧
      s.step unlisted ClassTable.ascendingClasses = none ∧
      s.table.classOf[0]? = s.table.classOf[1]? ∧ unlisted.delta 0 'b' = none ∧
      unlisted.delta 1 'b' = some 1) ∧
    (∃ s, Reached stateless ClassTable.ascendingClasses stateless.acceptancePartition s ∧
      stateless.size < s.passes) := by
  have hvisits : ∀ t : ClassTable, t.Valid → t.Visits t.ascendingClasses :=
    fun _ ht => ht.visits_ascendingClasses
  -- Refinement comes to stand still for all three, with the table that `refine` computes.
  have reached (d : Dfa) : ∃ s, Reached d ClassTable.ascendingClasses d.acceptancePartition s ∧
      s.step d ClassTable.ascendingClasses = none ∧
      s.table = d.refine ClassTable.ascendingClasses d.acceptancePartition :=
    exists_reached_refine hvisits (by simp [acceptancePartition]) fun s hs => hs.passes_le hvisits
  refine ⟨by decide +kernel, by decide +kernel, by decide +kernel,
    ⟨_, .start, rfl, by decide +kernel, by decide +kernel, ?_⟩, ?_, ?_,
    ⟨_, .start, Nat.zero_lt_one⟩⟩
  -- The number that the next class would take is that of the one class there is.
  · rw [← Std.TreeMap.contains_iff_mem]
    decide +kernel
  -- At the end the first two automata still have both states in one class.
  · obtain ⟨s, hs, hnone, htable⟩ := reached overmarked
    refine ⟨s, hs, hnone, ?_, by decide, by decide⟩
    rw [htable]
    decide +kernel
  · obtain ⟨s, hs, hnone, htable⟩ := reached unlisted
    refine ⟨s, hs, hnone, ?_, by decide, by decide⟩
    rw [htable]
    decide +kernel

end Dfa

end Transduction
