/-
Refinement between two moves.

A pass of refinement splits the classes of a snapshot, while the table changes with each state
that moves, and it takes the numbers of new classes from one counter.  Nothing goes wrong in
between:

* `ClassTable.Valid.classCount_le_assign`, `ClassTable.Valid.classCount_lt_assign` — what a
  single move does to the number of classes;
* `Refining.Tabled` — the two sides of the table agree, and each state has a class;
* `Refining.Sound` — where classes are numbered without gaps, no class has the next number, the
  classes that are still to be split are whole, and states that leave their class leave another
  one behind, so that every pass that moves a state adds a class;
* `Refining.Reached.tabled`, `Refining.Reached.sound` — both hold from the first table on;
* `Refining.Sound.moved_eq_nil`, `Refining.Sound.stable`, `Refining.Sound.passes_le_size` — a
  pass that adds no class moves no state, members of a class move alike where refinement stands
  still, and there are no more passes than states.
-/
import Transduction.Dfa.Refining
import Transduction.Proofs.Separation

namespace Transduction

namespace ClassTable

variable {t : ClassTable} {q k n : Nat}

/-! ### Moving one state -/

theorem Covers.assign (ht : t.Covers n) (hq : q < n) : (t.assign q k).Covers n := by
  intro r
  rw [classOf_assign]
  split
  · rename_i hr
    simp [hr, hq]
  · exact ht r

/-- A class in use stays in use if the state that moves is in its new class already or leaves
another member behind. -/
theorem Covers.image_subset_assign (ht : t.Covers n) (hq : q < n)
    (hbehind : t.classOf[q]? = some k ∨ ∃ p, p ≠ q ∧ t.classOf[p]? = t.classOf[q]?) :
    t.image n ⊆ (t.assign q k).image n := by
  intro j hj
  rw [(ht.assign hq).mem_image]
  obtain ⟨r, hr⟩ := ht.mem_image.mp hj
  by_cases hrq : r = q
  · subst hrq
    obtain hk | ⟨p, hp, hclass⟩ := hbehind
    · exact ⟨r, by rw [classOf_assign, if_pos rfl, ← hk, hr]⟩
    · exact ⟨p, by rw [classOf_assign, if_neg hp, hclass, hr]⟩
  · exact ⟨r, by rw [classOf_assign, if_neg hrq, hr]⟩

theorem Valid.classCount_le_assign (ht : t.Valid) (hn : t.Covers n) (hq : q < n)
    (hbehind : t.classOf[q]? = some k ∨ ∃ p, p ≠ q ∧ t.classOf[p]? = t.classOf[q]?) :
    t.classCount ≤ (t.assign q k).classCount := by
  rw [ht.classCount_eq hn, ht.assign.classCount_eq (hn.assign hq)]
  exact Finset.card_le_card (hn.image_subset_assign hq hbehind)

/-- A state that leaves another one behind adds the class that it moves into, if that is new. -/
theorem Valid.classCount_lt_assign (ht : t.Valid) (hn : t.Covers n) (hq : q < n)
    (hnew : ∀ p : Nat, t.classOf[p]? ≠ some k)
    (hbehind : ∃ p, p ≠ q ∧ t.classOf[p]? = t.classOf[q]?) :
    t.classCount < (t.assign q k).classCount := by
  rw [ht.classCount_eq hn, ht.assign.classCount_eq (hn.assign hq)]
  refine Finset.card_lt_card (Finset.ssubset_iff_of_subset
    (hn.image_subset_assign hq (Or.inr hbehind)) |>.mpr ⟨k, ?_, ?_⟩)
  · exact (hn.assign hq).mem_image.mpr ⟨q, by rw [classOf_assign, if_pos rfl]⟩
  · rw [hn.mem_image]
    exact fun ⟨p, hp⟩ => hnew p hp

end ClassTable

namespace Refining

variable {d : Dfa} {visit : ClassTable → List (List Nat)} {partition members : List Nat}
  {classes : List (List Nat)} {leaving : List (Nat × Nat)} {t : ClassTable} {s s' : Refining}
  {n c k p q fresh passes : Nat}

/-! ### The members that leave a class -/

theorem mem_outliers {first : Nat} {rest : List Nat} : q ∈ d.outliers t (first :: rest) ↔
    q ∈ first :: rest ∧ d.agree t q first = false := by
  rw [Dfa.outliers, List.mem_filter, Bool.not_eq_true']

theorem mem_of_mem_outliers (h : q ∈ d.outliers t members) : q ∈ members := by
  cases members with
  | nil => cases h
  | cons first rest => exact (mem_outliers.mp h).1

/-- The first member stays. -/
theorem exists_not_mem_outliers (h : q ∈ members) :
    ∃ first ∈ members, first ∉ d.outliers t members := by
  cases members with
  | nil => cases h
  | cons first rest =>
    refine ⟨first, List.mem_cons_self, fun hfirst => ?_⟩
    have hdiffers := (mem_outliers.mp hfirst).2
    simp [Dfa.agree] at hdiffers

/-- Where no member leaves, all of them move alike. -/
theorem agree_of_outliers_eq_nil (h : d.outliers t members = []) (hp : p ∈ members)
    (hq : q ∈ members) : d.agree t p q = true := by
  cases members with
  | nil => cases hp
  | cons first rest =>
    have hfirst (r : Nat) (hr : r ∈ first :: rest) : d.agree t r first = true := by
      by_contra hdiffers
      have hmem := mem_outliers.mpr ⟨hr, Bool.eq_false_iff.mpr hdiffers⟩
      rw [h] at hmem
      cases hmem
    exact Dfa.agree_trans (hfirst p hp) (Dfa.agree_symm (hfirst q hq))

/-! ### The table -/

/-- The two sides of the table agree, no class is empty, and the first `n` states have a class;
only such states are still to move. -/
structure Tabled (n : Nat) (s : Refining) : Prop where
  valid : s.table.Valid
  covers : s.table.Covers n
  leaving_lt : ∀ e ∈ s.leaving, e.1 < n
  classes_lt : ∀ ms ∈ s.classes, ∀ q ∈ ms, q < n

section tables

variable (hv : ∀ t : ClassTable, t.Valid → t.Visits (visit t))

include hv

theorem tabled_beginPass (ht : t.Valid) (hn : t.Covers n) :
    Tabled n (beginPass visit t fresh passes) where
  valid := ht
  covers := hn
  leaving_lt _ he := nomatch he
  classes_lt _ hms _ hq := (hv t ht).lt_of_mem hn hms hq

/-- A step keeps the two sides of the table in agreement. -/
theorem Tabled.step (hs : Tabled n s) (h : s.step d visit = some s') : Tabled n s' := by
  obtain ⟨q, k, leaving, hleaving, rfl⟩ | ⟨members, classes, hleaving, hclasses, _, rfl⟩ |
    ⟨members, classes, hleaving, hclasses, _, rfl⟩ | ⟨_, _, _, rfl⟩ := step_cases h
  · have hlt : ∀ e ∈ (q, k) :: leaving, e.1 < n := hleaving ▸ hs.leaving_lt
    exact ⟨hs.valid.assign, hs.covers.assign (hlt _ List.mem_cons_self),
      fun e he => hlt e (List.mem_cons_of_mem _ he), hs.classes_lt⟩
  · exact ⟨hs.valid, hs.covers, hs.leaving_lt,
      fun ms hms => hs.classes_lt ms (hclasses ▸ List.mem_cons_of_mem _ hms)⟩
  · refine ⟨hs.valid, hs.covers, fun e he => ?_,
      fun ms hms => hs.classes_lt ms (hclasses ▸ List.mem_cons_of_mem _ hms)⟩
    obtain ⟨q, hq, rfl⟩ := List.mem_map.mp he
    exact hs.classes_lt members (hclasses ▸ List.mem_cons_self) q (mem_of_mem_outliers hq)
  · exact tabled_beginPass hv hs.valid hs.covers

/-- From the first table on, the two sides agree and each state has a class. -/
theorem Reached.tabled (h : Reached d visit partition s) : Tabled partition.length s := by
  induction h with
  | start =>
    exact tabled_beginPass hv (ClassTable.ofPartition_spec partition).1
      (ClassTable.covers_ofPartition partition)
  | step _ hstep ih => exact ih.step hv hstep

end tables

/-! ### Classes numbered without gaps -/

/-- What refinement keeps, from one move to the next, where it began with `c` classes numbered
without gaps. -/
structure Sound (d : Dfa) (c : Nat) (s : Refining) : Prop extends Tabled d.size s where
  /-- No class has the next number. -/
  lt_fresh : ∀ q k : Nat, s.table.classOf[q]? = some k → k < s.fresh
  /-- States move into the class that was numbered last. -/
  newest : ∀ e ∈ s.leaving, e.2 + 1 = s.fresh
  /-- A state leaves a member of its class behind, unless it has moved already. -/
  behind : ∀ e ∈ s.leaving, s.table.classOf[e.1]? = some e.2 ∨
    ∃ p, p ∉ s.leaving.map (·.1) ∧ s.table.classOf[p]? = s.table.classOf[e.1]?
  /-- Classes that are still to be split are whole. -/
  whole : ∀ ms ∈ s.classes, Dfa.WholeClass s.table ms
  disjoint : s.classes.Pairwise fun ms ns => ∀ q ∈ ms, q ∉ ns
  /-- No member of them moves, and none is in the class that states move into. -/
  apart : ∀ e ∈ s.leaving, ∀ ms ∈ s.classes,
    e.1 ∉ ms ∧ ∀ q ∈ ms, s.table.classOf[q]? ≠ some e.2
  before_le : s.before ≤ s.table.classCount
  /-- A pass that has moved a state has added a class. -/
  before_lt : s.moved ≠ [] → s.before < s.table.classCount
  /-- The first state to move finds its class new. -/
  unused : s.moved = [] → ∀ e ∈ s.leaving, ∀ q : Nat, s.table.classOf[q]? ≠ some e.2
  /-- A class that has lost no member is still to be split, or its members move alike. -/
  settled : s.moved = [] → s.leaving = [] → ∀ p q, p < d.size →
    s.table.classOf[p]? = s.table.classOf[q]? →
      (∃ ms ∈ s.classes, p ∈ ms) ∨ d.agree s.table p q = true
  /-- Every pass that has ended has added a class. -/
  passes_le : s.passes + c ≤ s.before + 1

theorem Sound.refinable (hs : Sound d c s) : Dfa.Refinable s.table d.size s.fresh :=
  ⟨hs.valid, hs.covers, hs.lt_fresh⟩

/-- A state that is about to move is in its new class already, or leaves a member of its class
behind. -/
theorem Sound.of_mem_leaving (hs : Sound d c s) (h : (q, k) ∈ s.leaving) :
    s.table.classOf[q]? = some k ∨
      ∃ p, p ≠ q ∧ s.table.classOf[p]? = s.table.classOf[q]? := by
  refine (hs.behind _ h).imp_right fun ⟨p, hp, hclass⟩ => ⟨p, ?_, hclass⟩
  rintro rfl
  exact hp (List.mem_map_of_mem h)

/-- A move keeps the classes that are still to be split, and adds a class if it is the first. -/
theorem Sound.move (hs : Sound d c s) (hleaving : s.leaving = (q, k) :: leaving)
    (htabled : Tabled d.size (s.move q k leaving)) : Sound d c (s.move q k leaving) := by
  have mem_leaving : (q, k) ∈ s.leaving := hleaving ▸ List.mem_cons_self
  have leaving_mem : ∀ e ∈ leaving, e ∈ s.leaving :=
    fun e he => hleaving ▸ List.mem_cons_of_mem _ he
  have hq : q < d.size := hs.leaving_lt _ mem_leaving
  have classOf_eq (r : Nat) : (s.move q k leaving).table.classOf[r]? =
      if r = q then some k else s.table.classOf[r]? := ClassTable.classOf_assign
  have stays := hs.of_mem_leaving mem_leaving
  have unmoved {ms : List Nat} (hms : ms ∈ s.classes) {r : Nat} (hr : r ∈ ms) : r ≠ q := by
    rintro rfl
    exact (hs.apart _ mem_leaving ms hms).1 hr
  have count_le : s.table.classCount ≤ (s.table.assign q k).classCount :=
    hs.valid.classCount_le_assign hs.covers hq stays
  refine { toTabled := htabled, lt_fresh := ?_, newest := ?_, behind := ?_, whole := ?_,
           disjoint := hs.disjoint, apart := ?_, before_le := hs.before_le.trans count_le,
           before_lt := ?_, unused := ?_, settled := ?_, passes_le := hs.passes_le }
  · intro r j hj
    rw [classOf_eq] at hj
    split at hj
    · cases hj
      exact Nat.lt_of_succ_le (hs.newest _ mem_leaving).le
    · exact hs.lt_fresh r j hj
  · exact fun e he => hs.newest e (leaving_mem e he)
  · intro e he
    rw [classOf_eq]
    by_cases heq : e.1 = q
    · -- a class may list a member twice
      have hnewest := (hs.newest e (leaving_mem e he)).trans (hs.newest _ mem_leaving).symm
      exact Or.inl (by rw [if_pos heq, Nat.succ.inj hnewest])
    · rw [if_neg heq]
      refine (hs.behind e (leaving_mem e he)).imp_right fun ⟨p, hp, hclass⟩ => ?_
      rw [hleaving, List.map_cons, List.mem_cons, not_or] at hp
      exact ⟨p, hp.2, by rw [classOf_eq, if_neg hp.1, hclass]⟩
  · -- the state is no member of a class still to be split, and does not move into one
    intro ms hms p hp r
    rw [classOf_eq, classOf_eq, if_neg (unmoved hms hp)]
    split
    · rename_i hr
      rw [hr]
      obtain ⟨hnot, hclass⟩ := hs.apart _ mem_leaving ms hms
      exact iff_of_false hnot fun h => hclass p hp h.symm
    · exact hs.whole ms hms p hp r
  · intro e he ms hms
    obtain ⟨hnot, hclass⟩ := hs.apart e (leaving_mem e he) ms hms
    refine ⟨hnot, fun r hr => ?_⟩
    rw [classOf_eq, if_neg (unmoved hms hr)]
    exact hclass r hr
  · intro _
    by_cases hmoved : s.moved = []
    · -- the class is new, so the state is not in it and leaves another one behind
      have hnew := hs.unused hmoved _ mem_leaving
      exact hs.before_le.trans_lt
        (hs.valid.classCount_lt_assign hs.covers hq hnew (stays.resolve_left (hnew q)))
    · exact (hs.before_lt hmoved).trans_le count_le
  · exact fun h => nomatch h
  · exact fun h => nomatch h

/-- A class of which no member leaves is settled. -/
theorem Sound.keep (hs : Sound d c s) (hclasses : s.classes = members :: classes)
    (hnone : d.outliers s.table members = []) (htabled : Tabled d.size (s.keep classes)) :
    Sound d c (s.keep classes) := by
  have classes_mem : ∀ ms ∈ classes, ms ∈ s.classes :=
    fun ms hms => hclasses ▸ List.mem_cons_of_mem _ hms
  have hdisjoint := hs.disjoint
  rw [hclasses, List.pairwise_cons] at hdisjoint
  refine { toTabled := htabled, lt_fresh := hs.lt_fresh, newest := hs.newest, behind := hs.behind
           whole := fun ms hms => hs.whole ms (classes_mem ms hms), disjoint := hdisjoint.2
           apart := fun e he ms hms => hs.apart e he ms (classes_mem ms hms)
           before_le := hs.before_le, before_lt := hs.before_lt, unused := hs.unused
           settled := ?_, passes_le := hs.passes_le }
  intro hmoved hleaving p q hp hclass
  obtain ⟨ms, hms, hpms⟩ | hagree := hs.settled hmoved hleaving p q hp hclass
  · obtain rfl | hms := List.mem_cons.mp (hclasses ▸ hms)
    · have hqms : q ∈ ms :=
        (hs.whole ms (hclasses ▸ List.mem_cons_self) p hpms q).mpr hclass.symm
      exact Or.inr (agree_of_outliers_eq_nil hnone hpms hqms)
    · exact Or.inl ⟨ms, hms, hpms⟩
  · exact Or.inr hagree

/-- A class that is split is whole, so its first member is behind those that leave. -/
theorem Sound.split (hs : Sound d c s) (hclasses : s.classes = members :: classes)
    (hsome : d.outliers s.table members ≠ [])
    (htabled : Tabled d.size (s.split (d.outliers s.table members) classes)) :
    Sound d c (s.split (d.outliers s.table members) classes) := by
  have classes_mem : ∀ ms ∈ classes, ms ∈ s.classes :=
    fun ms hms => hclasses ▸ List.mem_cons_of_mem _ hms
  have hdisjoint := hs.disjoint
  rw [hclasses, List.pairwise_cons] at hdisjoint
  have hwhole : Dfa.WholeClass s.table members :=
    hs.whole members (hclasses ▸ List.mem_cons_self)
  have of_leaving {e : Nat × Nat}
      (he : e ∈ (d.outliers s.table members).map fun q => (q, s.fresh)) :
      e.1 ∈ d.outliers s.table members ∧ e.2 = s.fresh := by
    obtain ⟨q, hq, rfl⟩ := List.mem_map.mp he
    exact ⟨hq, rfl⟩
  refine { toTabled := htabled, lt_fresh := fun q k hk => Nat.lt_succ_of_lt (hs.lt_fresh q k hk)
           newest := ?_, behind := ?_, whole := fun ms hms => hs.whole ms (classes_mem ms hms)
           disjoint := hdisjoint.2, apart := ?_, before_le := hs.before_le
           before_lt := hs.before_lt, unused := ?_, settled := ?_, passes_le := hs.passes_le }
  -- Those that leave get the number not used before.
  · exact fun e he => congrArg (· + 1) (of_leaving he).2
  -- Their class keeps its first member, which does not leave.
  · intro e he
    have hmem := mem_of_mem_outliers (of_leaving he).1
    obtain ⟨first, hfirst, hstays⟩ := exists_not_mem_outliers (d := d) (t := s.table) hmem
    refine Or.inr ⟨first, fun h => hstays ?_, (hwhole e.1 hmem first).mp hfirst⟩
    obtain ⟨e', he', rfl⟩ := List.mem_map.mp h
    exact (of_leaving he').1
  -- No class still to be visited meets them, and none has had their number.
  · intro e he ms hms
    obtain ⟨hmem, htarget⟩ := of_leaving he
    exact ⟨hdisjoint.1 ms hms e.1 (mem_of_mem_outliers hmem),
      fun q _ => htarget ▸ hs.refinable.ne_fresh q⟩
  · exact fun _ e he q => (of_leaving he).2 ▸ hs.refinable.ne_fresh q
  · exact fun _ h => absurd (List.map_eq_nil_iff.mp h) hsome

section passes

variable (hv : ∀ t : ClassTable, t.Valid → t.Visits (visit t))

include hv

/-- A snapshot lists whole classes, and all of them. -/
theorem sound_beginPass (ht : Dfa.Refinable t d.size fresh) (hpasses : passes + c ≤
    t.classCount + 1) : Sound d c (beginPass visit t fresh passes) where
  toTabled := tabled_beginPass hv ht.valid ht.covers
  lt_fresh := ht.lt_fresh
  newest _ he := nomatch he
  behind _ he := nomatch he
  whole _ hms := Dfa.wholeClass_of_visits (hv t ht.valid) hms
  disjoint := (hv t ht.valid).disjoint
  apart _ he := nomatch he
  before_le := Nat.le_refl _
  before_lt h := absurd rfl h
  unused _ _ he := nomatch he
  settled _ _ p q hp _ := by
    obtain ⟨k, hk⟩ := (ht.covers p).mpr hp
    exact Or.inl ((hv t ht.valid).covers p k hk)
  passes_le := hpasses

theorem Sound.step (hs : Sound d c s) (h : s.step d visit = some s') : Sound d c s' := by
  have htabled := hs.toTabled.step hv h
  obtain ⟨q, k, leaving, hleaving, rfl⟩ | ⟨members, classes, _, hclasses, hnone, rfl⟩ |
    ⟨members, classes, _, hclasses, hsome, rfl⟩ | ⟨_, _, hcount, rfl⟩ := step_cases h
  · exact hs.move hleaving htabled
  · exact hs.keep hclasses hnone htabled
  · exact hs.split hclasses hsome htabled
  · -- the pass that has ended has added a class
    have hlt := Nat.lt_of_le_of_ne hs.before_le (Ne.symm hcount)
    have hpasses := hs.passes_le
    exact sound_beginPass hv hs.refinable (by omega)

/-- Refinement keeps all of this if the classes it begins with are numbered without gaps. -/
theorem Reached.sound (hlength : partition.length = d.size)
    (hgaps : ∀ k ∈ partition, ∀ j < k, j ∈ partition) (h : Reached d visit partition s) :
    Sound d (ClassTable.ofPartition partition).classCount s := by
  induction h with
  | start => exact sound_beginPass hv (Dfa.refinable_ofPartition hlength hgaps) (by omega)
  | step _ hstep ih => exact ih.step hv hstep

end passes

/-- No class has the next number. -/
theorem Sound.fresh_not_mem (hs : Sound d c s) : s.fresh ∉ s.table.members := by
  intro h
  obtain ⟨members, hmembers⟩ := Option.isSome_iff_exists.mp
    (Std.TreeMap.mem_iff_isSome_getElem?.mp h)
  obtain ⟨q, hq⟩ := hs.valid.nonempty s.fresh members hmembers
  have hclass := (hs.valid.mem_membersOf s.fresh q).mp (by simpa [ClassTable.membersOf, hmembers])
  exact hs.refinable.ne_fresh q hclass

/-- A pass that ends with as many classes as it began with has moved no state. -/
theorem Sound.moved_eq_nil (hs : Sound d c s) (h : s.table.classCount = s.before) :
    s.moved = [] := by
  by_contra hmoved
  exact Nat.ne_of_gt (hs.before_lt hmoved) h

/-- Where refinement stands still, members of a class move alike. -/
theorem Sound.stable (hs : Sound d c s) (h : s.step d visit = none) : d.Stable s.table := by
  obtain ⟨hleaving, hclasses, hcount⟩ := step_eq_none_iff.mp h
  rintro p q hclass ⟨k, hk⟩
  have hp : p < d.size := (hs.covers p).mp ⟨k, hk⟩
  obtain ⟨ms, hms, _⟩ | hagree := hs.settled (hs.moved_eq_nil hcount) hleaving p q hp hclass
  · rw [hclasses] at hms
    cases hms
  · exact hagree

/-- There are no more passes than states, but for the one pass over no states. -/
theorem Sound.passes_le_size (hs : Sound d c s) (hc : 0 < d.size → 0 < c) :
    s.passes ≤ max 1 d.size := by
  have hpasses := hs.passes_le
  have hbefore := hs.before_le.trans (hs.valid.classCount_le hs.covers)
  omega

end Refining

end Transduction
