/-
Refinement of class tables.

A class table holds a partition from both sides, and the two sides always agree.
What a table says is therefore its class function alone, and refinement is
described by what it does to that function:

* `ClassTable.Valid`, `ClassTable.Valid.assign` — the two sides agree, and moving a
  state between classes keeps that;
* `Dfa.Refinable.foldl_assign`, `Dfa.Refinable.classCount_lt_foldl_assign` — moving states into
  a new class;
* `Dfa.splitClass_cases` — splitting a class moves no state, or it moves some of
  the members into a new class and leaves the first one behind;
* `Dfa.refinePass_cases` — a pass that adds no class changes nothing, and members of
  a class then agree;
* `Dfa.refine_spec` — refinement ends within as many passes as there are states,
  with classes inside the given ones whose members move alike.

The number of classes is the size of the image of the class function, so a split
that moves a state adds exactly one class.
-/
import Mathlib.Data.Finset.Card
import Mathlib.Data.Finset.Range
import Mathlib.Tactic.ByContra
import Transduction.Dfa.Minimal
import Transduction.Proofs.Deterministic

namespace Transduction

namespace ClassTable

variable {t : ClassTable} {members : Std.TreeMap Nat StateSet} {p q r k j n : Nat}

/-- The two sides of the table agree, and no class is empty. -/
structure Valid (t : ClassTable) : Prop where
  mem_membersOf : ∀ k q, q ∈ t.membersOf k ↔ t.classOf[q]? = some k
  nonempty : ∀ (k : Nat) s, t.members[k]? = some s → ∃ q, q ∈ s

/-- The table has a class for the first `n` states and for no others. -/
def Covers (t : ClassTable) (n : Nat) : Prop := ∀ q, (∃ k, t.classOf[q]? = some k) ↔ q < n

theorem mem_withdraw : r ∈ ((withdraw members k q)[j]?).getD .empty ↔
    r ∈ (members[j]?).getD .empty ∧ (j = k → r ≠ q) := by
  unfold withdraw
  split
  -- The class may be missing, be left empty and go, or keep its other members.
  · rename_i hk
    by_cases hj : j = k
    · subst hj
      simp [hk]
    · simp [hj]
  · rename_i s hk
    split
    · rename_i hempty
      rw [StateSet.isEmpty_iff] at hempty
      simp only [StateSet.mem_erase] at hempty
      rw [Std.TreeMap.getElem?_erase]
      by_cases hj : j = k
      · subst hj
        have hnone := hempty r
        simp only [Nat.compare_eq_eq, if_true, hk, Option.getD_none, Option.getD_some]
        constructor
        · exact fun hr => absurd hr (StateSet.not_mem_empty r)
        · rintro ⟨hr, hne⟩
          exact absurd ⟨hne trivial, hr⟩ hnone
      · simp [hj, Ne.symm hj]
    · rw [Std.TreeMap.getElem?_insert]
      by_cases hj : j = k
      · subst hj
        simp [hk, and_comm]
      · simp [hj, Ne.symm hj]

theorem nonempty_withdraw {s : StateSet} (h : ∀ (k : Nat) s, members[k]? = some s → ∃ q, q ∈ s)
    (hs : (withdraw members k q)[j]? = some s) : ∃ r, r ∈ s := by
  unfold withdraw at hs
  split at hs
  · exact h j s hs
  · split at hs
    · rw [Std.TreeMap.getElem?_erase] at hs
      split at hs
      · cases hs
      · exact h j s hs
    · rename_i hempty
      rw [Std.TreeMap.getElem?_insert] at hs
      split at hs
      · cases hs
        by_contra hnone
        exact hempty (StateSet.isEmpty_iff.mpr fun r hr => hnone ⟨r, hr⟩)
      · exact h j s hs

theorem classOf_assign : (t.assign q k).classOf[r]? = if r = q then some k else t.classOf[r]? := by
  rw [assign, Std.TreeMap.getElem?_insert]
  by_cases hr : r = q
  · simp [hr]
  · simp [hr, Ne.symm hr]

/-- Assignment enters a state into classes that it has been withdrawn from. -/
theorem Valid.assign_eq (ht : t.Valid) (q k : Nat) : ∃ others : Std.TreeMap Nat StateSet,
    (∀ (j r : Nat), r ∈ (others[j]?).getD .empty ↔ r ≠ q ∧ t.classOf[r]? = some j) ∧
    (∀ (j : Nat) (s : StateSet), others[j]? = some s → ∃ r, r ∈ s) ∧
    t.assign q k =
      ⟨t.classOf.insert q k, others.insert k (((others[k]?).getD .empty).insert q)⟩ := by
  refine ⟨_, ?_, ?_, rfl⟩
  · intro j r
    -- A state without a class is in no member set, so nothing has to be withdrawn.
    cases hq : t.classOf[q]? with
    | none =>
      rw [← ht.mem_membersOf j r, membersOf]
      constructor
      · refine fun hr => ⟨?_, hr⟩
        rintro rfl
        rw [(ht.mem_membersOf j r).mp hr] at hq
        cases hq
      · exact fun hr => hr.2
    | some old =>
      -- Otherwise it is withdrawn from its class, and it was in no other one.
      rw [mem_withdraw, ← ht.mem_membersOf j r, membersOf]
      constructor
      · rintro ⟨hr, hne⟩
        refine ⟨?_, hr⟩
        rintro rfl
        have := (ht.mem_membersOf j r).mp hr
        rw [hq] at this
        exact hne (Option.some.inj this).symm rfl
      · exact fun ⟨hne, hr⟩ => ⟨hr, fun _ => hne⟩
  · intro j s hs
    cases hq : t.classOf[q]? with
    | none =>
      rw [hq] at hs
      exact ht.nonempty j s hs
    | some old =>
      rw [hq] at hs
      exact nonempty_withdraw ht.nonempty hs

/-- Moving a state into a class keeps the two sides of a table in agreement. -/
theorem Valid.assign (ht : t.Valid) : (t.assign q k).Valid := by
  obtain ⟨others, hmem, hne, heq⟩ := ht.assign_eq q k
  constructor
  · intro j r
    rw [classOf_assign, heq, membersOf]
    simp only [Std.TreeMap.getElem?_insert, Nat.compare_eq_eq]
    by_cases hj : k = j
    · subst hj
      rw [if_pos rfl, Option.getD_some, StateSet.mem_insert, hmem]
      by_cases hr : r = q <;> simp [hr]
    · rw [if_neg hj, hmem]
      by_cases hr : r = q <;> simp [hr, hj]
  · intro j s hs
    rw [heq] at hs
    simp only [Std.TreeMap.getElem?_insert, Nat.compare_eq_eq] at hs
    split at hs
    · cases hs
      exact ⟨q, StateSet.mem_insert.mpr (Or.inl rfl)⟩
    · exact hne j s hs

theorem classOf_foldl_assign {moved : List Nat} :
    (moved.foldl (fun t q => t.assign q k) t).classOf[r]? =
      if r ∈ moved then some k else t.classOf[r]? := by
  induction moved generalizing t with
  | nil => simp
  | cons q moved ih =>
    rw [List.foldl_cons, ih, classOf_assign]
    grind

theorem Valid.foldl_assign {moved : List Nat} (ht : t.Valid) :
    (moved.foldl (fun t q => t.assign q k) t).Valid := by
  induction moved generalizing t with
  | nil => exact ht
  | cons q moved ih => exact ih ht.assign

/-! ### The table of a partition -/

/-- Entries for different states leave each of them in the class of its entry. -/
theorem foldl_assign_entries {entries : List (Nat × Nat)} (ht : t.Valid)
    (hnodup : (entries.map (·.2)).Nodup) :
    (entries.foldl (fun t e => t.assign e.2 e.1) t).Valid ∧
      ∀ q : Nat, (entries.foldl (fun t e => t.assign e.2 e.1) t).classOf[q]? =
        ((entries.find? fun e => e.2 == q).map (·.1)).or t.classOf[q]? := by
  induction entries generalizing t with
  | nil => exact ⟨ht, fun q => by simp⟩
  | cons entry entries ih =>
    obtain ⟨k, q⟩ := entry
    rw [List.map_cons, List.nodup_cons] at hnodup
    obtain ⟨hvalid, hclass⟩ := ih (ht.assign (q := q) (k := k)) hnodup.2
    refine ⟨hvalid, fun r => ?_⟩
    rw [List.foldl_cons, hclass, classOf_assign]
    by_cases hr : r = q
    · subst hr
      have hnone : entries.find? (fun e => e.2 == r) = none := by
        rw [List.find?_eq_none]
        intro e he hb
        exact hnodup.1 (List.mem_map.mpr ⟨e, he, by simpa using hb⟩)
      simp [hnone]
    · simp [hr, Ne.symm hr]

theorem find?_zipIdx (values : List Nat) (q : Nat) :
    (values.zipIdx.find? fun e => e.2 == q).map (·.1) = values[q]? := by
  cases hfind : values.zipIdx.find? (fun e => e.2 == q) with
  | none =>
    cases hq : values[q]? with
    | none => rfl
    | some k =>
      have found : (k, q) ∈ values.zipIdx := List.mk_mem_zipIdx_iff_getElem?.mpr hq
      exact absurd (List.find?_eq_none.mp hfind _ found) (by simp)
  | some e =>
    obtain ⟨k, i⟩ := e
    obtain rfl : i = q := by simpa using List.find?_some hfind
    have found := List.mem_of_find?_eq_some hfind
    rw [List.mk_mem_zipIdx_iff_getElem?] at found
    exact found.symm

theorem ofPartition_spec (partition : List Nat) : (ofPartition partition).Valid ∧
    ∀ q : Nat, (ofPartition partition).classOf[q]? = partition[q]? := by
  have valid_empty : ClassTable.empty.Valid :=
    ⟨fun k q => by simp [membersOf, ClassTable.empty], fun k s h => by simp [ClassTable.empty] at h⟩
  have nodup : (partition.zipIdx.map (·.2)).Nodup := by
    rw [List.zipIdx_map_snd]
    exact List.nodup_range'
  obtain ⟨hvalid, hclass⟩ := foldl_assign_entries valid_empty nodup
  refine ⟨hvalid, fun q => (hclass q).trans ?_⟩
  rw [find?_zipIdx]
  simp [ClassTable.empty]

theorem covers_ofPartition (partition : List Nat) :
    (ofPartition partition).Covers partition.length := by
  intro q
  rw [(ofPartition_spec partition).2 q]
  constructor
  · rintro ⟨k, hk⟩
    exact (List.getElem?_eq_some_iff.mp hk).1
  · exact fun hq => ⟨_, List.getElem?_eq_getElem hq⟩

/-! ### Counting classes -/

/-- The classes in use on the first `n` states. -/
def image (t : ClassTable) (n : Nat) : Finset Nat :=
  (Finset.range n).image fun q => (t.classOf[q]?).getD 0

theorem Covers.mem_image (ht : t.Covers n) :
    k ∈ t.image n ↔ ∃ q : Nat, t.classOf[q]? = some k := by
  simp only [image, Finset.mem_image, Finset.mem_range]
  constructor
  · rintro ⟨q, hq, rfl⟩
    obtain ⟨k, hk⟩ := (ht q).mpr hq
    exact ⟨q, by simp [hk]⟩
  · rintro ⟨q, hk⟩
    exact ⟨q, (ht q).mp ⟨k, hk⟩, by simp [hk]⟩

/-- The number of classes is the size of the image of the class function. -/
theorem Valid.classCount_eq (ht : t.Valid) (hn : t.Covers n) :
    t.classCount = (t.image n).card := by
  have keys : t.members.keys.toFinset = t.image n := by
    ext k
    rw [List.mem_toFinset, Std.TreeMap.mem_keys, hn.mem_image, Std.TreeMap.mem_iff_isSome_getElem?,
      Option.isSome_iff_exists]
    constructor
    · rintro ⟨s, hs⟩
      obtain ⟨q, hq⟩ := ht.nonempty k s hs
      exact ⟨q, (ht.mem_membersOf k q).mp (by simpa [membersOf, hs] using hq)⟩
    · rintro ⟨q, hq⟩
      have hmem := (ht.mem_membersOf k q).mpr hq
      cases hs : t.members[k]? with
      | none => simp [membersOf, hs] at hmem
      | some s => exact ⟨s, rfl⟩
  rw [← keys, List.toFinset_card_of_nodup, Std.TreeMap.length_keys]
  · rfl
  · exact Std.TreeMap.nodup_keys

theorem Valid.classCount_le (ht : t.Valid) (hn : t.Covers n) : t.classCount ≤ n := by
  rw [ht.classCount_eq hn]
  exact (Finset.card_image_le).trans_eq (Finset.card_range n)

/-- Classes numbered without gaps lie below their number. -/
theorem lt_classCount_ofPartition {partition : List Nat}
    (h : ∀ k ∈ partition, ∀ j < k, j ∈ partition) (hk : k ∈ partition) :
    k < (ofPartition partition).classCount := by
  have hcovers := covers_ofPartition partition
  obtain ⟨hvalid, hclass⟩ := ofPartition_spec partition
  rw [hvalid.classCount_eq hcovers, ← Nat.add_one_le_iff, ← Finset.card_range (k + 1)]
  refine Finset.card_le_card fun j hj => hcovers.mem_image.mpr ?_
  have hmem : j ∈ partition := by
    rcases Nat.lt_succ_iff_lt_or_eq.mp (Finset.mem_range.mp hj) with hlt | rfl
    · exact h k hk j hlt
    · exact hk
  obtain ⟨q, hq⟩ := List.mem_iff_getElem?.mp hmem
  exact ⟨q, (hclass q).trans hq⟩

/-! ### Splitting -/

/-- The lists are the classes of the table, each with all of its members and met
once. -/
structure Visits (t : ClassTable) (classes : List (List Nat)) : Prop where
  whole : ∀ ms ∈ classes, ∃ k, ∀ q, q ∈ ms ↔ t.classOf[q]? = some k
  disjoint : classes.Pairwise fun ms ns => ∀ q ∈ ms, q ∉ ns
  covers : ∀ q k : Nat, t.classOf[q]? = some k → ∃ ms ∈ classes, q ∈ ms

/-- Only states with a class are met. -/
theorem Visits.lt_of_mem {classes : List (List Nat)} (h : t.Visits classes) (hn : t.Covers n)
    {ms : List Nat} (hms : ms ∈ classes) (hq : q ∈ ms) : q < n := by
  obtain ⟨k, hk⟩ := h.whole ms hms
  exact (hn q).mp ⟨k, (hk q).mp hq⟩

theorem values_eq_map_toList {α β : Type} {cmp : α → α → Ordering} (m : Std.TreeMap α β cmp) :
    m.values = m.toList.map (·.2) := by
  show m.foldr (fun _ v l => v :: l) [] = _
  rw [Std.TreeMap.foldr_eq_foldr_toList]
  induction m.toList with
  | nil => rfl
  | cons e l ih => rw [List.foldr_cons, ih, List.map_cons]

theorem Valid.visits_ascendingClasses (ht : t.Valid) : t.Visits t.ascendingClasses := by
  have entry {s : StateSet} : s ∈ t.members.values ↔ ∃ k : Nat, t.members[k]? = some s := by
    rw [values_eq_map_toList, List.mem_map]
    constructor
    · rintro ⟨⟨k, s⟩, hmem, rfl⟩
      exact ⟨k, Std.TreeMap.mem_toList_iff_getElem?_eq_some.mp hmem⟩
    · rintro ⟨k, hk⟩
      exact ⟨(k, s), Std.TreeMap.mem_toList_iff_getElem?_eq_some.mpr hk, rfl⟩
  -- What is listed of a class is what the other side of the table says of it.
  have members_iff {k : Nat} {s : StateSet} (hs : t.members[k]? = some s) (q : Nat) :
      q ∈ s.toList ↔ t.classOf[q]? = some k := by
    rw [StateSet.mem_toList, ← ht.mem_membersOf k q, membersOf, hs, Option.getD_some]
  constructor
  -- Every list visited is that of a class, lists of two classes are disjoint, and none is left
  -- out.
  · intro ms hms
    obtain ⟨s, hs, rfl⟩ := List.mem_map.mp hms
    obtain ⟨k, hk⟩ := entry.mp hs
    exact ⟨k, members_iff hk⟩
  · rw [ascendingClasses, values_eq_map_toList, List.map_map, List.pairwise_map]
    refine (Std.TreeMap.distinct_keys_toList).imp_of_mem ?_
    rintro ⟨j, s⟩ ⟨k, u⟩ hs hu hne q hq hq'
    rw [Std.TreeMap.mem_toList_iff_getElem?_eq_some] at hs hu
    have hj := (members_iff hs q).mp hq
    have hk := (members_iff hu q).mp hq'
    rw [hj] at hk
    exact hne (Nat.compare_eq_eq.mpr (Option.some.inj hk))
  · intro q k hq
    have hmem := (ht.mem_membersOf k q).mpr hq
    cases hs : t.members[k]? with
    | none => simp [membersOf, hs] at hmem
    | some s =>
      exact ⟨s.toList, List.mem_map.mpr ⟨s, entry.mpr ⟨k, hs⟩, rfl⟩, (members_iff hs q).mpr hq⟩

end ClassTable

namespace Dfa

variable {d : Dfa} {t t' : ClassTable} {fresh fresh' n : Nat}

/-- What refinement keeps: a table of the first `n` states whose classes lie below
the next number. -/
structure Refinable (t : ClassTable) (n fresh : Nat) : Prop where
  valid : t.Valid
  covers : t.Covers n
  lt_fresh : ∀ q k : Nat, t.classOf[q]? = some k → k < fresh

/-- Every class of the first table lies inside a class of the second. -/
def Refines (t t' : ClassTable) : Prop :=
  ∀ p q : Nat, t.classOf[p]? = t.classOf[q]? → t'.classOf[p]? = t'.classOf[q]?

/-- The members of the class move like the first of them. -/
def Uniform (d : Dfa) (t : ClassTable) (members : List Nat) : Prop :=
  ∀ first ∈ members.head?, ∀ q ∈ members, d.agree t q first = true

/-! ### Moving states into a new class -/

section moving

variable {moved : List Nat} (ht : Refinable t n fresh)

include ht

theorem Refinable.ne_fresh (q : Nat) : t.classOf[q]? ≠ some fresh :=
  fun h => Nat.lt_irrefl _ (ht.lt_fresh q fresh h)

theorem Refinable.foldl_assign (hn : ∀ q ∈ moved, q < n) :
    Refinable (moved.foldl (fun t q => t.assign q fresh) t) n (fresh + 1) where
  valid := ht.valid.foldl_assign
  covers r := by
    rw [ClassTable.classOf_foldl_assign]
    split
    · rename_i hr
      simp [hn r hr]
    · exact ht.covers r
  lt_fresh r k hk := by
    rw [ClassTable.classOf_foldl_assign] at hk
    split at hk
    · cases hk
      exact Nat.lt_succ_self fresh
    · exact Nat.lt_succ_of_lt (ht.lt_fresh r k hk)

/-- What was in one class and moves together lies inside the old class. -/
theorem Refinable.refines_foldl_assign
    (hm : ∀ p ∈ moved, ∀ q ∈ moved, t.classOf[p]? = t.classOf[q]?) :
    Refines (moved.foldl (fun t q => t.assign q fresh) t) t := by
  intro p q hpq
  rw [ClassTable.classOf_foldl_assign, ClassTable.classOf_foldl_assign] at hpq
  split at hpq <;> split at hpq
  · exact hm p ‹_› q ‹_›
  · exact absurd hpq.symm (ht.ne_fresh q)
  · exact absurd hpq (ht.ne_fresh p)
  · exact hpq

/-- The classes in use stay in use, since a class that loses members keeps its first one. -/
theorem Refinable.classCount_lt_foldl_assign {first q₀ : Nat} (hn : ∀ q ∈ moved, q < n)
    (hq₀ : q₀ ∈ moved) (hfirst : first ∉ moved)
    (hm : ∀ q ∈ moved, t.classOf[first]? = t.classOf[q]?) :
    t.classCount < (moved.foldl (fun t q => t.assign q fresh) t).classCount := by
  have ht' := ht.foldl_assign hn
  rw [ht.valid.classCount_eq ht.covers, ht'.valid.classCount_eq ht'.covers, ← Nat.add_one_le_iff,
    ← Finset.card_insert_of_notMem (a := fresh)]
  · refine Finset.card_le_card fun k hk => ht'.covers.mem_image.mpr ?_
    rcases Finset.mem_insert.mp hk with rfl | hk
    · exact ⟨q₀, by rw [ClassTable.classOf_foldl_assign, if_pos hq₀]⟩
    · obtain ⟨q, hq⟩ := ht.covers.mem_image.mp hk
      by_cases hmem : q ∈ moved
      · exact ⟨first, by rw [ClassTable.classOf_foldl_assign, if_neg hfirst, hm q hmem, hq]⟩
      · exact ⟨q, by rw [ClassTable.classOf_foldl_assign, if_neg hmem, hq]⟩
  · rw [ht.covers.mem_image]
    exact fun ⟨q, hq⟩ => ht.ne_fresh q hq

end moving

/-! ### Splitting classes -/

/-- Splitting a class changes nothing, or it moves some members into a new class
and leaves the first one behind. -/
theorem splitClass_cases (ht : Refinable t n fresh) {members : List Nat}
    (hm : ∀ p ∈ members, ∀ q ∈ members, t.classOf[p]? = t.classOf[q]?)
    (hn : ∀ q ∈ members, q < n) :
    (d.splitClass (t, fresh) members = (t, fresh) ∧ d.Uniform t members) ∨
    ∃ t', d.splitClass (t, fresh) members = (t', fresh + 1) ∧ Refinable t' n (fresh + 1) ∧
      Refines t' t ∧ t.classCount < t'.classCount ∧
      ∀ q, q ∉ members → t'.classOf[q]? = t.classOf[q]? := by
  cases members with
  | nil => exact Or.inl ⟨rfl, fun first hfirst => by cases hfirst⟩
  | cons first rest =>
    rw [splitClass]
    cases hmoved : (first :: rest).filter fun q => !d.agree t q first with
    | nil =>
      refine Or.inl ⟨rfl, fun p hp q hq => ?_⟩
      obtain rfl := Option.some.inj hp
      have := List.filter_eq_nil_iff.mp hmoved q hq
      simpa using this
    | cons q₀ moved =>
      -- from here on the members that move are known by membership alone
      simp only
      generalize hall : q₀ :: moved = all at hmoved
      have hq₀ : q₀ ∈ all := hall ▸ List.mem_cons_self
      have mem_all (q : Nat) : q ∈ all ↔ q ∈ first :: rest ∧ d.agree t q first = false := by
        rw [← hmoved, List.mem_filter, Bool.not_eq_true']
      have mem_members (q : Nat) (hq : q ∈ all) : q ∈ first :: rest := ((mem_all q).mp hq).1
      have hfirst : first ∉ all := by
        rw [mem_all]
        rintro ⟨_, hne⟩
        simp [agree] at hne
      have hn_all (q : Nat) (hq : q ∈ all) : q < n := hn q (mem_members q hq)
      refine Or.inr ⟨_, rfl, ht.foldl_assign hn_all,
        ht.refines_foldl_assign fun p hp q hq => hm p (mem_members p hp) q (mem_members q hq),
        ht.classCount_lt_foldl_assign hn_all hq₀ hfirst fun q hq =>
          hm first List.mem_cons_self q (mem_members q hq), fun q hq => ?_⟩
      rw [ClassTable.classOf_foldl_assign, if_neg fun hmem => hq (mem_members q hmem)]

/-- Splitting classes of one table in turn changes nothing, or it adds a class. -/
theorem foldl_splitClass_cases (ht : Refinable t n fresh) {classes : List (List Nat)}
    (hm : ∀ ms ∈ classes, ∀ p ∈ ms, ∀ q ∈ ms, t.classOf[p]? = t.classOf[q]?)
    (hn : ∀ ms ∈ classes, ∀ q ∈ ms, q < n)
    (hd : classes.Pairwise fun ms ns => ∀ q ∈ ms, q ∉ ns) :
    (classes.foldl d.splitClass (t, fresh) = (t, fresh) ∧ ∀ ms ∈ classes, d.Uniform t ms) ∨
    ∃ t' fresh', classes.foldl d.splitClass (t, fresh) = (t', fresh') ∧ Refinable t' n fresh' ∧
      Refines t' t ∧ t.classCount < t'.classCount := by
  induction classes generalizing t fresh with
  | nil => exact Or.inl ⟨rfl, fun ms hms => by cases hms⟩
  | cons ms classes ih =>
    rw [List.pairwise_cons] at hd
    rw [List.foldl_cons]
    obtain ⟨hsame, huniform⟩ | ⟨t₁, hstep, ht₁, hrefines, hcount, hothers⟩ :=
      splitClass_cases (d := d) ht (hm ms List.mem_cons_self) (hn ms List.mem_cons_self)
    · rw [hsame]
      obtain ⟨hrest, hall⟩ | hgrown := ih ht (fun ns hns => hm ns (List.mem_cons_of_mem _ hns))
        (fun ns hns => hn ns (List.mem_cons_of_mem _ hns)) hd.2
      · exact Or.inl ⟨hrest, fun ns hns => (List.mem_cons.mp hns).elim (· ▸ huniform) (hall ns)⟩
      · exact Or.inr hgrown
    · rw [hstep]
      right
      -- the classes still to be split share no member with the one that has been
      have hm₁ : ∀ ns ∈ classes, ∀ p ∈ ns, ∀ q ∈ ns, t₁.classOf[p]? = t₁.classOf[q]? := by
        intro ns hns p hp q hq
        rw [hothers p fun h => hd.1 ns hns p h hp, hothers q fun h => hd.1 ns hns q h hq]
        exact hm ns (List.mem_cons_of_mem _ hns) p hp q hq
      obtain ⟨hrest, _⟩ | ⟨t₂, fresh₂, hrest, ht₂, hrefines₂, hcount₂⟩ :=
        ih ht₁ hm₁ (fun ns hns => hn ns (List.mem_cons_of_mem _ hns)) hd.2
      · exact ⟨t₁, fresh + 1, hrest, ht₁, hrefines, hcount⟩
      · exact ⟨t₂, fresh₂, hrest, ht₂, fun p q h => hrefines p q (hrefines₂ p q h),
          Nat.lt_trans hcount hcount₂⟩

/-! ### Passes -/

/-- States of one class have moves on the same symbols into the same classes. -/
def Stable (d : Dfa) (t : ClassTable) : Prop :=
  ∀ p q : Nat, t.classOf[p]? = t.classOf[q]? → (∃ k, t.classOf[p]? = some k) → d.agree t p q = true

theorem agree_iff {p q : Nat} : d.agree t p q = true ↔ ∀ c ∈ d.alphabet,
    (d.delta p c).map (fun u => t.classOf[u]?) = (d.delta q c).map (fun u => t.classOf[u]?) := by
  simp [agree]

theorem agree_symm {p q : Nat} (h : d.agree t p q = true) : d.agree t q p = true :=
  agree_iff.mpr fun c hc => (agree_iff.mp h c hc).symm

theorem agree_trans {p q r : Nat} (hpq : d.agree t p q = true) (hqr : d.agree t q r = true) :
    d.agree t p r = true :=
  agree_iff.mpr fun c hc => (agree_iff.mp hpq c hc).trans (agree_iff.mp hqr c hc)

variable {visit : ClassTable → List (List Nat)}

/-- A pass adds a class, or it changes nothing because members of a class move
alike already. -/
theorem refinePass_cases (ht : Refinable t n fresh) (hv : t.Visits (visit t)) :
    (d.refinePass visit t fresh = (t, fresh) ∧ d.Stable t) ∨
    ∃ t' fresh', d.refinePass visit t fresh = (t', fresh') ∧ Refinable t' n fresh' ∧
      Refines t' t ∧ t.classCount < t'.classCount := by
  have hm : ∀ ms ∈ visit t, ∀ p ∈ ms, ∀ q ∈ ms, t.classOf[p]? = t.classOf[q]? := by
    intro ms hms p hp q hq
    obtain ⟨k, hk⟩ := hv.whole ms hms
    rw [(hk p).mp hp, (hk q).mp hq]
  have hn : ∀ ms ∈ visit t, ∀ q ∈ ms, q < n := fun ms hms q hq => hv.lt_of_mem ht.covers hms hq
  obtain ⟨hsame, huniform⟩ | hgrown := foldl_splitClass_cases (d := d) ht hm hn hv.disjoint
  -- If no class is split, every member agrees with the first of its class, hence with every
  -- other.
  · refine Or.inl ⟨hsame, fun p q hpq ⟨k, hk⟩ => ?_⟩
    obtain ⟨ms, hms, hp⟩ := hv.covers p k hk
    obtain ⟨j, hj⟩ := hv.whole ms hms
    have hq : q ∈ ms := (hj q).mpr (hpq ▸ (hj p).mp hp)
    cases hms' : ms with
    | nil => rw [hms'] at hp; cases hp
    | cons first rest =>
      have hfirst : first ∈ ms.head? := by rw [hms']; rfl
      exact agree_trans (huniform ms hms first hfirst p hp)
        (agree_symm (huniform ms hms first hfirst q hq))
  · exact Or.inr hgrown

theorem refinable_refinePass (hv : ∀ t : ClassTable, t.Valid → t.Visits (visit t))
    (ht : Refinable t n fresh) :
    Refinable (d.refinePass visit t fresh).1 n (d.refinePass visit t fresh).2 := by
  obtain ⟨hsame, _⟩ | ⟨t', fresh', hpass, ht', _⟩ := refinePass_cases (d := d) ht (hv t ht.valid)
  · rw [hsame]
    exact ht
  · rw [hpass]
    exact ht'

/-- The passes end with a stable table, since all but the last add a class and there
are no more classes than states. -/
theorem refineLoop_spec (hv : ∀ t : ClassTable, t.Valid → t.Visits (visit t)) {passes : Nat}
    (ht : Refinable t n fresh) (hpasses : n < passes + t.classCount) :
    (d.refineLoop visit passes t fresh).Valid ∧ (d.refineLoop visit passes t fresh).Covers n ∧
      Refines (d.refineLoop visit passes t fresh) t ∧
      d.Stable (d.refineLoop visit passes t fresh) := by
  induction passes generalizing t fresh with
  | zero =>
    have := ht.valid.classCount_le ht.covers
    omega
  | succ passes ih =>
    simp only [refineLoop]
    obtain ⟨hsame, hstable⟩ | ⟨t', fresh', hpass, ht', hrefines, hcount⟩ :=
      refinePass_cases (d := d) ht (hv t ht.valid)
    · simp only [hsame, if_pos]
      exact ⟨ht.valid, ht.covers, fun _ _ h => h, hstable⟩
    · simp only [hpass, if_neg (Nat.ne_of_gt hcount)]
      obtain ⟨h₁, h₂, h₃, h₄⟩ := ih ht' (by omega)
      exact ⟨h₁, h₂, fun p q h => hrefines p q (h₃ p q h), h₄⟩

/-- Members of one class of a stable table move alike on each symbol of the alphabet. -/
theorem Stable.delta_rel_of_mem (hstable : d.Stable t) (ht : t.Covers n) {p q : Nat} {c : Char}
    (hp : p < n) (h : t.classOf[p]? = t.classOf[q]?) (hc : c ∈ d.alphabet) :
    Option.Rel (fun u v => t.classOf[u]? = t.classOf[v]?) (d.delta p c) (d.delta q c) := by
  have hmoves := agree_iff.mp (hstable p q h ((ht p).mpr hp)) c hc
  generalize d.delta p c = x, d.delta q c = y at hmoves
  cases x <;> cases y
  · exact .none
  · cases hmoves
  · cases hmoves
  · exact .some (Option.some.inj hmoves)

/-- Members of one class of a stable table move on the same symbols, into the same classes. -/
theorem Stable.delta_rel (hstable : d.Stable t) (hd : d.WellFormed) (ht : t.Covers d.size)
    {p q : Nat} (hp : p < d.size) (h : t.classOf[p]? = t.classOf[q]?) (c : Char) :
    Option.Rel (fun u v => t.classOf[u]? = t.classOf[v]?) (d.delta p c) (d.delta q c) := by
  by_cases hc : c ∈ d.alphabet
  · exact hstable.delta_rel_of_mem ht hp h hc
  · rw [hd.delta_eq_none hc, hd.delta_eq_none hc]
    exact .none

/-- Classes numbered without gaps can be refined. -/
theorem refinable_ofPartition {partition : List Nat} (hlength : partition.length = d.size)
    (hgaps : ∀ k ∈ partition, ∀ j < k, j ∈ partition) :
    Refinable (.ofPartition partition) d.size (ClassTable.ofPartition partition).classCount where
  valid := (ClassTable.ofPartition_spec partition).1
  covers := hlength ▸ ClassTable.covers_ofPartition partition
  lt_fresh q k hk := by
    rw [(ClassTable.ofPartition_spec partition).2 q] at hk
    exact ClassTable.lt_classCount_ofPartition hgaps (List.mem_of_getElem? hk)

/-- Refinement of a partition whose classes are numbered without gaps ends with
classes inside the given ones whose members move alike. -/
theorem refine_spec (hv : ∀ t : ClassTable, t.Valid → t.Visits (visit t)) {partition : List Nat}
    (hlength : partition.length = d.size) (hpos : 0 < d.size)
    (hgaps : ∀ k ∈ partition, ∀ j < k, j ∈ partition) :
    (d.refine visit partition).Valid ∧ (d.refine visit partition).Covers d.size ∧
      Refines (d.refine visit partition) (ClassTable.ofPartition partition) ∧
      d.Stable (d.refine visit partition) := by
  have ht := refinable_ofPartition hlength hgaps
  obtain ⟨k, hk⟩ := (ht.covers 0).mpr hpos
  have := ht.lt_fresh 0 k hk
  exact refineLoop_spec hv ht (by omega)

end Dfa

end Transduction
