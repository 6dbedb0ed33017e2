/-
Refinement finds what words tell apart.

The run of a state on a word shows nothing if a move is missing, and otherwise what is
seen of the state where it ends: its acceptance, say, or its class in a partition.  A word
tells two states apart when their runs on it show different things.  A member leaves its
class only for a move that another member lacks or that leads into another class, so
refinement separates only states that some word tells apart; and it ends with classes whose
members move alike, so it separates all of them:

* `Dfa.observed` — what the run of a state on a word shows;
* `Dfa.Separates` — states in different classes of a table are told apart by some word;
* `Dfa.Separates.refinePass`, `Dfa.Separates.refine` — a pass of refinement keeps that, and
  so does refinement;
* `Dfa.classOf_refine_eq_iff` — the classes that refinement ends with hold the states that no
  word tells apart, in whatever order it visits classes and members.
-/
import Transduction.Proofs.Minimization

namespace Transduction.Dfa

variable {α : Type} {d : Dfa} {see : Nat → α} {t : ClassTable} {partition : List Nat}
  {newState : List (Option Nat)} {visit : ClassTable → List (List Nat)} {n fresh p q i r : Nat}
  {c : Char} {w : Word}

/-! ### What runs show -/

/-- What the run of a state on a word shows: nothing if a move is missing, and otherwise what is
seen of the state where it ends. -/
def observed (d : Dfa) (see : Nat → α) (q : Nat) (w : Word) : Option α :=
  (follow d.delta q w).map see

theorem observed_nil : d.observed see q [] = some (see q) := rfl

theorem observed_cons :
    d.observed see q (c :: w) = (d.delta q c).bind fun r => d.observed see r w := by
  rw [observed, follow_cons, Option.map_bind]
  rfl

/-- Where a word shows different things, one state cannot read it and the other one can, or both
read it, to states that show different things. -/
theorem observed_ne_cases (h : d.observed see p w ≠ d.observed see q w) :
    (∃ s, follow d.delta p w = some s ∧ follow d.delta q w = none) ∨
    (∃ s, follow d.delta p w = none ∧ follow d.delta q w = some s) ∨
    ∃ s t, follow d.delta p w = some s ∧ follow d.delta q w = some t ∧ see s ≠ see t := by
  rw [observed, observed] at h
  cases hp : follow d.delta p w with
  | none =>
    cases hq : follow d.delta q w with
    | none =>
      rw [hp, hq] at h
      exact absurd rfl h
    | some t => exact Or.inr (Or.inl ⟨t, rfl, rfl⟩)
  | some s =>
    cases hq : follow d.delta q w with
    | none => exact Or.inl ⟨s, rfl, rfl⟩
    | some t =>
      rw [hp, hq] at h
      exact Or.inr (Or.inr ⟨s, t, rfl, rfl, mt (congrArg some) h⟩)

/-- Members of one class of a stable table show the same, if that holds of the states
themselves. -/
theorem Stable.observed_eq (hstable : d.Stable t) (hd : d.WellFormed) (ht : t.Covers d.size)
    (hsee : ∀ p q, p < d.size → q < d.size → t.classOf[p]? = t.classOf[q]? → see p = see q)
    (hp : p < d.size) (hq : q < d.size) (h : t.classOf[p]? = t.classOf[q]?) :
    d.observed see p w = d.observed see q w := by
  let R (u v : Nat) : Prop := (u < d.size ∧ v < d.size) ∧ t.classOf[u]? = t.classOf[v]?
  have hstep (u v : Nat) (c : Char) (huv : R u v) : Option.Rel R (d.delta u c) (d.delta v c) := by
    obtain ⟨⟨hu, _⟩, hclass⟩ := huv
    have hrel := hstable.delta_rel hd ht hu hclass c
    generalize hx : d.delta u c = x, hy : d.delta v c = y at hrel ⊢
    cases hrel with
    | none => exact .none
    | some hxy => exact .some ⟨⟨hd.delta_lt hx, hd.delta_lt hy⟩, hxy⟩
  have hfollow : Option.Rel R (follow d.delta p w) (follow d.delta q w) :=
    follow_rel hstep ⟨⟨hp, hq⟩, h⟩
  rw [observed, observed]
  generalize follow d.delta p w = x, follow d.delta q w = y at hfollow
  cases hfollow with
  | none => rfl
  | some huv => exact congrArg some (hsee _ _ huv.1.1 huv.1.2 huv.2)

/-! ### Splitting separates what words tell apart -/

/-- Some word tells states apart that lie in different classes. -/
def Separates (d : Dfa) (see : Nat → α) (t : ClassTable) : Prop :=
  ∀ p q k j : Nat, t.classOf[p]? = some k → t.classOf[q]? = some j → k ≠ j →
    ∃ w, d.observed see p w ≠ d.observed see q w

/-- States that do not move alike are told apart, since one has a move that the other lacks or
they move into different classes. -/
theorem Separates.exists_observed_ne (hs : d.Separates see t) (hd : d.WellFormed)
    (ht : t.Covers d.size) (h : d.agree t p q = false) :
    ∃ w, d.observed see p w ≠ d.observed see q w := by
  have hnot : ¬∀ c ∈ d.alphabet,
      (d.delta p c).map (fun u => t.classOf[u]?) = (d.delta q c).map (fun u => t.classOf[u]?) := by
    rw [← agree_iff, h]
    exact Bool.false_ne_true
  push Not at hnot
  obtain ⟨c, _, hc⟩ := hnot
  -- If one of the states does not move, its symbol is the word; if both do, the symbol goes in
  -- front of a word that tells the targets apart.
  cases hp : d.delta p c with
  | none =>
    cases hq : d.delta q c with
    | none => simp [hp, hq] at hc
    | some v => exact ⟨[c], by simp [observed_cons, observed_nil, hp, hq]⟩
  | some u =>
    cases hq : d.delta q c with
    | none => exact ⟨[c], by simp [observed_cons, observed_nil, hp, hq]⟩
    | some v =>
      obtain ⟨k, hk⟩ := (ht u).mpr (hd.delta_lt hp)
      obtain ⟨j, hj⟩ := (ht v).mpr (hd.delta_lt hq)
      have hne : k ≠ j := by
        rintro rfl
        simp [hp, hq, hk, hj] at hc
      obtain ⟨w, hw⟩ := hs u v k j hk hj hne
      exact ⟨c :: w, by simpa [observed_cons, hp, hq] using hw⟩

/-- The members of a list are one whole class, if there are any. -/
def WholeClass (t : ClassTable) (members : List Nat) : Prop :=
  ∀ p ∈ members, ∀ q : Nat, q ∈ members ↔ t.classOf[q]? = t.classOf[p]?

theorem wholeClass_of_visits {classes : List (List Nat)} (h : t.Visits classes) {ms : List Nat}
    (hms : ms ∈ classes) : WholeClass t ms := by
  intro p hp q
  obtain ⟨k, hk⟩ := h.whole ms hms
  rw [hk q, (hk p).mp hp]

theorem classOf_splitClass {first : Nat} {rest : List Nat} :
    (d.splitClass (t, fresh) (first :: rest)).1.classOf[r]? =
      if r ∈ first :: rest ∧ d.agree t r first = false then some fresh else t.classOf[r]? := by
  have mem_moved : r ∈ (first :: rest).filter (fun q => !d.agree t q first) ↔
      r ∈ first :: rest ∧ d.agree t r first = false := by
    rw [List.mem_filter, Bool.not_eq_true']
  rw [← if_congr mem_moved rfl rfl, splitClass]
  cases (first :: rest).filter fun q => !d.agree t q first with
  | nil => rw [if_neg List.not_mem_nil]
  | cons q₀ moved => exact ClassTable.classOf_foldl_assign

/-- Members that a split takes apart do not move alike. -/
theorem Separates.splitClass (hs : d.Separates see t) (hd : d.WellFormed) (ht : t.Covers d.size)
    {members : List Nat} (hwhole : WholeClass t members) (hn : ∀ q ∈ members, q < d.size) :
    d.Separates see (d.splitClass (t, fresh) members).1 := by
  cases members with
  | nil => exact hs
  | cons first rest =>
    -- one of the states moves and the other one stays behind in the class
    have key : ∀ p q : Nat, p ∈ first :: rest → d.agree t p first = false →
        t.classOf[q]? = t.classOf[p]? → ¬(q ∈ first :: rest ∧ d.agree t q first = false) →
        ∃ w, d.observed see p w ≠ d.observed see q w := by
      intro p q hp hpmoves hclass hqstays
      have hq : q ∈ first :: rest := (hwhole p hp q).mpr hclass
      have hqfirst : d.agree t q first = true := by
        by_contra hfalse
        exact hqstays ⟨hq, Bool.eq_false_iff.mpr hfalse⟩
      refine hs.exists_observed_ne hd ht (Bool.eq_false_iff.mpr fun hpq => ?_)
      have hpfirst : d.agree t p first = true := agree_trans hpq hqfirst
      rw [hpmoves] at hpfirst
      cases hpfirst
    intro p q k j hk hj hne
    rw [classOf_splitClass] at hk hj
    split at hk <;> split at hj
    · exact absurd (Option.some.inj (hk.symm.trans hj)) hne
    · rename_i hpmoves hqstays
      by_cases hclass : t.classOf[q]? = t.classOf[p]?
      · exact key p q hpmoves.1 hpmoves.2 hclass hqstays
      · obtain ⟨k', hk'⟩ := (ht p).mpr (hn p hpmoves.1)
        exact hs p q k' j hk' hj fun h => hclass (by rw [hj, hk', h])
    · rename_i hpstays hqmoves
      by_cases hclass : t.classOf[p]? = t.classOf[q]?
      · obtain ⟨w, hw⟩ := key q p hqmoves.1 hqmoves.2 hclass hpstays
        exact ⟨w, hw.symm⟩
      · obtain ⟨j', hj'⟩ := (ht q).mpr (hn q hqmoves.1)
        exact hs p q k j' hk hj' fun h => hclass (by rw [hk, hj', h])
    · exact hs p q k j hk hj hne

/-- A class that is still to be split stays whole while another one is. -/
theorem WholeClass.splitClass (ht : Refinable t n fresh) {ms ns : List Nat}
    (hns : WholeClass t ns) (hn : ∀ q ∈ ns, q < n) (hdisjoint : ∀ q ∈ ms, q ∉ ns) :
    WholeClass (d.splitClass (t, fresh) ms).1 ns := by
  cases ms with
  | nil => exact hns
  | cons first rest =>
    intro p hp q
    obtain ⟨k, hk⟩ := (ht.covers p).mpr (hn p hp)
    have hstays : ¬(p ∈ first :: rest ∧ d.agree t p first = false) := fun h => hdisjoint p h.1 hp
    rw [classOf_splitClass, classOf_splitClass, if_neg hstays]
    split
    · rename_i hmoves
      refine iff_of_false (hdisjoint q hmoves.1) fun h => ?_
      rw [hk] at h
      exact absurd (ht.lt_fresh p k hk) (Option.some.inj h ▸ Nat.lt_irrefl fresh)
    · exact hns p hp q

theorem Separates.foldl_splitClass (hs : d.Separates see t) (hd : d.WellFormed)
    (ht : Refinable t d.size fresh) {classes : List (List Nat)}
    (hwhole : ∀ ms ∈ classes, WholeClass t ms) (hn : ∀ ms ∈ classes, ∀ q ∈ ms, q < d.size)
    (hdisjoint : classes.Pairwise fun ms ns => ∀ q ∈ ms, q ∉ ns) :
    d.Separates see (classes.foldl d.splitClass (t, fresh)).1 := by
  -- the induction is on the classes to split, which stay whole until their turn comes
  induction classes generalizing t fresh with
  | nil => exact hs
  | cons ms classes ih =>
    rw [List.pairwise_cons] at hdisjoint
    rw [List.foldl_cons]
    have hms := hwhole ms List.mem_cons_self
    have hmn := hn ms List.mem_cons_self
    have hnext : d.Separates see (d.splitClass (t, fresh) ms).1 :=
      hs.splitClass hd ht.covers hms hmn
    have hrest : ∀ ns ∈ classes, WholeClass (d.splitClass (t, fresh) ms).1 ns := fun ns hns =>
      (hwhole ns (List.mem_cons_of_mem _ hns)).splitClass ht
        (hn ns (List.mem_cons_of_mem _ hns)) (hdisjoint.1 ns hns)
    have hnrest : ∀ ns ∈ classes, ∀ q ∈ ns, q < d.size :=
      fun ns hns => hn ns (List.mem_cons_of_mem _ hns)
    obtain ⟨hsame, _⟩ | ⟨t', hstep, ht', _⟩ := splitClass_cases (d := d) ht
      (fun p hp q hq => ((hms p hp q).mp hq).symm) hmn
    · rw [hsame] at hnext hrest ⊢
      exact ih hnext ht hrest hnrest hdisjoint.2
    · rw [hstep] at hnext hrest ⊢
      exact ih hnext ht' hrest hnrest hdisjoint.2

/-- A partition by what is seen of states separates only states that the empty word tells
apart. -/
theorem separates_ofPartition (hlength : partition.length = d.size)
    (hsee : ∀ p q, p < d.size → q < d.size → see p = see q → partition[p]? = partition[q]?) :
    d.Separates see (.ofPartition partition) := by
  intro p q k j hk hj hne
  rw [(ClassTable.ofPartition_spec partition).2] at hk hj
  have hp : p < d.size := (List.getElem?_eq_some_iff.mp hk).1.trans_eq hlength
  have hq : q < d.size := (List.getElem?_eq_some_iff.mp hj).1.trans_eq hlength
  refine ⟨[], fun h => hne ?_⟩
  have hclass := hsee p q hp hq (Option.some.inj h)
  rw [hk, hj] at hclass
  exact Option.some.inj hclass

/-! ### Refinement -/

section passes

variable (hv : ∀ t : ClassTable, t.Valid → t.Visits (visit t))

include hv

/-- A pass of refinement separates only what words tell apart. -/
theorem Separates.refinePass (hs : d.Separates see t) (hd : d.WellFormed)
    (ht : Refinable t d.size fresh) : d.Separates see (d.refinePass visit t fresh).1 := by
  have hvisits := hv t ht.valid
  exact hs.foldl_splitClass hd ht (fun ms hms => wholeClass_of_visits hvisits hms)
    (fun ms hms q hq => hvisits.lt_of_mem ht.covers hms hq) hvisits.disjoint

theorem Separates.refineLoop (hs : d.Separates see t) (hd : d.WellFormed)
    (ht : Refinable t d.size fresh) (passes : Nat) :
    d.Separates see (d.refineLoop visit passes t fresh) := by
  induction passes generalizing t fresh with
  | zero => exact hs
  | succ passes ih =>
    simp only [Dfa.refineLoop]
    split
    · exact hs.refinePass hv hd ht
    · exact ih (hs.refinePass hv hd ht) (refinable_refinePass hv ht)

variable (hd : d.WellFormed) (hlength : partition.length = d.size)
  (hgaps : ∀ k ∈ partition, ∀ j < k, j ∈ partition)

include hd hlength hgaps

/-- Refinement separates only what words tell apart, if the given partition does. -/
theorem Separates.refine (hs : d.Separates see (.ofPartition partition)) :
    d.Separates see (d.refine visit partition) :=
  hs.refineLoop hv hd (refinable_ofPartition hlength hgaps) _

/-- Refinement of the partition by what is seen of states ends with the classes of states that
no word tells apart. -/
theorem classOf_refine_eq_iff
    (hsee : ∀ p q, p < d.size → q < d.size → (partition[p]? = partition[q]? ↔ see p = see q))
    (hp : p < d.size) (hq : q < d.size) :
    (d.refine visit partition).classOf[p]? = (d.refine visit partition).classOf[q]? ↔
      ∀ w, d.observed see p w = d.observed see q w := by
  obtain ⟨_, hcovers, hrefines, hstable⟩ :=
    refine_spec (d := d) hv hlength (Nat.zero_lt_of_lt hd.start_lt) hgaps
  constructor
  · intro hclass w
    refine hstable.observed_eq hd hcovers (fun u v hu hv' huv => ?_) hp hq hclass
    have hinside := hrefines u v huv
    rw [(ClassTable.ofPartition_spec partition).2, (ClassTable.ofPartition_spec partition).2]
      at hinside
    exact (hsee u v hu hv').mp hinside
  · intro hsame
    obtain ⟨k, hk⟩ := (hcovers p).mpr hp
    obtain ⟨j, hj⟩ := (hcovers q).mpr hq
    -- Refinement splits only what some word tells apart.
    have hseparates : d.Separates see (d.refine visit partition) :=
      (separates_ofPartition hlength fun u v hu hv' => (hsee u v hu hv').mpr).refine hv hd
        hlength hgaps
    by_contra hne
    rw [hk, hj] at hne
    obtain ⟨w, hw⟩ := hseparates p q k j hk hj fun h => hne (congrArg some h)
    exact hw (hsame w)

end passes

end Transduction.Dfa
