/-
Minimization of deterministic automata.

The quotient of an automaton by the refinement of a partition moves as the
automaton does, so every word leads to states that correspond:

* `Dfa.Merges` — what it means that one automaton merges states of another, where
  a list tells the new number of each state;
* `Dfa.merges_minimizeWithin` — minimization merges states inside the classes of
  the partition it is given;
* `Dfa.acceptancePartition?_eq_some_iff` — every state has a mark exactly if looking for the
  marks of all states finds them;
* `Dfa.recognizes_minimizeBy` — minimization keeps the language, in whatever order
  refinement visits classes and members.
-/
import Transduction.Checked.Loops
import Transduction.Proofs.Refinement

namespace Transduction.Dfa

variable {d m : Dfa} {newState : List (Option Nat)} {partition : List Nat}
  {visit : ClassTable → List (List Nat)} {p q i j : Nat} {c : Char} {w : Word}

/-- State `i` of the smaller automaton is where the state `q` has gone. -/
def GoesTo (newState : List (Option Nat)) (i q : Nat) : Prop := (newState[q]?).join = some i

/-- The automaton `m` merges states of `d` that lie in one class of a partition. -/
structure Merges (d : Dfa) (partition : List Nat) (m : Dfa) (newState : List (Option Nat)) :
    Prop where
  wellFormed : m.WellFormed
  lt_size : ∀ i q, GoesTo newState i q → q < d.size
  start : GoesTo newState m.start d.start
  delta : ∀ i q c, GoesTo newState i q → Option.Rel (GoesTo newState) (m.delta i c) (d.delta q c)
  inside : ∀ i p q, GoesTo newState i p → GoesTo newState i q → partition[p]? = partition[q]?
  isAccepting : ∀ i q, GoesTo newState i q →
    ∃ p, GoesTo newState i p ∧ m.isAccepting i = d.isAccepting p

theorem Merges.follow (h : d.Merges partition m newState) (hi : GoesTo newState i q) :
    Option.Rel (GoesTo newState) (follow m.delta i w) (follow d.delta q w) :=
  follow_rel (fun i q c hi => h.delta i q c hi) hi

/-- Where the partition separates by acceptance, the merged automaton keeps it. -/
theorem Merges.isAccepting_eq (h : d.Merges partition m newState)
    (hacc : ∀ p q, p < d.size → q < d.size → partition[p]? = partition[q]? →
      d.isAccepting p = d.isAccepting q)
    (hi : GoesTo newState i q) : m.isAccepting i = d.isAccepting q := by
  obtain ⟨p, hp, haccepting⟩ := h.isAccepting i q hi
  exact haccepting.trans (hacc p q (h.lt_size i p hp) (h.lt_size i q hi) (h.inside i p q hp hi))

/-! ### The quotient by a refinement -/

/-- The moves of a state, by ascending symbol. -/
def movesOf (d : Dfa) (q : Nat) : List (Char × Nat) :=
  d.alphabet.filterMap fun c => (d.delta q c).map fun u => (c, u)

theorem lookup_movesOf (hd : d.WellFormed) : (d.movesOf q).lookup c = d.delta q c := by
  rw [movesOf, lookup_filterMap_symbols fun _ => rfl]
  split
  · rfl
  · rename_i hc
    cases h : d.delta q c with
    | none => rfl
    | some u => exact absurd (hd.mem_alphabet_of_delta h) hc

theorem mem_movesOf {u : Nat} : (c, u) ∈ d.movesOf q ↔ c ∈ d.alphabet ∧ d.delta q c = some u :=
  mem_filterMap_symbols fun _ => rfl

theorem WellFormed.lt_size_of_mem_movesOf (hd : d.WellFormed) {u : Nat}
    (h : (c, u) ∈ d.movesOf q) : u < d.size :=
  hd.delta_lt (mem_movesOf.mp h).2

/-- The smaller automaton is explored over the classes. -/
theorem minimizeWithin_fst : (d.minimizeWithin visit partition).1 =
    ofExploration (fun q => (d.refine visit partition).classOf[q]?) d.isAccepting
      (foundFrom (fun q => (d.refine visit partition).classOf[q]?) d.movesOf d.size d.start) :=
  rfl

/-- A state goes where its class is met. -/
theorem goesTo_minimizeWithin_iff : GoesTo (d.minimizeWithin visit partition).2 i q ↔
    q < d.size ∧ StandsFor (fun q => (d.refine visit partition).classOf[q]?)
      (foundFrom (fun q => (d.refine visit partition).classOf[q]?) d.movesOf d.size d.start)
      i q := by
  rw [standsFor_iff_numberOf, numberOf, GoesTo, minimizeWithin, quotient]
  by_cases hq : q < d.size
  · simp [hq]
    rfl
  · simp [hq]

/-- Every state of the smaller automaton is where a state has gone that a word leads to. -/
theorem exists_goesTo (hd : d.WellFormed) (hi : i < (d.minimizeWithin visit partition).1.size) :
    ∃ q w, GoesTo (d.minimizeWithin visit partition).2 i q ∧ follow d.delta d.start w = some q := by
  rw [minimizeWithin_fst, size_ofExploration] at hi
  have hentry := List.getElem?_eq_getElem hi
  obtain ⟨w, hw⟩ := exists_follow_of_mem_foundFrom (δ := d.delta)
    (fun _ _ _ hmove => (mem_movesOf.mp hmove).2) (List.mem_of_getElem? hentry)
  have hlt := follow_keeps (P := (· < d.size)) (fun _ _ _ _ => hd.delta_lt) hd.start_lt hw
  exact ⟨_, w, goesTo_minimizeWithin_iff.mpr ⟨hlt, _, hentry, rfl⟩, hw⟩

/-- Members of one class go to one state. -/
theorem eq_of_goesTo (hi : GoesTo (d.minimizeWithin visit partition).2 i p)
    (hj : GoesTo (d.minimizeWithin visit partition).2 j q)
    (hclass : (d.refine visit partition).classOf[p]? = (d.refine visit partition).classOf[q]?) :
    i = j := by
  obtain ⟨_, entry, hentry, hp⟩ := goesTo_minimizeWithin_iff.mp hi
  obtain ⟨_, hq⟩ := goesTo_minimizeWithin_iff.mp hj
  exact StandsFor.unique ⟨entry, hentry, hp.trans hclass⟩ hq

/-- Minimization merges states inside the classes of the partition it is given. -/
theorem merges_minimizeWithin (hv : ∀ t : ClassTable, t.Valid → t.Visits (visit t))
    (hd : d.WellFormed) (hlength : partition.length = d.size)
    (hgaps : ∀ k ∈ partition, ∀ j < k, j ∈ partition) :
    d.Merges partition (d.minimizeWithin visit partition).1
      (d.minimizeWithin visit partition).2 := by
  have hpos : 0 < d.size := Nat.zero_lt_of_lt hd.start_lt
  obtain ⟨_, hcovers, hrefines, hstable⟩ := refine_spec (d := d) hv hlength hpos hgaps
  have goesTo_iff (i q : Nat) : GoesTo (d.minimizeWithin visit partition).2 i q ↔ _ :=
    goesTo_minimizeWithin_iff
  generalize ht : d.refine visit partition = t at hcovers hrefines hstable goesTo_iff
  let key : Nat → Option Nat := fun q => t.classOf[q]?
  have hfst : (d.minimizeWithin visit partition).1 =
      ofExploration key d.isAccepting (foundFrom key d.movesOf d.size d.start) := by
    rw [minimizeWithin_fst, ht]
  have htarget : ∀ k, k < d.size → ∀ c u, (c, u) ∈ d.movesOf k → u < d.size :=
    fun k _ c u hu => hd.lt_size_of_mem_movesOf hu
  have hkeys : ∀ k, k < d.size → key k ∈ (List.range d.size).map key :=
    fun k hk => List.mem_map.mpr ⟨k, List.mem_range.mpr hk, rfl⟩
  -- members of a class move alike
  have hsame : ∀ a b, a < d.size → b < d.size → key a = key b → ∀ c,
      Option.Rel (fun x y => key x = key y) ((d.movesOf a).lookup c) ((d.movesOf b).lookup c) := by
    intro a b ha _ hab c
    rw [lookup_movesOf hd, lookup_movesOf hd]
    exact hstable.delta_rel hd hcovers ha hab c
  rw [hfst]
  constructor
  · exact wellFormed_ofExploration hpos fun q =>
      pairwise_filterMap_symbols (fun _ => rfl) hd.alphabet_ascending
  · exact fun i q hi => ((goesTo_iff i q).mp hi).1
  · exact (goesTo_iff _ _).mpr ⟨hd.start_lt, standsFor_root hpos⟩
  · intro i q c hi
    obtain ⟨hq, hi⟩ := (goesTo_iff i q).mp hi
    have h := delta_ofExploration d.isAccepting (P := (· < d.size)) hd.start_lt htarget hkeys
      (by simp) hsame hq hi (c := c)
    rw [lookup_movesOf hd] at h
    generalize hx : Dfa.delta _ i c = x, hy : d.delta q c = y at h ⊢
    cases h with
    | none => exact .none
    | some h => exact .some ((goesTo_iff _ _).mpr ⟨hd.delta_lt hy, h⟩)
  · intro i p q hp hq
    obtain ⟨hp, entry, hentry, hkp⟩ := (goesTo_iff i p).mp hp
    obtain ⟨hq, entry', hentry', hkq⟩ := (goesTo_iff i q).mp hq
    obtain rfl := Option.some.inj (hentry.symm.trans hentry')
    obtain ⟨_, hclass⟩ := ClassTable.ofPartition_spec partition
    have := hrefines p q (hkp.symm.trans hkq)
    rwa [hclass, hclass] at this
  · intro i q hi
    obtain ⟨_, entry, hentry, _⟩ := (goesTo_iff i q).mp hi
    have hlt : entry.1 < d.size := forall_mem_explore (P := (· < d.size))
      (List.mem_of_getElem? hentry) (fun k hk => List.mem_singleton.mp hk ▸ hd.start_lt)
      fun k hk u hu => by
        obtain ⟨⟨c, _⟩, hc, rfl⟩ := List.mem_map.mp hu
        exact htarget k hk c _ hc
    exact ⟨entry.1, (goesTo_iff _ _).mpr ⟨hlt, entry, hentry, rfl⟩,
      isAccepting_ofExploration hentry⟩

/-- A word leads to every state of the smaller automaton. -/
theorem exists_follow_minimizeWithin (hv : ∀ t : ClassTable, t.Valid → t.Visits (visit t))
    (hd : d.WellFormed) (hlength : partition.length = d.size)
    (hgaps : ∀ k ∈ partition, ∀ j < k, j ∈ partition)
    (hi : i < (d.minimizeWithin visit partition).1.size) :
    ∃ w, follow (d.minimizeWithin visit partition).1.delta
      (d.minimizeWithin visit partition).1.start w = some i := by
  have hmerges := merges_minimizeWithin hv hd hlength hgaps
  obtain ⟨q, w, hiq, hq⟩ := exists_goesTo hd hi
  have hfollow := hmerges.follow (w := w) hmerges.start
  rw [hq] at hfollow
  obtain ⟨j, hj, hjq⟩ := rel_some_right hfollow
  exact ⟨w, hj.trans (hjq.symm.trans hiq)⟩

/-! ### Minimal automata -/

theorem getElem?_acceptancePartition (hq : q < d.size) : d.acceptancePartition[q]? =
    some (if d.accepting.isMixed && d.isAccepting q then 1 else 0) := by
  simp [acceptancePartition, hq]

/-- Where each state has a mark, looking for the marks finds them all. -/
theorem acceptancePartition?_eq_some_iff {partition : List Nat} :
    d.acceptancePartition? = some partition ↔
      d.size ≤ d.accepting.size ∧ d.acceptancePartition = partition := by
  have found (h : d.size ≤ d.accepting.size) :
      d.acceptancePartition? = some d.acceptancePartition := by
    refine mapM_eq_some_map fun q hq => ?_
    have hmark : q < d.accepting.values.size := (List.mem_range.mp hq).trans_le h
    simp [isAccepting, Marks.contains, Array.getElem?_eq_getElem hmark]
  constructor
  · intro h
    have hsize : d.size ≤ d.accepting.size := by
      by_contra hmissing
      have hmark := isSome_of_mapM_eq_some h d.accepting.size
        (List.mem_range.mpr (Nat.lt_of_not_le hmissing))
      simp [Marks.size] at hmark
    exact ⟨hsize, Option.some.inj ((found hsize).symm.trans h)⟩
  · rintro ⟨hsize, rfl⟩
    exact found hsize

/-- Marks that are not mixed are all equal. -/
theorem WellFormed.isAccepting_eq_of_isMixed (hd : d.WellFormed)
    (h : d.accepting.isMixed = false) (hp : p < d.size) (hq : q < d.size) :
    d.isAccepting p = d.isAccepting q := by
  have marked (r : Nat) (hr : r < d.size) : d.isAccepting r ∈ d.accepting.values := by
    have hr' : r < d.accepting.values.size := hr.trans_eq hd.accepting_size.symm
    rw [isAccepting, Marks.contains, Array.getElem?_eq_getElem hr', Option.getD_some]
    exact Array.getElem_mem hr'
  rw [Marks.isMixed, Bool.and_eq_false_iff, Bool.not_eq_false'] at h
  rcases h with h | h
  · have hall (r : Nat) (hr : r < d.size) : d.isAccepting r = false :=
      Bool.eq_false_iff.mpr (Array.any_eq_false'.mp h _ (marked r hr))
    rw [hall p hp, hall q hq]
  · have hall (r : Nat) (hr : r < d.size) : d.isAccepting r = true :=
      Array.all_eq_true'.mp h _ (marked r hr)
    rw [hall p hp, hall q hq]

/-- Some state has no mark where the marks are mixed. -/
def SomeUnmarked (d : Dfa) : Prop :=
  d.accepting.isMixed = true → 0 < d.size → ∃ q < d.size, d.isAccepting q = false

/-- Where there are as many marks as states, the mark that is missing is that of a state. -/
theorem WellFormed.exists_not_accepting (hd : d.WellFormed) (h : d.accepting.isMixed = true) :
    ∃ q, q < d.size ∧ d.isAccepting q = false := by
  by_contra hnone
  rw [Marks.isMixed, Bool.and_eq_true, Bool.not_eq_true'] at h
  refine Bool.eq_false_iff.mp h.2 (Array.all_eq_true'.mpr fun b hb => ?_)
  obtain ⟨q, hq, rfl⟩ := Array.mem_iff_getElem.mp hb
  by_contra hfalse
  refine hnone ⟨q, hd.accepting_size ▸ hq, ?_⟩
  rw [isAccepting, Marks.contains, Array.getElem?_eq_getElem hq, Option.getD_some]
  exact Bool.eq_false_iff.mpr hfalse

theorem WellFormed.someUnmarked (hd : d.WellFormed) : d.SomeUnmarked :=
  fun hmixed _ => hd.exists_not_accepting hmixed

/-- If some state has no mark where the marks are mixed, then the classes of the partition by
acceptance are numbered without gaps. -/
theorem SomeUnmarked.gaps (h : d.SomeUnmarked) :
    ∀ k ∈ d.acceptancePartition, ∀ j < k, j ∈ d.acceptancePartition := by
  intro k hk j hj
  obtain ⟨q, hq, rfl⟩ := List.mem_map.mp hk
  split at hj
  · rename_i hmark
    obtain ⟨r, hr, hnot⟩ := h (Bool.and_eq_true_iff.mp hmark).1
      (Nat.zero_lt_of_lt (List.mem_range.mp hq))
    obtain rfl : j = 0 := by omega
    exact List.mem_map.mpr ⟨r, List.mem_range.mpr hr, by simp [hnot]⟩
  · omega

theorem acceptancePartition_gaps (hd : d.WellFormed) :
    ∀ k ∈ d.acceptancePartition, ∀ j < k, j ∈ d.acceptancePartition :=
  hd.someUnmarked.gaps

theorem isAccepting_eq_of_acceptancePartition (hd : d.WellFormed) (hp : p < d.size)
    (hq : q < d.size) (h : d.acceptancePartition[p]? = d.acceptancePartition[q]?) :
    d.isAccepting p = d.isAccepting q := by
  cases hmixed : d.accepting.isMixed with
  | false => exact hd.isAccepting_eq_of_isMixed hmixed hp hq
  | true =>
    rw [getElem?_acceptancePartition hp, getElem?_acceptancePartition hq, hmixed] at h
    cases hap : d.isAccepting p <;> cases haq : d.isAccepting q <;> simp [hap, haq] at h ⊢

/-- States with equal marks lie in one class, and no others do. -/
theorem acceptancePartition_eq_iff (hd : d.WellFormed) (hp : p < d.size) (hq : q < d.size) :
    d.acceptancePartition[p]? = d.acceptancePartition[q]? ↔ d.isAccepting p = d.isAccepting q := by
  refine ⟨isAccepting_eq_of_acceptancePartition hd hp hq, fun h => ?_⟩
  rw [getElem?_acceptancePartition hp, getElem?_acceptancePartition hq, h]

theorem merges_minimizeBy (hv : ∀ t : ClassTable, t.Valid → t.Visits (visit t))
    (hd : d.WellFormed) :
    ∃ newState, d.Merges d.acceptancePartition (d.minimizeBy visit) newState :=
  ⟨_, merges_minimizeWithin hv hd (by simp [acceptancePartition]) (acceptancePartition_gaps hd)⟩

/-- Minimization keeps where words lead, up to acceptance. -/
theorem follow_minimizeBy (hv : ∀ t : ClassTable, t.Valid → t.Visits (visit t))
    (hd : d.WellFormed) :
    Option.Rel (fun i q => (d.minimizeBy visit).isAccepting i = d.isAccepting q)
      (follow (d.minimizeBy visit).delta (d.minimizeBy visit).start w)
      (follow d.delta d.start w) := by
  obtain ⟨newState, h⟩ := merges_minimizeBy hv hd
  have hfollow := h.follow (w := w) h.start
  generalize follow (d.minimizeBy visit).delta _ w = x, follow d.delta _ w = y at hfollow ⊢
  cases hfollow with
  | none => exact .none
  | some hi =>
    refine .some (h.isAccepting_eq (fun p q hp hq => ?_) hi)
    exact isAccepting_eq_of_acceptancePartition hd hp hq

/-- Minimization keeps the language. -/
theorem recognizes_minimizeBy (hv : ∀ t : ClassTable, t.Valid → t.Visits (visit t))
    (hd : d.WellFormed) : (d.minimizeBy visit).recognizes w = d.recognizes w := by
  have h := follow_minimizeBy (w := w) hv hd
  rw [Bool.eq_iff_iff, recognizes_iff, recognizes_iff]
  generalize follow (d.minimizeBy visit).delta _ w = x, follow d.delta _ w = y at h
  cases h with
  | none => simp
  | some h => simp [h]

theorem wellFormed_minimizeBy (hv : ∀ t : ClassTable, t.Valid → t.Visits (visit t))
    (hd : d.WellFormed) : (d.minimizeBy visit).WellFormed := by
  obtain ⟨_, h⟩ := merges_minimizeBy hv hd
  exact h.wellFormed

theorem wellFormed_minimize (hd : d.WellFormed) : d.minimize.WellFormed :=
  wellFormed_minimizeBy (fun _ ht => ht.visits_ascendingClasses) hd

theorem recognizes_minimize (hd : d.WellFormed) : d.minimize.recognizes w = d.recognizes w :=
  recognizes_minimizeBy (fun _ ht => ht.visits_ascendingClasses) hd

end Transduction.Dfa
