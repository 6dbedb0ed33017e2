/-
Minimization, with every state and class looked up.

Two states are compared by their rows, the class of a state is looked up in the table of the
partition, and the number of a class among those that have been met:

* `Dfa.agree?`, `Dfa.splitClass?`, `Dfa.refine?`, with `Dfa.refine?_eq` — the passes of refinement;
* `Dfa.quotient?`, with `Dfa.quotient?_eq` — the automaton of the classes;
* `Dfa.minimizeWithin?`, `Dfa.minimize?`, with an equation for each.
-/
import Transduction.Checked.Deterministic
import Transduction.Proofs.Minimization

namespace Transduction.Dfa

variable {visit : ClassTable → List (List Nat)} {d : Dfa} {t : ClassTable} {p q fresh passes : Nat}
  {members partition : List Nat}

/-! ### Refinement -/

/-- Whether two states have moves on the same symbols into the same classes. -/
def agree? (d : Dfa) (t : ClassTable) (p q : Nat) : Option Bool := do
  let row ← d.rows[p]?
  let row' ← d.rows[q]?
  return d.alphabet.all fun c =>
    (row.lookup c).map (fun u => t.classOf[u]?) == (row'.lookup c).map (fun u => t.classOf[u]?)

/-- Moves the members of a class that differ from the first one into the class `fresh`; returns the
next class number without use too. -/
def splitClass? (d : Dfa) (state : ClassTable × Nat) (members : List Nat) :
    Option (ClassTable × Nat) := do
  let (t, fresh) := state
  match members with
  | [] => return (t, fresh)
  | first :: _ =>
    match ← filter? (fun q => (d.agree? t q first).map (!·)) members with
    | [] => return (t, fresh)
    | moved => return (moved.foldl (fun t q => t.assign q fresh) t, fresh + 1)

/-- Splits every class of the table once, in the order that `visit` gives. -/
def refinePass? (visit : ClassTable → List (List Nat)) (d : Dfa) (t : ClassTable) (fresh : Nat) :
    Option (ClassTable × Nat) := (visit t).foldlM d.splitClass? (t, fresh)

/-- At most `passes` passes, the last of which is one that adds no class. -/
def refineLoop? (visit : ClassTable → List (List Nat)) (d : Dfa) :
    Nat → ClassTable → Nat → Option ClassTable
  | 0, t, _ => some t
  | passes + 1, t, fresh => do
    let (t', fresh') ← d.refinePass? visit t fresh
    if t'.classCount = t.classCount then return t' else refineLoop? visit d passes t' fresh'

/-- The coarsest refinement of a partition in which the members of a class move alike. -/
def refine? (visit : ClassTable → List (List Nat)) (d : Dfa) (partition : List Nat) :
    Option ClassTable :=
  let t := ClassTable.ofPartition partition
  d.refineLoop? visit d.size t t.classCount

theorem agree?_eq (hp : p < d.size) (hq : q < d.size) : d.agree? t p q = some (d.agree t p q) := by
  have row {r : Nat} (hr : r < d.size) : d.rows[r]? = some (d.row r) := by
    rw [Dfa.row, Array.getElem?_eq_getElem hr]
    rfl
  rw [agree?, row hp, row hq]
  rfl

theorem splitClass?_eq (hmembers : ∀ q ∈ members, q < d.size) :
    d.splitClass? (t, fresh) members = some (d.splitClass (t, fresh) members) := by
  cases members with
  | nil => rfl
  | cons first rest =>
    have hfirst := hmembers first List.mem_cons_self
    have hmoved : filter? (fun q => (d.agree? t q first).map (!·)) (first :: rest) =
        some ((first :: rest).filter fun q => !d.agree t q first) :=
      filter?_eq fun q hq => by rw [agree?_eq (hmembers q hq) hfirst, Option.map_some]
    simp only [splitClass?, splitClass, hmoved, Option.bind_eq_bind, Option.bind_some]
    generalize (first :: rest).filter (fun q => !d.agree t q first) = moved
    cases moved <;> rfl

section passes

variable (hv : ∀ t : ClassTable, t.Valid → t.Visits (visit t))

include hv

theorem refinePass?_eq (ht : Refinable t d.size fresh) :
    d.refinePass? visit t fresh = some (d.refinePass visit t fresh) :=
  (foldlM_eq_some_foldl (P := fun _ => True) trivial fun _ _ _ hmembers =>
    ⟨splitClass?_eq fun _ hq => (hv t ht.valid).lt_of_mem ht.covers hmembers hq, trivial⟩).1

theorem refineLoop?_eq (ht : Refinable t d.size fresh) :
    d.refineLoop? visit passes t fresh = some (d.refineLoop visit passes t fresh) := by
  induction passes generalizing t fresh with
  | zero => rfl
  | succ passes ih =>
    simp only [refineLoop?, refineLoop, refinePass?_eq hv ht, Option.bind_eq_bind, Option.bind_some]
    split
    · rfl
    · exact ih (refinable_refinePass hv ht)

/-- Only states are compared, so refinement fails nowhere. -/
theorem refine?_eq (hlength : partition.length = d.size)
    (hgaps : ∀ k ∈ partition, ∀ j < k, j ∈ partition) :
    d.refine? visit partition = some (d.refine visit partition) :=
  refineLoop?_eq hv (refinable_ofPartition hlength hgaps)

end passes

/-! ### The automaton of the classes -/

/-- The moves of a state, by ascending symbol; the class of each target is looked up. -/
def classMoves? (d : Dfa) (t : ClassTable) (q : Nat) : Option (List (Char × Nat)) :=
  (d.movesOf q).mapM fun (c, u) => (t.classOf[u]?).map fun _ => (c, u)

/-- The automaton of the classes of a table, and the new number of each state. -/
def quotient? (d : Dfa) (t : ClassTable) : Option (Dfa × List (Option Nat)) := do
  let classOf (q : Nat) : Option Nat := t.classOf[q]?
  let _ ← classOf d.start
  let found ← explore? classOf (d.classMoves? t) (fun moves => moves.map (·.2)) d.size [d.start]
  let number := numbering (found.map fun entry => classOf entry.1)
  let merged ← ofExploration? classOf (fun q => some (d.isAccepting q)) found
  return (merged, (List.range d.size).map fun q => number[classOf q]?)

/-- Merges the states that lie in one class of the partition and that no word tells apart. -/
def minimizeWithin? (visit : ClassTable → List (List Nat)) (d : Dfa) (partition : List Nat) :
    Option (Dfa × List (Option Nat)) := do
  let t ← d.refine? visit partition
  d.quotient? t

/-- The automaton in which states that no word tells apart are one. -/
def minimizeBy? (visit : ClassTable → List (List Nat)) (d : Dfa) : Option Dfa := do
  let partition ← d.acceptancePartition?
  let merged ← d.minimizeWithin? visit partition
  return merged.1

theorem quotient?_eq (hd : d.WellFormed) (ht : t.Covers d.size) :
    d.quotient? t = some (d.quotient t) := by
  -- Every state met has a class: the start state and all targets are states.
  have hclass {q : Nat} (hq : q < d.size) : ∃ k, t.classOf[q]? = some k := (ht q).mpr hq
  have hroots : ∀ q ∈ [d.start], q < d.size := List.forall_mem_singleton.mpr hd.start_lt
  have htargets : ∀ q < d.size, ∀ c u, (c, u) ∈ d.movesOf q → u < d.size := fun q _ c u =>
    hd.lt_size_of_mem_movesOf
  have hmoves : ∀ q < d.size, d.classMoves? t q = some (d.movesOf q) := fun q hq =>
    (mapM_eq_some_map fun (c, u) hu => by
      obtain ⟨k, hk⟩ := hclass (htargets q hq c u hu)
      simp only [hk, Option.map_some]
      rfl).trans (congrArg some (List.map_id _))
  -- So neither the search
  have hfound : explore? (fun q => t.classOf[q]?) (d.classMoves? t) (fun moves => moves.map (·.2))
      d.size [d.start] = some (foundFrom (fun q => t.classOf[q]?) d.movesOf d.size d.start) := by
    refine explore?_eq (P := (· < d.size)) hroots fun q hq => ⟨hmoves q hq, fun u hu => ?_⟩
    obtain ⟨⟨c, _⟩, hmove, rfl⟩ := List.mem_map.mp hu
    exact htargets q hq c _ hmove
  -- nor the numbering behind it misses anything.
  have hmerged : ofExploration? (fun q => t.classOf[q]?) (fun q => some (d.isAccepting q))
      (foundFrom (fun q => t.classOf[q]?) d.movesOf d.size d.start) = some (ofExploration
        (fun q => t.classOf[q]?) d.isAccepting
        (foundFrom (fun q => t.classOf[q]?) d.movesOf d.size d.start)) := by
    refine ofExploration?_eq ?_ (fun _ _ => rfl) fun entry hentry => ?_
    · have hkeys (q : Nat) (hq : q < d.size) :
          t.classOf[q]? ∈ (List.range d.size).map fun q => t.classOf[q]? :=
        List.mem_map_of_mem (List.mem_range.mpr hq)
      exact numbered_explore hroots htargets hkeys (by simp)
    · rw [foundFrom] at hentry
      rw [snd_of_mem_explore hentry]
      exact pairwise_filterMap_symbols (fun _ => rfl) hd.alphabet_ascending
  obtain ⟨k, hk⟩ := hclass hd.start_lt
  simp only [quotient?, hk, hfound, hmerged, Option.bind_eq_bind, Option.bind_some]
  rfl

section merging

variable (hv : ∀ t : ClassTable, t.Valid → t.Visits (visit t)) (hd : d.WellFormed)

include hv hd

theorem minimizeWithin?_eq (hlength : partition.length = d.size)
    (hgaps : ∀ k ∈ partition, ∀ j < k, j ∈ partition) :
    d.minimizeWithin? visit partition = some (d.minimizeWithin visit partition) := by
  have hpos : 0 < d.size := Nat.zero_lt_of_lt hd.start_lt
  obtain ⟨_, hcovers, _⟩ := refine_spec (d := d) hv hlength hpos hgaps
  rw [minimizeWithin?, refine?_eq hv hlength hgaps, Option.bind_eq_bind, Option.bind_some]
  exact quotient?_eq hd hcovers

/-- Minimization fails nowhere. -/
theorem minimizeBy?_eq : d.minimizeBy? visit = some (d.minimizeBy visit) := by
  have hpartition : d.acceptancePartition? = some d.acceptancePartition :=
    acceptancePartition?_eq_some_iff.mpr ⟨hd.accepting_size.ge, rfl⟩
  have hlength : d.acceptancePartition.length = d.size := by simp [acceptancePartition]
  rw [minimizeBy?, hpartition, Option.bind_eq_bind, Option.bind_some,
    minimizeWithin?_eq hv hd hlength (acceptancePartition_gaps hd)]
  rfl

end merging

end Transduction.Dfa
