/-
Trimming keeps the accepted runs.

The useful states of a machine are those on a path from an initial to an
accepting state.  Every accepted run stays inside them, so trimming, which drops
the others, keeps the labels of the accepted runs:

* `Machine.Useful` — the state lies on a path from an initial to an accepting state;
* `Machine.mem_usefulStates_iff` — what the two searches compute;
* `Machine.TrimEnds`, `Machine.Closed.trimEnds` — both searches end;
* `Machine.acceptsLabels_trim` — the labels of accepted runs are kept;
* `Machine.wellFormed_trim` — the trimmed machine has an initial state, even where
  no state is useful;
* `Machine.useful_trim` — where a state is useful, all states of the trimmed machine
  are.
-/
import Transduction.Exploration.Queue
import Transduction.Machine.Trim
import Transduction.Proofs.Explored

namespace Transduction.Machine

variable {L : Type} {m : Machine L} {p q r : Nat} {ls : List L}

/-! ### The two searches -/

theorem mem_foldl_modify {targets : List Nat} {sources : Array (List Nat)} {i : Nat} :
    p ∈ ((targets.foldl (fun sources t => sources.modify t (q :: ·)) sources)[i]?).getD [] ↔
      p ∈ (sources[i]?).getD [] ∨ (p = q ∧ i ∈ targets ∧ i < sources.size) := by
  induction targets generalizing sources with
  | nil => simp
  | cons t targets ih =>
    rw [List.foldl_cons, ih, Array.getElem?_modify, Array.size_modify]
    by_cases hi : t = i
    · subst hi
      by_cases hlt : t < sources.size
      · simp only [if_pos, Array.getElem?_eq_getElem hlt, Option.map_some, Option.getD_some,
          List.mem_cons]
        grind
      · simp [hlt]
    · rw [if_neg hi]
      grind

/-- Modifying the entries at some positions keeps the number of entries. -/
theorem size_foldl_modify {α ε : Type} {position : ε → Nat} {change : ε → α → α} {es : List ε}
    {entries : Array α} :
    (es.foldl (fun entries e => entries.modify (position e) (change e)) entries).size =
      entries.size := by
  induction es generalizing entries with
  | nil => rfl
  | cons e es ih => rw [List.foldl_cons, ih, Array.size_modify]

theorem mem_predecessors (hq : q < m.size) :
    p ∈ ((m.predecessors[q]?).getD []) ↔ p ∈ m.accessible ∧ q ∈ m.successors p := by
  have fold {states : List Nat} {sources : Array (List Nat)} (hsize : sources.size = m.size) :
      p ∈ ((states.foldl (fun sources s => (m.successors s).foldl
        (fun sources t => sources.modify t (s :: ·)) sources) sources)[q]?).getD [] ↔
      p ∈ (sources[q]?).getD [] ∨ (p ∈ states ∧ q ∈ m.successors p) := by
    induction states generalizing sources with
    | nil => simp
    | cons s states ih =>
      rw [List.foldl_cons, ih (size_foldl_modify.trans hsize), mem_foldl_modify, hsize]
      grind
  rw [predecessors, fold (by simp)]
  simp only [Array.getElem?_replicate, hq, if_true, Option.getD_some, List.not_mem_nil, false_or,
    StateSet.mem_toList]

theorem mem_successors {t : Nat} : t ∈ m.successors q ↔ ∃ l, (l, t) ∈ m.moves q := by
  simp [successors]

theorem leads_successors_iff {roots : List Nat} :
    Leads m.successors roots q ↔ ∃ p ∈ roots, ∃ ls, Path m.moves p ls q := by
  constructor
  · intro h
    induction h with
    | @root k hk => exact ⟨k, hk, [], .nil k⟩
    | step _ ht ih =>
      obtain ⟨p, hp, ls, hpath⟩ := ih
      obtain ⟨l, hl⟩ := mem_successors.mp ht
      exact ⟨p, hp, ls ++ [l], hpath.append (.single hl)⟩
  · rintro ⟨p, hp, ls, hpath⟩
    exact hpath.keeps (.root hp) fun _ _ _ _ hk hl => .step hk (mem_successors.mpr ⟨_, hl⟩)

theorem lt_size_of_mem_successors (hm : m.Closed) (h : q ∈ m.successors p) : q < m.size := by
  obtain ⟨l, hl⟩ := mem_successors.mp h
  exact hm p l q hl

theorem mem_accessible (hm : m.Closed) :
    q ∈ m.accessible ↔ ∃ p ls, m.isInitial p = true ∧ Path m.moves p ls q := by
  rw [accessible, mem_reachable (fun _ => lt_size_of_mem_initialStates)
    (fun _ _ _ => lt_size_of_mem_successors hm), leads_successors_iff]
  constructor
  · rintro ⟨p, hp, ls, h⟩
    exact ⟨p, ls, mem_initialStates.mp hp, h⟩
  · rintro ⟨p, ls, hp, h⟩
    exact ⟨p, mem_initialStates.mpr hp, ls, h⟩

theorem lt_size_of_mem_accessible (hm : m.Closed) (h : q ∈ m.accessible) : q < m.size := by
  obtain ⟨p, ls, hp, hpath⟩ := (mem_accessible hm).mp h
  exact hm.path_lt hpath (lt_size_of_isInitial hp)

theorem lt_size_of_mem_predecessors (hm : m.Closed) (hq : q < m.size)
    (h : p ∈ (m.predecessors[q]?).getD []) : p < m.size :=
  lt_size_of_mem_accessible hm ((mem_predecessors hq).mp h).1

theorem mem_filter_acceptingStates : q ∈ m.acceptingStates.filter m.accessible.contains ↔
    m.isAccepting q = true ∧ q ∈ m.accessible := by
  rw [List.mem_filter, mem_acceptingStates, StateSet.mem_def]

theorem lt_size_of_mem_filter_acceptingStates
    (h : q ∈ m.acceptingStates.filter m.accessible.contains) : q < m.size :=
  lt_size_of_isAccepting (mem_filter_acceptingStates.mp h).1

/-- The second search meets the accessible states from which it can go on to acceptance. -/
theorem mem_coaccessible (hm : m.Closed) : q ∈ m.coaccessible ↔
    q ∈ m.accessible ∧ ∃ r ls, Path m.moves q ls r ∧ m.isAccepting r = true := by
  rw [coaccessible, mem_reachable (fun _ => lt_size_of_mem_filter_acceptingStates)
    (fun _ hr _ => lt_size_of_mem_predecessors hm hr)]
  constructor
  · intro h
    induction h with
    | @root r hr =>
      obtain ⟨hacc, hfore⟩ := mem_filter_acceptingStates.mp hr
      exact ⟨hfore, r, [], .nil r, hacc⟩
    | step _ ht ih =>
      obtain ⟨hfore, r, ls, hpath, hr⟩ := ih
      obtain ⟨htfore, hsucc⟩ := (mem_predecessors (lt_size_of_mem_accessible hm hfore)).mp ht
      obtain ⟨l, hl⟩ := mem_successors.mp hsucc
      exact ⟨htfore, r, l :: ls, .cons hl hpath, hr⟩
  · rintro ⟨hfore, r, ls, hpath, hr⟩
    -- every state on the path is accessible, and the search runs along it from its end
    induction hpath with
    | nil r => exact .root (mem_filter_acceptingStates.mpr ⟨hr, hfore⟩)
    | @cons q t r l ls hl _ ih =>
      have ht : t ∈ m.accessible := by
        obtain ⟨p, front, hp, hfront⟩ := (mem_accessible hm).mp hfore
        exact (mem_accessible hm).mpr ⟨p, front ++ [l], hp, hfront.append (.single hl)⟩
      exact .step (ih ht hr)
        ((mem_predecessors (hm q l t hl)).mpr ⟨hfore, mem_successors.mpr ⟨l, hl⟩⟩)

/-- Both searches of a trimming end: the queues of their roots are emptied. -/
structure TrimEnds (m : Machine L) : Prop where
  accessible : ∃ found, DrainsFrom id m.successors id m.initialStates found ∧
    m.accessible = StateSet.ofList (found.map (·.1))
  coaccessible : ∃ found, DrainsFrom id (fun q => (m.predecessors[q]?).getD []) id
      (m.acceptingStates.filter m.accessible.contains) found ∧
    m.coaccessible = StateSet.ofList (found.map (·.1))

theorem Closed.trimEnds (hm : m.Closed) : m.TrimEnds where
  accessible := drains_reachable (fun _ => lt_size_of_mem_initialStates)
    (fun _ _ _ => lt_size_of_mem_successors hm)
  coaccessible := drains_reachable (fun _ => lt_size_of_mem_filter_acceptingStates)
    (fun _ hr _ => lt_size_of_mem_predecessors hm hr)

/-- The state lies on a path from an initial to an accepting state. -/
abbrev Useful (m : Machine L) (q : Nat) : Prop :=
  (∃ p ls, m.isInitial p = true ∧ Path m.moves p ls q) ∧
    ∃ r ls, Path m.moves q ls r ∧ m.isAccepting r = true

/-- The two searches together find the useful states. -/
theorem mem_usefulStates_iff (hm : m.Closed) : q ∈ m.usefulStates ↔ m.Useful q := by
  rw [mem_usefulStates, mem_coaccessible hm, and_iff_right_of_imp fun h =>
    lt_size_of_mem_accessible hm h.1, mem_accessible hm]

theorem nodup_usefulStates (m : Machine L) : m.usefulStates.Nodup := List.nodup_range.filter _

/-! ### The trimmed machine -/

theorem renumbers_restrict {states : List Nat} (hstates : states.Nodup) :
    Renumbers (m.restrict states) states m.moves m.isInitial m.isAccepting where
  mem_moves i l j := by
    rw [moves, restrict]
    simp only [List.getElem?_toArray, List.getElem?_map]
    cases h : states[i]? with
    | none => simp
    | some q =>
      simp only [Option.map_some, Option.elim_some, List.mem_filterMap, Option.map_eq_some_iff,
        Prod.mk.injEq, getElem?_numbering hstates]
      constructor
      · rintro ⟨⟨l', t⟩, hmem, n, hn, rfl, rfl⟩
        exact ⟨q, t, rfl, hmem, hn⟩
      · rintro ⟨k, t, hk, hmem, hj⟩
        obtain rfl := Option.some.inj hk
        exact ⟨(l, t), hmem, j, hj, rfl, rfl⟩
  isInitial_iff i := by
    rw [isInitial, restrict]
    simp only [List.getElem?_toArray, List.getElem?_map]
    cases states[i]? <;> simp
  isAccepting_iff i := by
    rw [isAccepting, restrict]
    simp only [List.getElem?_toArray, List.getElem?_map]
    cases states[i]? <;> simp
  size_eq := by simp [size, restrict]

/-- The machine that a machine without useful states trims to. -/
def lone : Machine L := { nodes := #[{ initial := true }] }

@[simp] theorem moves_lone : (lone : Machine L).moves q = [] := by
  by_cases h : q = 0 <;> simp [moves, lone, h]

@[simp] theorem isAccepting_lone : (lone : Machine L).isAccepting q = false := by
  by_cases h : q = 0 <;> simp [isAccepting, lone, h]

/-- A machine with a useful state trims to the machine of its useful states; any
other trims to one initial state. -/
theorem trim_cases (m : Machine L) :
    (m.usefulStates ≠ [] ∧ m.trim = m.restrict m.usefulStates) ∨
      (m.usefulStates = [] ∧ m.trim = lone) := by
  unfold trim
  split
  · exact Or.inr ⟨by assumption, rfl⟩
  · rename_i h
    exact Or.inl ⟨h, rfl⟩

theorem mem_usefulStates_of_path (hm : m.Closed) {k t : Nat} {l : L} (hk : k ∈ m.usefulStates)
    (hl : (l, t) ∈ m.moves k) (hpath : Path m.moves t ls r) (hr : m.isAccepting r = true) :
    t ∈ m.usefulStates := by
  obtain ⟨⟨p, front, hp, hfront⟩, _⟩ := (mem_usefulStates_iff hm).mp hk
  exact (mem_usefulStates_iff hm).mpr
    ⟨⟨p, front ++ [l], hp, hfront.append (.single hl)⟩, r, ls, hpath, hr⟩

theorem acceptsLabels_trim (hm : m.Closed) : m.trim.AcceptsLabels ls ↔ m.AcceptsLabels ls := by
  have useful {p r : Nat} {ls : List L} (hp : m.isInitial p = true) (hpath : Path m.moves p ls r)
      (hr : m.isAccepting r = true) : p ∈ m.usefulStates :=
    (mem_usefulStates_iff hm).mpr ⟨⟨p, [], hp, .nil p⟩, r, ls, hpath, hr⟩
  rcases m.trim_cases with ⟨_, htrim⟩ | ⟨hnone, htrim⟩
  · rw [htrim, (renumbers_restrict m.nodup_usefulStates).acceptsLabels_iff]
    · rfl
    · exact fun p ls r hp hpath hr => useful hp hpath hr
    · exact fun k hk l t hl ls r hpath hr => mem_usefulStates_of_path hm hk hl hpath hr
  · rw [htrim]
    constructor
    -- the lone state accepts nothing
    · rintro ⟨_, q, _, _, hq⟩
      simp at hq
    · rintro ⟨p, r, hp, hpath, hr⟩
      have := useful hp hpath hr
      rw [hnone] at this
      simp at this

theorem wellFormed_trim (hm : m.Closed) : m.trim.WellFormed := by
  rcases m.trim_cases with ⟨hsome, htrim⟩ | ⟨_, htrim⟩
  · have hren := renumbers_restrict (m := m) m.nodup_usefulStates
    rw [htrim]
    refine ⟨hren.closed, ?_⟩
    -- the path that makes a state useful starts at a useful initial state
    obtain ⟨q, hq⟩ := List.exists_mem_of_ne_nil _ hsome
    obtain ⟨⟨p, ls, hp, hfront⟩, r, more, hback, hr⟩ := (mem_usefulStates_iff hm).mp hq
    obtain ⟨i, hi⟩ := List.getElem?_of_mem
      ((mem_usefulStates_iff hm).mpr ⟨⟨p, [], hp, .nil p⟩, r, ls ++ more, hfront.append hback, hr⟩)
    exact ⟨i, (hren.isInitial_iff i).mpr ⟨p, hi, hp⟩⟩
  · rw [htrim]
    exact ⟨fun q l t h => by simp at h, 0, rfl⟩

/-- Where some state is useful, all states of the trimmed machine are. -/
theorem useful_trim (hm : m.Closed) (hsome : m.usefulStates ≠ []) (hq : q < m.trim.size) :
    m.trim.Useful q := by
  obtain ⟨_, htrim⟩ | ⟨hnone, _⟩ := m.trim_cases
  · have hren := renumbers_restrict (m := m) m.nodup_usefulStates
    rw [htrim] at hq ⊢
    obtain ⟨k, hk⟩ : ∃ k, m.usefulStates[q]? = some k :=
      ⟨_, List.getElem?_eq_getElem (hren.size_eq ▸ hq)⟩
    obtain ⟨⟨p, ls, hp, hfront⟩, r, more, hback, hr⟩ :=
      (mem_usefulStates_iff hm).mp (List.mem_of_getElem? hk)
    -- every state on the run is useful, since the run goes on to acceptance
    obtain ⟨i, hi⟩ := List.getElem?_of_mem ((mem_usefulStates_iff hm).mpr
      ⟨⟨p, [], hp, .nil p⟩, r, ls ++ more, hfront.append hback, hr⟩)
    constructor
    · obtain ⟨j, hj, hpath⟩ := hren.exists_path hfront (i := i)
        (fun a ha l t hl ⟨back, hb⟩ => mem_usefulStates_of_path hm ha hl (hb.append hback) hr) hi
      obtain rfl : j = q := (List.getElem?_inj (List.getElem?_eq_some_iff.mp hj).1
        m.nodup_usefulStates).mp (hj.trans hk.symm)
      exact ⟨i, ls, (hren.isInitial_iff i).mpr ⟨p, hi, hp⟩, hpath⟩
    · obtain ⟨j, hj, hpath⟩ := hren.exists_path hback (i := q)
        (fun a ha l t hl ⟨back, hb⟩ => mem_usefulStates_of_path hm ha hl hb hr) hk
      exact ⟨j, more, hpath, (hren.isAccepting_iff j).mpr ⟨r, hj, hr⟩⟩
  · exact absurd hnone hsome

/-- A state of the trimmed machine that has a move lies on an accepted run. -/
theorem exists_paths_of_mem_moves_trim (hm : m.Closed) {move : L × Nat}
    (h : move ∈ m.trim.moves q) :
    (∃ p ls, m.trim.isInitial p = true ∧ Path m.trim.moves p ls q) ∧
      ∃ r ls, Path m.trim.moves q ls r ∧ m.trim.isAccepting r = true := by
  rcases m.trim_cases with ⟨hsome, _⟩ | ⟨_, htrim⟩
  · exact useful_trim hm hsome (lt_size_of_mem_moves h)
  · rw [htrim] at h
    simp at h

end Transduction.Machine
