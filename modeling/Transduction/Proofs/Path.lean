/-
Paths, and the words along them.

A run names the states it visits, and what it reads and writes depends on its
labels alone.  `Path next k ls r` keeps the labels only: `ls` lead from `k` to
`r`, where `next` lists the labelled successors of an item.  The items may be
the states of a machine or whatever a construction explores, so both sides of a
construction are described in the same words.

* `Path.simulate`, `Path.exists_loop` — a path is followed step by step in another
  graph, and a path that visits an item twice has a loop;
* `Trail`, with `path_iff_exists_trail` — a path that keeps the items on the way;
* `Machine.AcceptsLabels m ls` — some accepted run of `m` has the labels `ls`;
* `Transducer.relates_iff`, `Acceptor.accepts_iff` — relations and languages by
  the labels of accepted runs;
* `Renumbers.acceptsLabels_iff` — a machine that numbers the items of a graph
  accepts the labels of the paths of that graph.
-/
import Mathlib.Tactic.ByContra
import Transduction.Machine.Run

namespace Transduction

variable {L κ κ' : Type}

/-- The labels lead from one item to another along listed successors. -/
inductive Path (next : κ → List (L × κ)) : κ → List L → κ → Prop where
  | nil (k : κ) : Path next k [] k
  | cons {k t r : κ} {l : L} {ls : List L} :
      (l, t) ∈ next k → Path next t ls r → Path next k (l :: ls) r

section path

variable {next : κ → List (L × κ)} {k r : κ} {ls more : List L}

@[simp] theorem path_nil_iff : Path next k [] r ↔ k = r := by
  constructor
  · rintro ⟨⟩
    rfl
  · rintro rfl
    exact .nil k

theorem path_cons_iff {l : L} :
    Path next k (l :: ls) r ↔ ∃ t, (l, t) ∈ next k ∧ Path next t ls r := by
  constructor
  · rintro ⟨⟩
    exact ⟨_, by assumption, by assumption⟩
  · rintro ⟨t, h, hp⟩
    exact .cons h hp

theorem path_append_iff :
    Path next k (ls ++ more) r ↔ ∃ t, Path next k ls t ∧ Path next t more r := by
  induction ls generalizing k with
  | nil => simp
  | cons l ls ih =>
    simp only [List.cons_append, path_cons_iff, ih]
    constructor
    · rintro ⟨s, hs, t, h1, h2⟩
      exact ⟨t, ⟨s, hs, h1⟩, h2⟩
    · rintro ⟨t, ⟨s, hs, h1⟩, h2⟩
      exact ⟨s, hs, t, h1, h2⟩

theorem Path.append {t : κ} (h : Path next k ls t) (h' : Path next t more r) :
    Path next k (ls ++ more) r :=
  path_append_iff.mpr ⟨t, h, h'⟩

theorem Path.single {l : L} (h : (l, r) ∈ next k) : Path next k [l] r := .cons h (.nil r)

/-- What holds of an item and is kept by every step with one of the labels holds at
the end of a path. -/
theorem Path.keeps {P : κ → Prop} (h : Path next k ls r) (hk : P k)
    (hP : ∀ k, ∀ l ∈ ls, ∀ t, P k → (l, t) ∈ next k → P t) : P r := by
  induction h with
  | nil => exact hk
  | cons hl _ ih =>
    exact ih (hP _ _ List.mem_cons_self _ hk hl)
      fun k l hl' => hP k l (List.mem_cons_of_mem _ hl')

/-- A path is followed in another graph whose steps match those of the first. -/
theorem Path.simulate {next' : κ' → List (L × κ')} {R : κ → κ' → Prop} {k' : κ'}
    (h : Path next k ls r) (hR : R k k')
    (step : ∀ k k' l t, R k k' → (l, t) ∈ next k → ∃ t', (l, t') ∈ next' k' ∧ R t t') :
    ∃ r', Path next' k' ls r' ∧ R r r' := by
  induction h generalizing k' with
  | nil => exact ⟨k', .nil k', hR⟩
  | cons hl _ ih =>
    obtain ⟨t', hl', ht⟩ := step _ _ _ _ hR hl
    obtain ⟨r', hp, hr⟩ := ih ht
    exact ⟨r', .cons hl' hp, hr⟩

/-- Either the items on a path are all different, or some part of it is a loop.
The items listed split the path in front of them and behind them. -/
theorem Path.exists_loop (h : Path next k ls r) :
    (∃ visited : List κ, visited.length = ls.length + 1 ∧ visited.Nodup ∧
      ∀ s ∈ visited, ∃ front back, ls = front ++ back ∧ Path next k front s ∧ Path next s back r) ∨
    ∃ front loop back s, ls = front ++ loop ++ back ∧ loop ≠ [] ∧
      Path next k front s ∧ Path next s loop s ∧ Path next s back r := by
  induction h with
  | nil k =>
    refine Or.inl ⟨[k], rfl, by simp, fun s hs => ?_⟩
    obtain rfl := List.mem_singleton.mp hs
    exact ⟨[], [], rfl, .nil s, .nil s⟩
  | @cons k t r l ls hl hp ih =>
    rcases ih with ⟨visited, hlen, hnodup, hsplit⟩ | ⟨front, loop, back, s, rfl, hne, h1, h2, h3⟩
    · by_cases hk : k ∈ visited
      -- the item in front is met again
      · obtain ⟨front, back, rfl, h1, h2⟩ := hsplit k hk
        exact Or.inr ⟨[], l :: front, back, k, rfl, by simp, .nil k, .cons hl h1, h2⟩
      · refine Or.inl ⟨k :: visited, by simp [hlen], List.nodup_cons.mpr ⟨hk, hnodup⟩, ?_⟩
        intro s hs
        rcases List.mem_cons.mp hs with rfl | hs
        · exact ⟨[], l :: ls, rfl, .nil s, .cons hl hp⟩
        · obtain ⟨front, back, rfl, h1, h2⟩ := hsplit s hs
          exact ⟨l :: front, back, rfl, .cons hl h1, h2⟩
    · exact Or.inr ⟨l :: front, loop, back, s, rfl, hne, .cons hl h1, h2, h3⟩

end path

/-! ### Trails -/

/-- The steps, as pairs of a label and a target, lead from one item to another along
listed successors. -/
inductive Trail (next : κ → List (L × κ)) : κ → List (L × κ) → κ → Prop where
  | nil (k : κ) : Trail next k [] k
  | cons {k t r : κ} {l : L} {steps : List (L × κ)} :
      (l, t) ∈ next k → Trail next t steps r → Trail next k ((l, t) :: steps) r

section trail

variable {next : κ → List (L × κ)} {k t r : κ} {ls : List L} {steps more : List (L × κ)}

theorem Trail.append (h : Trail next k steps t) (h' : Trail next t more r) :
    Trail next k (steps ++ more) r := by
  induction h with
  | nil => exact h'
  | cons hmove _ ih => exact .cons hmove (ih h')

/-- The labels of the steps of a trail make a path, and so does every path come about. -/
theorem path_iff_exists_trail :
    Path next k ls r ↔ ∃ steps, Trail next k steps r ∧ steps.map (·.1) = ls := by
  constructor
  · intro h
    induction h with
    | nil k => exact ⟨[], .nil k, rfl⟩
    | cons hl _ ih =>
      obtain ⟨steps, htrail, rfl⟩ := ih
      exact ⟨_ :: steps, .cons hl htrail, rfl⟩
  · rintro ⟨steps, htrail, rfl⟩
    induction htrail with
    | nil k => exact .nil k
    | cons hl _ ih => exact .cons hl ih

theorem Trail.path (h : Trail next k steps r) : Path next k (steps.map (·.1)) r :=
  path_iff_exists_trail.mpr ⟨steps, h, rfl⟩

end trail

/-! ### Machines by the labels of their runs -/

namespace Machine

/-- Some run from an initial to an accepting state has these labels. -/
def AcceptsLabels (m : Machine L) (ls : List L) : Prop :=
  ∃ p q, m.isInitial p = true ∧ Path m.moves p ls q ∧ m.isAccepting q = true

theorem run_iff_trail {m : Machine L} {p q : Nat} {steps : List (L × Nat)} :
    m.Run p steps q ↔ Trail m.moves p steps q := by
  constructor
  · intro h
    induction h with
    | nil q => exact .nil q
    | cons hmove _ ih => exact .cons hmove ih
  · intro h
    induction h with
    | nil q => exact .nil q
    | cons hmove _ ih => exact .cons hmove ih

theorem path_iff_exists_run {m : Machine L} {p q : Nat} {ls : List L} :
    Path m.moves p ls q ↔ ∃ steps, m.Run p steps q ∧ steps.map (·.1) = ls := by
  simp only [run_iff_trail]
  exact path_iff_exists_trail

theorem acceptsLabels_iff {m : Machine L} {ls : List L} :
    m.AcceptsLabels ls ↔ ∃ p steps, m.Accepted p steps ∧ steps.map (·.1) = ls := by
  simp only [AcceptsLabels, Accepted, path_iff_exists_run]
  constructor
  · rintro ⟨p, q, hp, ⟨steps, hr, rfl⟩, hq⟩
    exact ⟨p, steps, ⟨hp, q, hr, hq⟩, rfl⟩
  · rintro ⟨p, steps, ⟨hp, q, hr, hq⟩, rfl⟩
    exact ⟨p, q, hp, ⟨steps, hr, rfl⟩, hq⟩

/-- Every move leads to a state of the machine. -/
def Closed (m : Machine L) : Prop := ∀ q l t, (l, t) ∈ m.moves q → t < m.size

theorem WellFormed.closed {m : Machine L} (h : m.WellFormed) : m.Closed := h.target_lt

/-- The moves of the states are those of the nodes. -/
theorem exists_mem_moves_iff {m : Machine L} {move : L × Nat} :
    (∃ q, move ∈ m.moves q) ↔ ∃ n ∈ m.nodes.toList, move ∈ n.moves := by
  constructor
  · intro h
    obtain ⟨q, hq⟩ := h
    cases hn : m.nodes[q]? with
    | none => simp [moves, hn] at hq
    | some n =>
      exact ⟨n, Array.mem_toList_iff.mpr (Array.mem_of_getElem? hn), by simpa [moves, hn] using hq⟩
  · intro h
    obtain ⟨n, hn, hmove⟩ := h
    obtain ⟨q, hq⟩ := List.getElem?_of_mem hn
    rw [Array.getElem?_toList] at hq
    exact ⟨q, by simpa [moves, hq] using hmove⟩

/-- Well-formedness, node by node. -/
theorem wellFormed_iff {m : Machine L} :
    m.WellFormed ↔ (∀ n ∈ m.nodes.toList, ∀ move ∈ n.moves, move.2 < m.size) ∧
      ∃ n ∈ m.nodes.toList, n.initial = true := by
  constructor
  · rintro ⟨htarget, q, hq⟩
    constructor
    · rintro n hn ⟨l, t⟩ hmove
      obtain ⟨i, hi⟩ := exists_mem_moves_iff.mpr ⟨n, hn, hmove⟩
      exact htarget i l t hi
    · cases h : m.nodes[q]? with
      | none => simp [isInitial, h] at hq
      | some n =>
        have hn : n ∈ m.nodes.toList := Array.mem_toList_iff.mpr (Array.mem_of_getElem? h)
        exact ⟨n, hn, by simpa [isInitial, h] using hq⟩
  · rintro ⟨htarget, n, hn, hinit⟩
    constructor
    · intro q l t hmove
      obtain ⟨n, hn, hmove⟩ := exists_mem_moves_iff.mp ⟨q, hmove⟩
      exact htarget n hn (l, t) hmove
    · obtain ⟨i, hi⟩ := List.getElem?_of_mem hn
      rw [Array.getElem?_toList] at hi
      exact ⟨i, by simpa [isInitial, hi] using hinit⟩

instance (m : Machine L) : Decidable m.WellFormed := decidable_of_iff _ wellFormed_iff.symm

theorem lt_size_of_mem_moves {m : Machine L} {q : Nat} {move : L × Nat} (h : move ∈ m.moves q) :
    q < m.size := by
  by_contra hq
  simp [moves, Array.getElem?_eq_none (Nat.le_of_not_lt hq)] at h

theorem lt_size_of_isInitial {m : Machine L} {q : Nat} (h : m.isInitial q = true) : q < m.size := by
  by_contra hq
  simp [isInitial, Array.getElem?_eq_none (Nat.le_of_not_lt hq)] at h

theorem lt_size_of_isAccepting {m : Machine L} {q : Nat} (h : m.isAccepting q = true) :
    q < m.size := by
  by_contra hq
  simp [isAccepting, Array.getElem?_eq_none (Nat.le_of_not_lt hq)] at h

theorem lt_size_of_mem_initialStates {m : Machine L} {q : Nat} (h : q ∈ m.initialStates) :
    q < m.size :=
  lt_size_of_isInitial (mem_initialStates.mp h)

theorem lt_size_of_mem_acceptingStates {m : Machine L} {q : Nat} (h : q ∈ m.acceptingStates) :
    q < m.size :=
  lt_size_of_isAccepting (mem_acceptingStates.mp h)

theorem Closed.path_lt {m : Machine L} (hm : m.Closed) {p q : Nat} {ls : List L}
    (h : Path m.moves p ls q) (hp : p < m.size) : q < m.size :=
  h.keeps hp fun _ _ _ _ _ hl => hm _ _ _ hl

end Machine

/-- The word that labels read. -/
def readsOf (ls : List (Option Char × Word)) : Word := ls.filterMap (·.1)

/-- The word that labels write. -/
def writesOf (ls : List (Option Char × Word)) : Word := ls.flatMap (·.2)

section words

variable {l : Option Char × Word} {ls more : List (Option Char × Word)}

@[simp] theorem readsOf_nil : readsOf [] = [] := rfl

@[simp] theorem writesOf_nil : writesOf [] = [] := rfl

@[simp] theorem readsOf_cons : readsOf (l :: ls) = l.1.toList ++ readsOf ls := by
  obtain ⟨c, w⟩ := l
  cases c <;> rfl

@[simp] theorem writesOf_cons : writesOf (l :: ls) = l.2 ++ writesOf ls := rfl

@[simp] theorem readsOf_append : readsOf (ls ++ more) = readsOf ls ++ readsOf more :=
  List.filterMap_append

@[simp] theorem writesOf_append : writesOf (ls ++ more) = writesOf ls ++ writesOf more :=
  List.flatMap_append

end words

theorem Transducer.inputOf_eq (steps : List ((Option Char × Word) × Nat)) :
    inputOf steps = readsOf (steps.map (·.1)) := by
  rw [inputOf, readsOf, List.filterMap_map]
  rfl

theorem Transducer.outputOf_eq (steps : List ((Option Char × Word) × Nat)) :
    outputOf steps = writesOf (steps.map (·.1)) := by
  rw [outputOf, writesOf, List.flatMap_map]

theorem Transducer.relates_iff {m : Transducer} {x y : Word} :
    m.Relates x y ↔ ∃ ls, m.AcceptsLabels ls ∧ readsOf ls = x ∧ writesOf ls = y := by
  simp only [Relates, Machine.acceptsLabels_iff, inputOf_eq, outputOf_eq]
  constructor
  · rintro ⟨p, steps, h, hx, hy⟩
    exact ⟨_, ⟨p, steps, h, rfl⟩, hx, hy⟩
  · rintro ⟨ls, ⟨p, steps, h, rfl⟩, hx, hy⟩
    exact ⟨p, steps, h, hx, hy⟩

theorem Acceptor.accepts_iff {a : Acceptor} {w : Word} :
    a.Accepts w ↔ ∃ ls, a.AcceptsLabels ls ∧ ls.filterMap id = w := by
  have word_eq (steps : List (Option Char × Nat)) :
      wordOf steps = (steps.map (·.1)).filterMap id := by
    simp [wordOf, List.filterMap_map]
  simp only [Accepts, Machine.acceptsLabels_iff, word_eq]
  constructor
  · rintro ⟨p, steps, h, hw⟩
    exact ⟨_, ⟨p, steps, h, rfl⟩, hw⟩
  · rintro ⟨ls, ⟨p, steps, h, rfl⟩, hw⟩
    exact ⟨p, steps, h, hw⟩

/-! ### Machines that number the items of a graph -/

/-- State `i` of the machine stands for item `i` of a list, and its moves are the
steps of a graph that stay inside the list. -/
structure Renumbers (m : Machine L) (items : List κ) (next : κ → List (L × κ))
    (initial accepting : κ → Bool) : Prop where
  mem_moves : ∀ i l j, (l, j) ∈ m.moves i ↔
    ∃ k t, items[i]? = some k ∧ (l, t) ∈ next k ∧ items[j]? = some t
  isInitial_iff : ∀ i, m.isInitial i = true ↔ ∃ k, items[i]? = some k ∧ initial k = true
  isAccepting_iff : ∀ i, m.isAccepting i = true ↔ ∃ k, items[i]? = some k ∧ accepting k = true
  size_eq : m.size = items.length

namespace Renumbers

variable {m : Machine L} {items : List κ} {next : κ → List (L × κ)} {initial accepting : κ → Bool}
  {i j : Nat} {k r : κ} {ls : List L}

theorem closed (h : Renumbers m items next initial accepting) : m.Closed := by
  intro i l j hj
  obtain ⟨_, t, _, _, ht⟩ := (h.mem_moves i l j).mp hj
  rw [h.size_eq]
  exact (List.getElem?_eq_some_iff.mp ht).1

/-- A path of the machine is a path of the graph. -/
theorem path_of_path (h : Renumbers m items next initial accepting) (hp : Path m.moves i ls j)
    (hi : items[i]? = some k) : ∃ r, items[j]? = some r ∧ Path next k ls r := by
  obtain ⟨r, hr, hj⟩ : ∃ r, Path next k ls r ∧ items[j]? = some r :=
    hp.simulate (R := fun i k => items[i]? = some k) hi fun i k l j hk hl => by
      obtain ⟨k', t, hk', hl', ht⟩ := (h.mem_moves i l j).mp hl
      obtain rfl : k' = k := Option.some.inj (hk'.symm.trans hk)
      exact ⟨t, hl', ht⟩
  exact ⟨r, hj, hr⟩

/-- A path of the graph is a path of the machine, if all items on the way are in
the list. -/
theorem exists_path (h : Renumbers m items next initial accepting) (hp : Path next k ls r)
    (hmem : ∀ k ∈ items, ∀ l t, (l, t) ∈ next k → (∃ ls, Path next t ls r) → t ∈ items)
    (hi : items[i]? = some k) : ∃ j, items[j]? = some r ∧ Path m.moves i ls j := by
  induction hp generalizing i with
  | nil k => exact ⟨i, hi, .nil i⟩
  | @cons k t r l ls hl hp ih =>
    obtain ⟨j, hj⟩ := List.getElem?_of_mem
      (hmem k (List.mem_of_getElem? hi) l t hl ⟨ls, hp⟩)
    obtain ⟨n, hn, hpath⟩ := ih hmem hj
    exact ⟨n, hn, .cons ((h.mem_moves i l j).mpr ⟨k, t, hi, hl, hj⟩) hpath⟩

/-- The labels of the accepted runs are those of the paths of the graph between
marked items, if the list has every item on such a path. -/
theorem acceptsLabels_iff (h : Renumbers m items next initial accepting)
    (hinit : ∀ k ls r, initial k = true → Path next k ls r → accepting r = true → k ∈ items)
    (hmem : ∀ k ∈ items, ∀ l t, (l, t) ∈ next k → ∀ ls r, Path next t ls r → accepting r = true →
      t ∈ items) :
    m.AcceptsLabels ls ↔
      ∃ k r, initial k = true ∧ Path next k ls r ∧ accepting r = true := by
  constructor
  · rintro ⟨i, j, hi, hp, hj⟩
    obtain ⟨k, hk, hk'⟩ := (h.isInitial_iff i).mp hi
    obtain ⟨r, hr, hr'⟩ := (h.isAccepting_iff j).mp hj
    obtain ⟨r₂, hr₂, hpath⟩ := h.path_of_path hp hk
    obtain rfl : r₂ = r := Option.some.inj (hr₂.symm.trans hr)
    exact ⟨k, r₂, hk', hpath, hr'⟩
  · rintro ⟨k, r, hk, hp, hr⟩
    obtain ⟨i, hi⟩ := List.getElem?_of_mem (hinit k ls r hk hp hr)
    obtain ⟨j, hj, hpath⟩ := h.exists_path hp
      (fun k hk l t hl ⟨ls, hp⟩ => hmem k hk l t hl ls r hp hr) hi
    exact ⟨i, j, (h.isInitial_iff i).mpr ⟨k, hi, hk⟩, hpath, (h.isAccepting_iff j).mpr ⟨r, hj, hr⟩⟩

end Renumbers

end Transduction
