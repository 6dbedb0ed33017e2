/-
Copies of machines, written move by move.

The operations of the algebra copy their operands behind the states that are there, mark states and
link them.  Each of them reads the rows of its operands and makes a program of writes:

* `Storage.arcs?` — the moves of all states, read row by row;
* `Write.copy`, `Write.links`, `Write.initials`, `Write.acceptings` — the parts of the programs;
* `Storage.relabelled?`, `Storage.chained?` — a copy with other labels, and two such copies one
  behind the other;
* `Storage.union?`, `Storage.plus?`, `Storage.star?`, and `Storage.identity?`, `Storage.product?`,
  `Storage.domain?` between acceptors and transducers;
* `Storage.union?_eq` and its siblings — no read and no write fails, and the containers are filled
  with the machine of the operation.
-/
import Transduction.Checked.Search
import Transduction.Proofs.AscendingMoves

namespace Transduction

/-! ### Parts of programs -/

namespace Write

variable {K L : Type}

/-- A copy of `size` states with these moves, `offset` numbers up and with other labels. -/
def copy (relabel : K → List L) (offset size : Nat) (arcs : List (Nat × K × Nat)) :
    List (Write L) :=
  List.replicate size .state ++ arcs.flatMap fun (p, l, t) =>
    (relabel l).map fun l' => .move (p + offset) l' (t + offset)

/-- Moves on one label, from each of some states to each of others. -/
def links (s : L) (sources targets : List Nat) : List (Write L) :=
  sources.flatMap fun p => targets.map fun t => .move p s t

/-- Initial marks, `offset` numbers up. -/
def initials (offset : Nat) (qs : List Nat) : List (Write L) :=
  qs.map fun q => .initial (q + offset)

/-- Accepting marks, `offset` numbers up. -/
def acceptings (offset : Nat) (qs : List Nat) : List (Write L) :=
  qs.map fun q => .accepting (q + offset)

variable {relabel : K → List L} {offset size n p q t : Nat} {arcs : List (Nat × K × Nat)} {l s : L}
  {qs sources targets : List Nat}

@[simp] theorem states_copy : states (copy relabel offset size arcs) = size := by
  rw [copy, states_append, states_replicate, states_eq_zero, Nat.add_zero]
  intro w hw
  obtain ⟨_, _, hw⟩ := List.mem_flatMap.mp hw
  obtain ⟨_, _, rfl⟩ := List.mem_map.mp hw
  rfl

theorem fits_copy (harcs : ∀ arc ∈ arcs, arc.1 < size) (hn : offset ≤ n) :
    Fits n (copy relabel offset size arcs) := by
  rw [copy, fits_append, states_replicate]
  refine ⟨fits_of_forall_lt fun w hw => ?_, fits_of_forall_lt fun w hw q hq => ?_⟩
  · obtain rfl := List.eq_of_mem_replicate hw
    exact nofun
  · obtain ⟨arc, harc, hw⟩ := List.mem_flatMap.mp hw
    obtain ⟨_, _, rfl⟩ := List.mem_map.mp hw
    obtain rfl : arc.1 + offset = q := Option.some.inj hq
    have := harcs arc harc
    omega

@[simp] theorem move_mem_copy : move q l t ∈ copy relabel offset size arcs ↔
    ∃ p l' u, (p, l', u) ∈ arcs ∧ l ∈ relabel l' ∧ q = p + offset ∧ t = u + offset := by
  simp only [copy, List.mem_append, List.mem_replicate, List.mem_flatMap, List.mem_map]
  constructor
  · rintro (⟨_, h⟩ | ⟨⟨p, l', u⟩, harc, l, hl, h⟩)
    · cases h
    · cases h
      exact ⟨p, l', u, harc, hl, rfl, rfl⟩
  · rintro ⟨p, l', u, harc, hl, rfl, rfl⟩
    exact Or.inr ⟨(p, l', u), harc, l, hl, rfl⟩

@[simp] theorem initial_not_mem_copy : initial q ∉ copy relabel offset size arcs := by
  simp [copy, List.mem_replicate]

@[simp] theorem accepting_not_mem_copy : accepting q ∉ copy relabel offset size arcs := by
  simp [copy, List.mem_replicate]

@[simp] theorem states_links : states (links s sources targets) = 0 := by
  refine states_eq_zero fun w hw => ?_
  obtain ⟨_, _, hw⟩ := List.mem_flatMap.mp hw
  obtain ⟨_, _, rfl⟩ := List.mem_map.mp hw
  rfl

theorem fits_links (h : ∀ p ∈ sources, p < n) : Fits n (links s sources targets) := by
  refine fits_of_forall_lt fun w hw q hq => ?_
  obtain ⟨p, hp, hw⟩ := List.mem_flatMap.mp hw
  obtain ⟨_, _, rfl⟩ := List.mem_map.mp hw
  obtain rfl : p = q := Option.some.inj hq
  exact h p hp

@[simp] theorem move_mem_links :
    move q l t ∈ links s sources targets ↔ q ∈ sources ∧ l = s ∧ t ∈ targets := by
  simp only [links, List.mem_flatMap, List.mem_map]
  constructor
  · rintro ⟨p, hp, t, ht, h⟩
    cases h
    exact ⟨hp, rfl, ht⟩
  · rintro ⟨hq, rfl, ht⟩
    exact ⟨q, hq, t, ht, rfl⟩

@[simp] theorem initial_not_mem_links : initial q ∉ links s sources targets := by simp [links]

@[simp] theorem accepting_not_mem_links : accepting q ∉ links s sources targets := by simp [links]

@[simp] theorem states_initials : states (initials (L := L) offset qs) = 0 := by
  refine states_eq_zero fun w hw => ?_
  obtain ⟨_, _, rfl⟩ := List.mem_map.mp hw
  rfl

theorem fits_initials (h : ∀ q ∈ qs, q + offset < n) : Fits n (initials (L := L) offset qs) := by
  refine fits_of_forall_lt fun w hw q hq => ?_
  obtain ⟨p, hp, rfl⟩ := List.mem_map.mp hw
  obtain rfl : p + offset = q := Option.some.inj hq
  exact h p hp

@[simp] theorem initial_mem_initials :
    initial q ∈ initials (L := L) offset qs ↔ ∃ p ∈ qs, q = p + offset := by
  simp [initials, eq_comm]

@[simp] theorem move_not_mem_initials : move p l t ∉ initials offset qs := by simp [initials]

@[simp] theorem accepting_not_mem_initials : accepting q ∉ initials (L := L) offset qs := by
  simp [initials]

@[simp] theorem states_acceptings : states (acceptings (L := L) offset qs) = 0 := by
  refine states_eq_zero fun w hw => ?_
  obtain ⟨_, _, rfl⟩ := List.mem_map.mp hw
  rfl

theorem fits_acceptings (h : ∀ q ∈ qs, q + offset < n) :
    Fits n (acceptings (L := L) offset qs) := by
  refine fits_of_forall_lt fun w hw q hq => ?_
  obtain ⟨p, hp, rfl⟩ := List.mem_map.mp hw
  obtain rfl : p + offset = q := Option.some.inj hq
  exact h p hp

@[simp] theorem accepting_mem_acceptings :
    accepting q ∈ acceptings (L := L) offset qs ↔ ∃ p ∈ qs, q = p + offset := by
  simp [acceptings, eq_comm]

@[simp] theorem move_not_mem_acceptings : move p l t ∉ acceptings offset qs := by
  simp [acceptings]

@[simp] theorem initial_not_mem_acceptings : initial q ∉ acceptings (L := L) offset qs := by
  simp [acceptings]

end Write

/-! ### The moves of all states -/

/-- The moves of all states in order, each with its source. -/
def Machine.arcs {L : Type} (m : Machine L) : List (Nat × L × Nat) :=
  (List.range m.size).flatMap fun q => (m.moves q).map fun move => (q, move)

theorem Machine.mem_arcs {L : Type} {m : Machine L} {q t : Nat} {l : L} :
    (q, l, t) ∈ m.arcs ↔ (l, t) ∈ m.moves q := by
  simp only [arcs, List.mem_flatMap, List.mem_range, List.mem_map]
  constructor
  · rintro ⟨p, _, move, hmove, h⟩
    cases h
    exact hmove
  · exact fun h => ⟨q, lt_size_of_mem_moves h, (l, t), h, rfl⟩

namespace Storage

variable {K L : Type}

/-- The moves of all states in order, each with its source. -/
def arcs? (s : Storage L) : Option (List (Nat × L × Nat)) :=
  flatMap? (fun q => (s.rows[q]?).map fun row => row.map fun move => (q, move)) (List.range s.size)

theorem arcs?_ofMachine {keeping : Keeping L} {m : Machine L} :
    (ofMachine keeping m).arcs? = some m.arcs := by
  rw [arcs?, size_ofMachine]
  exact flatMap?_eq fun q hq => by rw [rows_ofMachine (List.mem_range.mp hq), Option.map_some]

/-! ### The operations -/

variable [Ord L] (symbol? : L → Option Char)

/-- The same machine with other labels, each label of it replaced by those that `relabel` lists. -/
def relabelled? (relabel : K → List L) (s : Storage K) : Option (Storage L) := do
  let arcs ← s.arcs?
  empty.writes? (.ordered symbol?) (Write.copy relabel 0 s.size arcs ++
    Write.initials 0 (ones s.initial) ++ Write.acceptings 0 (ones s.accepting))

/-- Runs of the first machine followed by runs of the second, both with other labels. -/
def chained? {K' : Type} (silent : L) (relabel : K → List L) (relabel' : K' → List L)
    (a : Storage K) (b : Storage K') : Option (Storage L) := do
  let arcs ← a.arcs?
  let arcs' ← b.arcs?
  empty.writes? (.ordered symbol?) (Write.copy relabel 0 a.size arcs ++
    Write.copy relabel' a.size b.size arcs' ++ Write.initials 0 (ones a.initial) ++
    Write.links silent (ones a.accepting) ((ones b.initial).map (· + a.size)) ++
    Write.acceptings a.size (ones b.accepting))

/-- Runs of the first machine followed by runs of the second. -/
def concat? (silent : L) (a b : Storage L) : Option (Storage L) :=
  chained? symbol? silent (fun l => [l]) (fun l => [l]) a b

/-- Runs of either machine, behind a silent move from a new initial state. -/
def union? (silent : L) (a b : Storage L) : Option (Storage L) := do
  let arcs ← a.arcs?
  let arcs' ← b.arcs?
  let entered (offset : Nat) (s : Storage L) : List (Write L) :=
    Write.links silent [0] ((ones s.initial).map (· + offset)) ++
      Write.acceptings offset (ones s.accepting)
  empty.writes? (.ordered symbol?) (.state :: Write.copy (fun l => [l]) 1 a.size arcs ++
    entered 1 a ++ Write.copy (fun l => [l]) (a.size + 1) b.size arcs' ++ entered (a.size + 1) b ++
    [.initial 0])

/-- One or more runs of the machine in a row. -/
def plus? (silent : L) (s : Storage L) : Option (Storage L) :=
  s.writes? (.ordered symbol?) (Write.links silent (ones s.accepting) (ones s.initial))

/-- Any number of runs of the machine in a row, none included. -/
def star? (silent : L) (s : Storage L) : Option (Storage L) := do
  let plus ← s.plus? symbol? silent
  let arcs ← plus.arcs?
  empty.writes? (.ordered symbol?) (.state :: Write.copy (fun l => [l]) 1 plus.size arcs ++
    Write.links silent [0] ((ones plus.initial).map (· + 1)) ++
    Write.acceptings 1 (ones plus.accepting) ++ [.initial 0, .accepting 0])

/-! ### What they fill the containers with -/

end Storage

/-- One machine has the states and marks of another, and the labels that stand for its labels. -/
structure Relabels {K L : Type} (relabel : K → List L) (m : Machine K) (m' : Machine L) : Prop where
  size_eq : m'.size = m.size
  mem_moves : ∀ q l t, (l, t) ∈ m'.moves q ↔ ∃ l', (l', t) ∈ m.moves q ∧ l ∈ relabel l'
  isInitial_eq : ∀ q, m'.isInitial q = m.isInitial q
  isAccepting_eq : ∀ q, m'.isAccepting q = m.isAccepting q

theorem relabels_refl {L : Type} (m : Machine L) : Relabels (fun l => [l]) m m where
  size_eq := rfl
  mem_moves q l t := by simp
  isInitial_eq _ := rfl
  isAccepting_eq _ := rfl

theorem relabels_mapLabels {K L : Type} [Ord L] [Std.TransOrd L] [Std.LawfulEqOrd L] (f : K → L)
    (m : Machine K) : Relabels (fun l => [f l]) m (m.mapLabels f) where
  size_eq := Machine.size_mapLabels f m
  mem_moves q l t := by
    rw [Machine.mem_moves_mapLabels]
    simp only [List.mem_singleton, eq_comm]
  isInitial_eq q := Machine.isInitial_mapLabels f m q
  isAccepting_eq q := Machine.isAccepting_mapLabels f m q

/-! ### The views of the constructions -/

namespace Machine

variable {L : Type} {m a b : Machine L} {s l : L} {i p q t offset : Nat}

theorem mem_moves_of_inner (h : m.nodes[i]? = (a.nodes[p]?).map (Node.inner offset)) :
    (l, t) ∈ m.moves i ↔ ∃ u, (l, u) ∈ a.moves p ∧ t = u + offset := by
  rw [moves_of_inner h, List.mem_map]
  constructor
  · rintro ⟨⟨l', u⟩, hmove, he⟩
    cases he
    exact ⟨u, hmove, rfl⟩
  · rintro ⟨u, hmove, rfl⟩
    exact ⟨(l, u), hmove, rfl⟩

theorem mem_moves_union_iff : (l, t) ∈ (union s a b).moves q ↔
    (q = 0 ∧ l = s ∧ ((∃ i, a.isInitial i = true ∧ t = i + 1) ∨
      ∃ i, b.isInitial i = true ∧ t = i + (a.size + 1))) ∨
    (∃ p u, (l, u) ∈ a.moves p ∧ q = p + 1 ∧ t = u + 1) ∨
    ∃ p u, (l, u) ∈ b.moves p ∧ q = p + (a.size + 1) ∧ t = u + (a.size + 1) := by
  constructor
  · intro h
    -- The new state, the first copy and the second copy follow one another.
    rcases Nat.lt_or_ge q (a.size + 1) with hlt | hge
    · cases q with
      | zero =>
        rw [moves_union_zero, List.mem_append, mem_entries_iff, mem_entries_iff, ← and_or_left] at h
        exact Or.inl ⟨rfl, h⟩
      | succ p =>
        obtain ⟨u, hu, rfl⟩ :=
          (mem_moves_of_inner (getElem?_union_first (Nat.lt_of_succ_lt_succ hlt))).mp h
        exact Or.inr (Or.inl ⟨p, u, hu, rfl, rfl⟩)
    · obtain ⟨p, rfl⟩ := Nat.exists_eq_add_of_le' hge
      obtain ⟨u, hu, rfl⟩ := (mem_moves_of_inner getElem?_union_second).mp h
      exact Or.inr (Or.inr ⟨p, u, hu, rfl, rfl⟩)
  · rintro (⟨rfl, h⟩ | ⟨p, u, hu, rfl, rfl⟩ | ⟨p, u, hu, rfl, rfl⟩)
    · rw [moves_union_zero, List.mem_append, mem_entries_iff, mem_entries_iff, ← and_or_left]
      exact h
    · exact (mem_moves_of_inner (getElem?_union_first (lt_size_of_mem_moves hu))).mpr ⟨u, hu, rfl⟩
    · exact (mem_moves_of_inner getElem?_union_second).mpr ⟨u, hu, rfl⟩

theorem isAccepting_union_iff : (union s a b).isAccepting q = true ↔
    (∃ p, a.isAccepting p = true ∧ q = p + 1) ∨
    ∃ p, b.isAccepting p = true ∧ q = p + (a.size + 1) := by
  constructor
  · intro h
    rcases Nat.lt_or_ge q (a.size + 1) with hlt | hge
    · cases q with
      | zero => rw [isAccepting_union_zero] at h; cases h
      | succ p =>
        rw [isAccepting_of_inner (getElem?_union_first (Nat.lt_of_succ_lt_succ hlt))] at h
        exact Or.inl ⟨p, h, rfl⟩
    · obtain ⟨p, rfl⟩ := Nat.exists_eq_add_of_le' hge
      rw [isAccepting_of_inner getElem?_union_second] at h
      exact Or.inr ⟨p, h, rfl⟩
  · rintro (⟨p, hp, rfl⟩ | ⟨p, hp, rfl⟩)
    · exact (isAccepting_of_inner (getElem?_union_first (lt_size_of_isAccepting hp))).trans hp
    · exact (isAccepting_of_inner getElem?_union_second).trans hp

variable [Ord L]

theorem isAccepting_concat_iff : (concat s a b).isAccepting q = true ↔
    ∃ p, b.isAccepting p = true ∧ q = p + a.size := by
  constructor
  · intro h
    rcases Nat.lt_or_ge q a.size with hlt | hge
    · rw [isAccepting_concat_first hlt] at h
      cases h
    · obtain ⟨p, rfl⟩ := Nat.exists_eq_add_of_le' hge
      rw [isAccepting_of_inner getElem?_concat_second] at h
      exact ⟨p, h, rfl⟩
  · rintro ⟨p, hp, rfl⟩
    exact (isAccepting_of_inner getElem?_concat_second).trans hp

theorem mem_moves_star_iff : (l, t) ∈ (star s m).moves q ↔
    (q = 0 ∧ l = s ∧ ∃ i, (plus s m).isInitial i = true ∧ t = i + 1) ∨
    ∃ p u, (l, u) ∈ (plus s m).moves p ∧ q = p + 1 ∧ t = u + 1 := by
  cases q with
  | zero =>
    rw [moves_star_zero, mem_entries_iff]
    simp
  | succ p =>
    rw [mem_moves_of_inner getElem?_star_succ]
    simp

theorem isAccepting_star_iff : (star s m).isAccepting q = true ↔
    q = 0 ∨ ∃ p, (plus s m).isAccepting p = true ∧ q = p + 1 := by
  cases q with
  | zero => simp [isAccepting_star_zero]
  | succ p => simp [isAccepting_star_succ]

variable [Std.TransOrd L] [Std.LawfulEqOrd L]

theorem mem_moves_concat_iff : (l, t) ∈ (concat s a b).moves q ↔
    (l, t) ∈ a.moves q ∨
    (a.isAccepting q = true ∧ l = s ∧ ∃ i, b.isInitial i = true ∧ t = i + a.size) ∨
    ∃ p u, (l, u) ∈ b.moves p ∧ q = p + a.size ∧ t = u + a.size := by
  constructor
  · intro h
    rcases Nat.lt_or_ge q a.size with hlt | hge
    · exact ((mem_moves_concat_first hlt).mp h).imp_right Or.inl
    · obtain ⟨p, rfl⟩ := Nat.exists_eq_add_of_le' hge
      obtain ⟨u, hu, rfl⟩ := (mem_moves_of_inner getElem?_concat_second).mp h
      exact Or.inr (Or.inr ⟨p, u, hu, rfl, rfl⟩)
  · rintro (h | h | ⟨p, u, hu, rfl, rfl⟩)
    · exact (mem_moves_concat_first (lt_size_of_mem_moves h)).mpr (Or.inl h)
    · exact (mem_moves_concat_first (lt_size_of_isAccepting h.1)).mpr (Or.inr h)
    · exact (mem_moves_of_inner getElem?_concat_second).mpr ⟨u, hu, rfl⟩

end Machine

namespace Storage

variable {K L : Type} [Ord L] [Std.TransOrd L] [Std.LawfulEqOrd L] {symbol? : L → Option Char}
  {keeping : Keeping K} {relabel : K → List L} {m : Machine K} {m' a b : Machine L} {silent : L}

theorem lt_of_mem_arcs {arc : Nat × K × Nat} (h : arc ∈ m.arcs) : arc.1 < m.size :=
  Machine.lt_size_of_mem_moves (Machine.mem_arcs.mp h)

section marks

variable {offset n : Nat}

omit [Ord L] [Std.TransOrd L] [Std.LawfulEqOrd L]

/-- The marks of a copy fit where there is room for the copy. -/
theorem fits_initialStates (h : m.size + offset ≤ n) :
    Write.Fits n (Write.initials (L := L) offset m.initialStates) :=
  Write.fits_initials fun _ hq =>
    (Nat.add_lt_add_right (Machine.lt_size_of_mem_initialStates hq) offset).trans_le h

theorem fits_acceptingStates (h : m.size + offset ≤ n) :
    Write.Fits n (Write.acceptings (L := L) offset m.acceptingStates) :=
  Write.fits_acceptings fun _ hq =>
    (Nat.add_lt_add_right (Machine.lt_size_of_mem_acceptingStates hq) offset).trans_le h

end marks

theorem relabelled?_eq (h : Relabels relabel m m') (hm' : m'.Ascending) :
    (ofMachine keeping m).relabelled? symbol? relabel =
      some (ofMachine (.ordered symbol?) m') := by
  simp only [relabelled?, arcs?_ofMachine, ones_initial_ofMachine, ones_accepting_ofMachine,
    size_ofMachine, Option.bind_eq_bind, Option.bind_some]
  refine writes?_ordered_of_nothing hm' ?_ ?_ (fun q l t => ?_) (fun q => ?_) fun q => ?_
  -- Every state written is one of the copied machine.
  · simp only [Write.fits_append, Write.states_append, Write.states_copy, Write.states_initials]
    exact ⟨⟨Write.fits_copy (fun _ => lt_of_mem_arcs) (Nat.zero_le _),
      fits_initialStates (by omega)⟩, fits_acceptingStates (by omega)⟩
  · simp [h.size_eq]
  -- The moves written are the relabelled ones.
  · rw [h.mem_moves]
    simp only [List.mem_append, Write.move_mem_copy, Write.move_not_mem_initials,
      Write.move_not_mem_acceptings, or_false, Nat.add_zero]
    constructor
    · rintro ⟨l', hl', hl⟩
      exact ⟨q, l', t, Machine.mem_arcs.mpr hl', hl, rfl, rfl⟩
    · rintro ⟨_, l', _, harc, hl, rfl, rfl⟩
      exact ⟨l', Machine.mem_arcs.mp harc, hl⟩
  -- Both marks are copied as they are.
  · rw [h.isInitial_eq]
    simp [Machine.mem_initialStates]
  · rw [h.isAccepting_eq]
    simp [Machine.mem_acceptingStates]

section chained

variable {K' : Type} {keeping' : Keeping K'} {relabel' : K' → List L} {n : Machine K'}

theorem chained?_eq (ha : Relabels relabel m a) (hb : Relabels relabel' n b)
    (hascending : (Machine.concat silent a b).Ascending) :
    chained? symbol? silent relabel relabel' (ofMachine keeping m) (ofMachine keeping' n) =
      some (ofMachine (.ordered symbol?) (Machine.concat silent a b)) := by
  simp only [chained?, arcs?_ofMachine, ones_initial_ofMachine, ones_accepting_ofMachine,
    size_ofMachine, Option.bind_eq_bind, Option.bind_some]
  refine writes?_ordered_of_nothing hascending ?_ ?_ (fun q l t => ?_) (fun q => ?_) fun q => ?_
  -- Every state written is there: those of the second machine begin behind the first one.
  · simp only [Write.fits_append, Write.states_append, Write.states_copy, Write.states_initials,
      Write.states_links]
    refine ⟨⟨⟨⟨Write.fits_copy (fun _ => lt_of_mem_arcs) (Nat.zero_le _),
      Write.fits_copy (fun _ => lt_of_mem_arcs) (by omega)⟩, fits_initialStates (by omega)⟩,
      Write.fits_links fun q hq => ?_⟩, fits_acceptingStates (by omega)⟩
    have := Machine.lt_size_of_mem_acceptingStates hq
    omega
  · simp [Machine.size_concat, ha.size_eq, hb.size_eq]
  -- A move is one of the first machine, a link between the two or one of the second.
  · rw [Machine.mem_moves_concat_iff, ha.mem_moves]
    simp only [hb.mem_moves, ha.isAccepting_eq, hb.isInitial_eq, ha.size_eq, List.mem_append,
      Write.move_mem_copy, Write.move_not_mem_initials, Write.move_not_mem_acceptings,
      Write.move_mem_links, Machine.mem_arcs, Machine.mem_acceptingStates, List.mem_map,
      Machine.mem_initialStates, or_false, Nat.add_zero]
    constructor
    · rintro (⟨l', hl', hl⟩ | ⟨hq, rfl, i, hi, rfl⟩ | ⟨p, u, ⟨l', hl', hl⟩, rfl, rfl⟩)
      · exact Or.inl (Or.inl ⟨q, l', t, hl', hl, rfl, rfl⟩)
      · exact Or.inr ⟨hq, rfl, i, hi, rfl⟩
      · exact Or.inl (Or.inr ⟨p, l', u, hl', hl, rfl, rfl⟩)
    · rintro ((⟨_, l', _, hl', hl, rfl, rfl⟩ | ⟨p, l', u, hl', hl, rfl, rfl⟩) |
        ⟨hq, rfl, i, hi, rfl⟩)
      · exact Or.inl ⟨l', hl', hl⟩
      · exact Or.inr (Or.inr ⟨p, u, ⟨l', hl', hl⟩, rfl, rfl⟩)
      · exact Or.inr (Or.inl ⟨hq, rfl, i, hi, rfl⟩)
  -- The first machine gives the initial states and the second the accepting ones.
  · rw [Machine.isInitial_concat, ha.isInitial_eq]
    simp [Machine.mem_initialStates]
  · rw [Machine.isAccepting_concat_iff]
    simp [hb.isAccepting_eq, ha.size_eq, Machine.mem_acceptingStates]

end chained

theorem concat?_eq (ha : a.Ascending) (hb : b.Ascending) :
    concat? symbol? silent (ofMachine (.ordered symbol?) a) (ofMachine (.ordered symbol?) b) =
      some (ofMachine (.ordered symbol?) (Machine.concat silent a b)) :=
  chained?_eq (relabels_refl a) (relabels_refl b) (Machine.ascending_concat ha hb)

theorem union?_eq (ha : a.Ascending) (hb : b.Ascending) :
    union? symbol? silent (ofMachine (.ordered symbol?) a) (ofMachine (.ordered symbol?) b) =
      some (ofMachine (.ordered symbol?) (Machine.union silent a b)) := by
  simp only [union?, arcs?_ofMachine, ones_initial_ofMachine, ones_accepting_ofMachine,
    size_ofMachine, Option.bind_eq_bind, Option.bind_some]
  refine writes?_ordered_of_nothing (Machine.ascending_union ha hb) ?_ ?_ (fun q l t => ?_)
    (fun q => ?_) fun q => ?_
  -- Every state written is there: state 0 is new, and both copies are moved behind it.
  · simp only [Write.fits_append, Write.fits_state_cons, Write.states_append,
      Write.states_state_cons, Write.states_copy, Write.states_links, Write.states_acceptings]
    refine ⟨⟨⟨⟨Write.fits_copy (fun _ => lt_of_mem_arcs) (by omega),
      Write.fits_links (List.forall_mem_singleton.mpr (by omega)),
      fits_acceptingStates (by omega)⟩, Write.fits_copy (fun _ => lt_of_mem_arcs) (by omega)⟩,
      Write.fits_links (List.forall_mem_singleton.mpr (by omega)),
      fits_acceptingStates (by omega)⟩, Write.fits_of_forall_lt fun w hw q hq => ?_⟩
    obtain rfl := List.mem_singleton.mp hw
    obtain rfl : 0 = q := Option.some.inj hq
    omega
  · simp [Machine.size_union]
    omega
  -- A move is a link from the new state into one of the copies or lies inside a copy.
  · rw [Machine.mem_moves_union_iff]
    simp only [List.mem_append, List.mem_cons, Write.move_mem_copy, Write.move_mem_links,
      Write.move_not_mem_acceptings, Machine.mem_arcs, Machine.mem_initialStates, List.mem_map,
      reduceCtorEq, List.not_mem_nil, or_false, false_or]
    constructor
    · rintro (⟨rfl, rfl, ⟨i, hi, rfl⟩ | ⟨i, hi, rfl⟩⟩ | ⟨p, u, hu, rfl, rfl⟩ | ⟨p, u, hu, rfl, rfl⟩)
      · exact Or.inl (Or.inl (Or.inr ⟨rfl, rfl, i, hi, rfl⟩))
      · exact Or.inr ⟨rfl, rfl, i, hi, rfl⟩
      · exact Or.inl (Or.inl (Or.inl ⟨p, l, u, hu, rfl, rfl, rfl⟩))
      · exact Or.inl (Or.inr ⟨p, l, u, hu, rfl, rfl, rfl⟩)
    · rintro (((⟨p, _, u, hu, rfl, rfl, rfl⟩ | ⟨rfl, rfl, i, hi, rfl⟩) |
        ⟨p, _, u, hu, rfl, rfl, rfl⟩) | ⟨rfl, rfl, i, hi, rfl⟩)
      · exact Or.inr (Or.inl ⟨p, u, hu, rfl, rfl⟩)
      · exact Or.inl ⟨rfl, rfl, Or.inl ⟨i, hi, rfl⟩⟩
      · exact Or.inr (Or.inr ⟨p, u, hu, rfl, rfl⟩)
      · exact Or.inl ⟨rfl, rfl, Or.inr ⟨i, hi, rfl⟩⟩
  -- Only the new state is initial; the accepting states are those of the copies.
  · rw [Machine.isInitial_union]
    simp
  · rw [Machine.isAccepting_union_iff]
    simp [Machine.mem_acceptingStates]

theorem plus?_eq (hm : a.Ascending) :
    plus? symbol? silent (ofMachine (.ordered symbol?) a) =
      some (ofMachine (.ordered symbol?) (Machine.plus silent a)) := by
  rw [plus?, ones_initial_ofMachine, ones_accepting_ofMachine]
  refine writes?_ordered hm (Machine.ascending_plus hm) (Write.fits_links fun q hq => ?_) ?_
    (fun q l t => ?_) (fun q => ?_) fun q => ?_
  · exact Machine.lt_size_of_mem_acceptingStates hq
  · rw [Write.states_links, Machine.size_plus, Nat.add_zero]
  · rw [Machine.mem_moves_plus_iff, Write.move_mem_links, Machine.mem_acceptingStates,
      Machine.mem_initialStates, or_comm]
  · simp [Machine.isInitial_plus]
  · simp [Machine.isAccepting_plus]

theorem star?_eq (hm : a.Ascending) :
    star? symbol? silent (ofMachine (.ordered symbol?) a) =
      some (ofMachine (.ordered symbol?) (Machine.star silent a)) := by
  simp only [star?, plus?_eq hm, arcs?_ofMachine, ones_initial_ofMachine, ones_accepting_ofMachine,
    size_ofMachine, Option.bind_eq_bind, Option.bind_some]
  refine writes?_ordered_of_nothing (Machine.ascending_star hm) ?_ ?_ (fun q l t => ?_)
    (fun q => ?_) fun q => ?_
  -- Every state written is there, as for the union, with one copy behind the new state.
  · simp only [Write.fits_append, Write.fits_state_cons, Write.states_append,
      Write.states_state_cons, Write.states_copy, Write.states_links, Write.states_acceptings]
    refine ⟨⟨⟨Write.fits_copy (fun _ => lt_of_mem_arcs) (by omega),
      Write.fits_links (List.forall_mem_singleton.mpr (by omega))⟩,
      fits_acceptingStates (by omega)⟩, Write.fits_of_forall_lt fun w hw q hq => ?_⟩
    obtain rfl : 0 = q := by
      rcases List.mem_pair.mp hw with rfl | rfl <;> exact Option.some.inj hq
    omega
  · simp [Machine.size_star, Machine.size_plus]
    omega
  -- A move is a link from the new state or one of the repeated machine.
  · rw [Machine.mem_moves_star_iff]
    simp only [List.mem_append, List.mem_cons, Write.move_mem_copy, Write.move_mem_links,
      Write.move_not_mem_acceptings, Machine.mem_arcs, Machine.mem_initialStates, List.mem_map,
      reduceCtorEq, List.not_mem_nil, or_false, false_or]
    constructor
    · rintro (⟨rfl, rfl, i, hi, rfl⟩ | ⟨p, u, hu, rfl, rfl⟩)
      · exact Or.inr ⟨rfl, rfl, i, hi, rfl⟩
      · exact Or.inl ⟨p, l, u, hu, rfl, rfl, rfl⟩
    · rintro (⟨p, _, u, hu, rfl, rfl, rfl⟩ | ⟨rfl, rfl, i, hi, rfl⟩)
      · exact Or.inr ⟨p, u, hu, rfl, rfl⟩
      · exact Or.inl ⟨rfl, rfl, i, hi, rfl⟩
  -- The new state is initial, and accepting because no word has to be read.
  · rw [Machine.isInitial_star]
    simp
  · rw [Machine.isAccepting_star_iff]
    simp [Machine.mem_acceptingStates, or_comm]

/-! ### Between acceptors and transducers -/

/-- Maps every accepted word to itself. -/
def identity? (s : Storage (Option Char)) : Option (Storage (Option Char × Word)) :=
  s.relabelled? (·.1) fun l => [(l, l.toList)]

/-- Maps every word of the first acceptor to every word of the second. -/
def product? (s s' : Storage (Option Char)) : Option (Storage (Option Char × Word)) :=
  chained? (·.1) Transducer.silent (fun l => [(l, [])]) (fun l => [(none, l.toList)]) s s'

/-- Accepts the words that have an output. -/
def domain? (s : Storage (Option Char × Word)) : Option (Storage (Option Char)) :=
  s.relabelled? id fun l => [l.1]

theorem identity?_eq {keeping : Keeping (Option Char)} {a : Acceptor} :
    (ofMachine keeping a).identity? = some (ofMachine (.ordered (·.1)) a.identity) :=
  relabelled?_eq (relabels_mapLabels _ a) (Machine.ascending_mapLabels _ a)

theorem product?_eq {keeping keeping' : Keeping (Option Char)} {a b : Acceptor} :
    product? (ofMachine keeping a) (ofMachine keeping' b) =
      some (ofMachine (.ordered (·.1)) (a.product b)) :=
  chained?_eq (relabels_mapLabels _ a) (relabels_mapLabels _ b)
    (Machine.ascending_concat (Machine.ascending_mapLabels _ a) (Machine.ascending_mapLabels _ b))

theorem domain?_eq {keeping : Keeping (Option Char × Word)} {m : Transducer} :
    (ofMachine keeping m).domain? = some (ofMachine (.ordered id) m.domain) :=
  relabelled?_eq (relabels_mapLabels _ m) (Machine.ascending_mapLabels _ m)

end Storage

end Transduction
