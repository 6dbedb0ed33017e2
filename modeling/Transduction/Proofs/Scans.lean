/-
The two scans of a bimachine.

`Bimachine.process` compares lengths of paths and zips them; what it computes is
a recursion over the word, in which each symbol meets the left state in front of
it and the right state behind it:

* `Bimachine.emit` — the outputs along a word from a left state on;
* `Bimachine.process_eq_ok_iff` — a word is processed when the right automaton
  accepts it from behind and every symbol has an output;
* `Bimachine.process_mergeRight` — merging right states by acceptance and columns
  of the table changes no output.

A table is looked up by its first entry for a key, so entries that agree wherever
their keys do can be treated as a set (`output?_ofEntries`).
-/
import Mathlib.Data.List.Sort
import Transduction.Bimachine.Compilation
import Transduction.Proofs.Minimization

namespace Transduction

/-! ### Tables of outputs -/

/-- Entries in order of their keys are equal if they have the same members. -/
theorem eq_of_keys_ascending {κ β : Type} [Ord κ] [Std.TransOrd κ] {xs ys : List (κ × β)}
    (hxs : xs.Pairwise fun a b => compare a.1 b.1 = .lt)
    (hys : ys.Pairwise fun a b => compare a.1 b.1 = .lt) (h : ∀ e, e ∈ xs ↔ e ∈ ys) : xs = ys := by
  let below (a b : κ × β) : Prop := compare a.1 b.1 = .lt
  let _ : Std.Irrefl below := ⟨fun a h => absurd (Std.ReflOrd.compare_self.symm.trans h) (by simp)⟩
  let _ : Std.Antisymm below := ⟨fun a b h h' => absurd h' (Std.OrientedCmp.not_lt_of_lt h)⟩
  exact List.Pairwise.eq_of_mem_iff (r := below) hxs hys h

namespace OutputTable

variable {table : OutputTable} {entries : List ((Nat × Char × Nat) × Word)} {l r : Nat} {c : Char}
  {v : Word}

/-- Entries with the same key have the same output. -/
def Functional (entries : List ((Nat × Char × Nat) × Word)) : Prop :=
  ∀ k v v', (k, v) ∈ entries → (k, v') ∈ entries → v = v'

theorem Functional.output?_eq_some_iff (h : Functional table) :
    table.output? l c r = some v ↔ ((l, c, r), v) ∈ table := by
  refine ⟨mem_of_lookup, fun hmem => ?_⟩
  cases hlookup : table.output? l c r with
  | none =>
    have := List.lookup_eq_none_iff.mp hlookup _ hmem
    simp at this
  | some v' => rw [h _ _ _ hmem (mem_of_lookup hlookup)]

theorem functional_of_distinct
    (h : entries.Pairwise fun a b => ¬compare a.1 b.1 = .eq) : Functional entries := by
  induction entries with
  | nil => exact fun k v v' hv => absurd hv List.not_mem_nil
  | cons e entries ih =>
    rw [List.pairwise_cons] at h
    have first (k : Nat × Char × Nat) (v v' : Word) (he : (k, v) = e) (hv' : (k, v') ∈ entries) :
        v = v' := absurd (by rw [← he]; exact Std.ReflOrd.compare_self) (h.1 _ hv')
    intro k v v' hv hv'
    rcases List.mem_cons.mp hv with hv | hv <;> rcases List.mem_cons.mp hv' with hv' | hv'
    · exact congrArg (·.2) (hv.trans hv'.symm)
    · exact first k v v' hv hv'
    · exact (first k v' v hv' hv).symm
    · exact ih h.2 k v v' hv hv'

theorem ofEntries_ascending : (ofEntries entries).Pairwise fun a b => compare a.1 b.1 = .lt :=
  Std.TreeMap.ordered_keys_toList

theorem functional_of_ascending (h : entries.Pairwise fun a b => compare a.1 b.1 = .lt) :
    Functional entries :=
  functional_of_distinct (h.imp fun h => by simp [h])

theorem functional_ofEntries : Functional (ofEntries entries) :=
  functional_of_distinct Std.TreeMap.distinct_keys_toList

/-- What a map holds after entries have been put in was there or comes from them. -/
theorem mem_or_of_getElem?_insertMany {m : Std.TreeMap (Nat × Char × Nat) Word}
    {k : Nat × Char × Nat} (h : (m.insertMany entries)[k]? = some v) :
    (k, v) ∈ entries ∨ m[k]? = some v := by
  induction entries generalizing m with
  | nil => exact Or.inr h
  | cons e entries ih =>
    obtain ⟨j, u⟩ := e
    rw [Std.TreeMap.insertMany_cons] at h
    rcases ih h with hmem | hget
    · exact Or.inl (List.mem_cons_of_mem _ hmem)
    · rw [Std.TreeMap.getElem?_insert] at hget
      split at hget
      · rename_i hj
        obtain rfl := Std.LawfulEqOrd.eq_of_compare hj
        obtain rfl := Option.some.inj hget
        exact Or.inl List.mem_cons_self
      · exact Or.inr hget

theorem mem_of_mem_ofEntries {entry : (Nat × Char × Nat) × Word} (h : entry ∈ ofEntries entries) :
    entry ∈ entries := by
  obtain ⟨k, v⟩ := entry
  rw [ofEntries, Std.TreeMap.mem_toList_iff_getElem?_eq_some,
    Std.TreeMap.ofList_eq_insertMany_empty] at h
  exact (mem_or_of_getElem?_insertMany h).resolve_right (by simp)

/-- Entries that agree wherever their keys do are all kept. -/
theorem mem_ofEntries_iff (hf : Functional entries) {entry : (Nat × Char × Nat) × Word} :
    entry ∈ ofEntries entries ↔ entry ∈ entries := by
  refine ⟨mem_of_mem_ofEntries, fun h => ?_⟩
  obtain ⟨k, v⟩ := entry
  have hmem : k ∈ entries.map (·.1) := List.mem_map.mpr ⟨_, h, rfl⟩
  have hcontains : (Std.TreeMap.ofList entries compare).contains k = true := by
    rw [Std.TreeMap.contains_ofList]
    exact List.contains_iff_mem.mpr hmem
  rw [Std.TreeMap.contains_eq_isSome_getElem?, Option.isSome_iff_exists] at hcontains
  obtain ⟨v', hv'⟩ := hcontains
  have hmem' : (k, v') ∈ ofEntries entries := Std.TreeMap.mem_toList_iff_getElem?_eq_some.mpr hv'
  rwa [hf k v v' h (mem_of_mem_ofEntries hmem')]

theorem getElem?_ofList_iff (hf : Functional entries) {k : Nat × Char × Nat} :
    (Std.TreeMap.ofList entries compare : Std.TreeMap (Nat × Char × Nat) Word)[k]? = some v ↔
      (k, v) ∈ entries := by
  rw [← mem_ofEntries_iff hf, ofEntries, Std.TreeMap.mem_toList_iff_getElem?_eq_some]

theorem output?_ofEntries (hf : Functional entries) :
    (ofEntries entries).output? l c r = some v ↔ ((l, c, r), v) ∈ entries := by
  rw [functional_ofEntries.output?_eq_some_iff, mem_ofEntries_iff hf]

end OutputTable

namespace Bimachine

variable {b : Bimachine} {l t r : Nat} {c : Char} {w o v : Word}

/-! ### Outputs along a word -/

/-- The right state in front of a suffix. -/
def behind (b : Bimachine) (w : Word) : Option Nat :=
  follow b.right.delta b.right.start w.reverse

/-- The outputs along a word, from a left state on. -/
def emit (b : Bimachine) : Nat → Word → Option Word
  | _, [] => some []
  | l, c :: w =>
    (b.behind w).bind fun r => (b.left.delta l c).bind fun t =>
      (b.table.output? l c r).bind fun v => (b.emit t w).map fun o => v ++ o

@[simp] theorem behind_nil : b.behind [] = some b.right.start := rfl

theorem behind_cons : b.behind (c :: w) = (b.behind w).bind fun r => b.right.delta r c := by
  rw [behind, List.reverse_cons, follow_concat]
  rfl

theorem emit_cons_eq_some : b.emit l (c :: w) = some o ↔
    ∃ r t v o', b.behind w = some r ∧ b.left.delta l c = some t ∧
      b.table.output? l c r = some v ∧ b.emit t w = some o' ∧ o = v ++ o' := by
  simp only [emit, Option.bind_eq_some_iff, Option.map_eq_some_iff]
  constructor
  · rintro ⟨r, hr, t, ht, v, hv, o', ho', rfl⟩
    exact ⟨r, t, v, o', hr, ht, hv, ho', rfl⟩
  · rintro ⟨r, t, v, o', hr, ht, hv, ho', rfl⟩
    exact ⟨r, hr, t, ht, v, hv, o', ho', rfl⟩

theorem exists_follow_of_emit (h : b.emit l w = some o) :
    ∃ t, follow b.left.delta l w = some t := by
  induction w generalizing l o with
  | nil => exact ⟨l, rfl⟩
  | cons c w ih =>
    obtain ⟨r, t, v, o', _, ht, _, ho', rfl⟩ := emit_cons_eq_some.mp h
    obtain ⟨s, hs⟩ := ih ho'
    exact ⟨s, follow_cons_eq_some.mpr ⟨t, ht, hs⟩⟩

/-! ### Processing a word -/

/-- The path of a scan from behind, turned around, starts with the state in front of
the word. -/
theorem reverse_backwardTrace (h : b.behind w = some r) :
    ∃ path, (b.right.trace b.right.start w.reverse).2.reverse = r :: path := by
  cases w with
  | nil =>
    obtain rfl := Option.some.inj h
    exact ⟨[], rfl⟩
  | cons c w =>
    rw [behind_cons, Option.bind_eq_some_iff] at h
    obtain ⟨s, hs, hr⟩ := h
    rw [List.reverse_cons, Dfa.trace_concat hs hr, List.reverse_append]
    exact ⟨_, rfl⟩

/-- Where both scans reach the end, the outputs along the zipped paths are those of
the recursion. -/
theorem outputs_scans_iff (position : Nat) (hl : follow b.left.delta l w = some t)
    (hr : b.behind w = some r) :
    b.outputs position ((b.left.trace l w).2.zip
      (w.zip (b.right.trace b.right.start w.reverse).2.reverse.tail)) = .ok o ↔
    b.emit l w = some o := by
  -- The induction is on the word.  The right path is read from its end, so its state behind the
  -- first symbol is the head of what is left.
  induction w generalizing l r o position with
  | nil => simp [Dfa.trace, outputs, emit]
  | cons c w ih =>
    obtain ⟨l', hl', hl⟩ := follow_cons_eq_some.mp hl
    rw [behind_cons, Option.bind_eq_some_iff] at hr
    obtain ⟨s, hs, hr⟩ := hr
    obtain ⟨path, hpath⟩ := reverse_backwardTrace hs
    have rest (o' : Word) := ih (o := o') (position + 1) hl hs
    simp only [hpath, List.tail_cons] at rest
    rw [List.reverse_cons, Dfa.trace_concat hs hr, List.reverse_append, Dfa.trace_cons_some hl',
      List.reverse_singleton, List.singleton_append, List.tail_cons, hpath, List.zip_cons_cons,
      List.zip_cons_cons, outputs]
    cases hv : b.table.output? l c s with
    | none => simp [emit, hs, hl', hv]
    | some v =>
      simp only [emit, hs, hl', hv, Option.bind_some]
      generalize houts : b.outputs (position + 1) _ = outs at rest ⊢
      cases outs with
      | error e => simp [Except.map, ← rest]
      | ok o' => simp [Except.map, (rest o').mp rfl]

/-- A word is processed when the right automaton accepts it from behind and every
symbol has an output. -/
theorem process_eq_ok_iff : b.process w = .ok o ↔
    (∃ r, b.behind w = some r ∧ b.right.isAccepting r = true) ∧
      b.emit b.left.start w = some o := by
  have accepted_iff := Dfa.trace_eq_true_iff (d := b.right) (q := b.right.start) (w := w.reverse)
  have left_iff := Dfa.length_trace_le_iff (d := b.left) (q := b.left.start) (w := w)
  have right_iff := Dfa.length_trace_le_iff (d := b.right) (q := b.right.start) (w := w.reverse)
  -- A scan stops early exactly if the word cannot be followed, from the left or from behind.
  rw [List.length_reverse] at right_iff
  rw [process, Dfa.forwardTrace, Dfa.backwardTrace]
  simp only [left_iff, right_iff]
  cases hl : follow b.left.delta b.left.start w with
  | none =>
    -- Where the left scan stops no output is put together either.
    have hnone : b.emit b.left.start w ≠ some o := fun h => by
      obtain ⟨t, ht⟩ := exists_follow_of_emit h
      rw [hl] at ht
      cases ht
    simp [hnone]
  | some t =>
    cases hr : follow b.right.delta b.right.start w.reverse with
    | none => simp [behind, hr]
    | some r =>
      have hbehind : b.behind w = some r := hr
      rw [hr] at accepted_iff
      simp only [Option.some.injEq, exists_eq_left'] at accepted_iff
      simp only [reduceCtorEq, if_false, hbehind, Option.some.injEq, exists_eq_left',
        ← accepted_iff]
      -- Behind both scans acceptance and the table decide.
      cases (b.right.trace b.right.start w.reverse).1 with
      | false => simp
      | true => simpa using outputs_scans_iff 0 hl hbehind

/-- Bimachines whose right states correspond, in acceptance and in the table, give
the same outputs. -/
theorem process_congr {b' : Bimachine} {R : Nat → Nat → Prop} (hleft : b.left = b'.left)
    (hbehind : ∀ w, Option.Rel R (b.behind w) (b'.behind w))
    (hacc : ∀ i r, R i r → b.right.isAccepting i = b'.right.isAccepting r)
    (htable : ∀ l c i r, R i r → b.table.output? l c i = b'.table.output? l c r) :
    b.process w = .ok o ↔ b'.process w = .ok o := by
  -- The outputs agree symbol by symbol, since the states behind each one correspond.
  have emit_eq (l : Nat) : b.emit l w = b'.emit l w := by
    induction w generalizing l with
    | nil => rfl
    | cons c w ih =>
      rw [emit, emit, hleft]
      have hw := hbehind w
      generalize b.behind w = x, b'.behind w = y at hw
      cases hw with
      | none => rfl
      | some hir =>
        simp only [Option.bind_some, htable _ _ _ _ hir, ih]
  rw [process_eq_ok_iff, process_eq_ok_iff, hleft, emit_eq]
  refine and_congr_left fun _ => ?_
  have hw := hbehind w
  generalize b.behind w = x, b'.behind w = y at hw
  cases hw with
  | none => simp
  | some hir => simp [hacc _ _ hir]

/-- A word that is not processed is outside the domain. -/
theorem process_eq_error_of_not (h : ∀ o, b.process w ≠ .ok o) :
    ∃ p, b.process w = .error (.outsideDomain p) := by
  cases hp : b.process w with
  | ok o => exact absurd hp (h o)
  | error e =>
    obtain ⟨p⟩ := e
    exact ⟨p, rfl⟩

/-! ### Merging right states -/

section mergeRight

variable {α : Type} [Ord α] [Std.TransOrd α] [Std.LawfulEqOrd α] {values : List α} {p q : Nat}

theorem mem_unseen_empty {x : α} : x ∈ (unseen id ∅ values).2 ↔ x ∈ values := by
  refine ⟨fun h => (mem_unseen h).1, fun h => ?_⟩
  have hc : (unseen id ∅ values).1.contains (id x) = true := contains_unseen_of_mem h
  obtain ⟨y, hy, rfl⟩ := (contains_unseen.mp hc).resolve_left (by simp)
  exact hy

theorem getElem?_classNumbers {k : Nat} : (classNumbers values)[q]? = some k ↔
    ∃ x, values[q]? = some x ∧ (unseen id ∅ values).2[k]? = some x := by
  have nodup : (unseen id ∅ values).2.Nodup := by
    have nodup_map : ((unseen id ∅ values).2.map id).Nodup := nodup_unseen
    rwa [List.map_id] at nodup_map
  rw [classNumbers, List.getElem?_map, Option.map_eq_some_iff]
  refine exists_congr fun x => and_congr_right fun hx => ?_
  obtain ⟨j, hj⟩ := List.getElem?_of_mem (mem_unseen_empty.mpr (List.mem_of_getElem? hx))
  rw [(getElem?_numbering nodup).mpr hj, Option.getD_some]
  constructor
  · rintro rfl
    exact hj
  · intro hk
    have hlt : k < (unseen id ∅ values).2.length := (List.getElem?_eq_some_iff.mp hk).1
    exact ((List.getElem?_inj hlt nodup).mp (hk.trans hj.symm)).symm

/-- Positions have one number exactly if their values are equal. -/
theorem getElem?_classNumbers_eq_iff :
    (classNumbers values)[p]? = (classNumbers values)[q]? ↔ values[p]? = values[q]? := by
  constructor
  · intro h
    cases hp : (classNumbers values)[p]? with
    | none =>
      have none_iff (i : Nat) : (classNumbers values)[i]? = none ↔ values[i]? = none := by
        simp [classNumbers]
      rw [(none_iff p).mp hp, (none_iff q).mp (h ▸ hp)]
    | some k =>
      obtain ⟨x, hx, hkx⟩ := getElem?_classNumbers.mp hp
      obtain ⟨y, hy, hky⟩ := getElem?_classNumbers.mp (h ▸ hp)
      rw [hx, hy, ← hkx, hky]
  · intro h
    rw [classNumbers, List.getElem?_map, List.getElem?_map, h]

theorem classNumbers_gaps : ∀ k ∈ classNumbers values, ∀ j < k, j ∈ classNumbers values := by
  intro k hk j hj
  obtain ⟨q, hq⟩ := List.mem_iff_getElem?.mp hk
  obtain ⟨x, _, hx⟩ := getElem?_classNumbers.mp hq
  have hlt : j < (unseen id ∅ values).2.length := hj.trans (List.getElem?_eq_some_iff.mp hx).1
  have hy := List.getElem?_eq_getElem hlt
  obtain ⟨p, hp⟩ := List.getElem?_of_mem (mem_unseen_empty.mp (List.mem_of_getElem? hy))
  exact List.mem_iff_getElem?.mpr ⟨p, getElem?_classNumbers.mpr ⟨_, hp, hy⟩⟩

theorem mem_column {table : OutputTable} :
    ((l, c), v) ∈ column table r ↔ ((l, c, r), v) ∈ table := by
  rw [column, List.mem_filterMap]
  constructor
  · rintro ⟨⟨⟨l', c', r'⟩, v'⟩, hmem, h⟩
    simp only at h
    by_cases hr : r' = r
    · rw [if_pos hr] at h
      cases h
      exact hr ▸ hmem
    · rw [if_neg hr] at h
      cases h
  · exact fun h => ⟨_, h, by simp⟩

end mergeRight

variable {left right : Dfa} {table : OutputTable} {p q : Nat}

/-- What is seen of a right state: whether it is state 0, its acceptance, and its part of the
table. -/
def profile (right : Dfa) (table : OutputTable) (r : Nat) :
    Bool × Bool × List ((Nat × Char) × Word) :=
  (r == 0, right.isAccepting r, column table r)

theorem length_columnPartition : (columnPartition right table).length = right.size := by
  simp [columnPartition, classNumbers]

theorem columnPartition_eq_iff (hp : p < right.size) (hq : q < right.size) :
    (columnPartition right table)[p]? = (columnPartition right table)[q]? ↔
      profile right table p = profile right table q := by
  rw [columnPartition, getElem?_classNumbers_eq_iff]
  simp only [List.getElem?_map, List.getElem?_range hp, List.getElem?_range hq, Option.map_some,
    Option.some.injEq]
  rfl

theorem column_eq_of_columnPartition (hp : p < right.size) (hq : q < right.size)
    (h : (columnPartition right table)[p]? = (columnPartition right table)[q]?) :
    right.isAccepting p = right.isAccepting q ∧ column table p = column table q :=
  Prod.mk.inj (Prod.mk.inj ((columnPartition_eq_iff hp hq).mp h)).2

/-- The new number of each right state when right states are merged. -/
def mergedStates (right : Dfa) (table : OutputTable) : List (Option Nat) :=
  (right.minimizeWithin ClassTable.ascendingClasses (columnPartition right table)).2

/-- The entries of a table after right states have been renamed. -/
def renamedEntries (newState : List (Option Nat)) (table : OutputTable) : OutputTable :=
  table.filterMap fun ((l, c, r), w) => ((newState[r]?).join).map fun r' => ((l, c, r'), w)

theorem mem_renamedEntries {newState : List (Option Nat)} {l r' : Nat} {c : Char} {v : Word} :
    ((l, c, r'), v) ∈ renamedEntries newState table ↔
      ∃ r, Dfa.GoesTo newState r' r ∧ ((l, c, r), v) ∈ table := by
  rw [renamedEntries, List.mem_filterMap]
  constructor
  · rintro ⟨⟨⟨l₀, c₀, r⟩, v₀⟩, hmem, h⟩
    obtain ⟨i, hi, h⟩ := Option.map_eq_some_iff.mp h
    cases h
    exact ⟨r, hi, hmem⟩
  · rintro ⟨r, hgoes, hmem⟩
    refine ⟨_, hmem, ?_⟩
    simp only
    rw [hgoes]
    rfl

theorem mergeRight_eq : mergeRight left right table =
    { left := left
      right := (right.minimizeWithin ClassTable.ascendingClasses (columnPartition right table)).1
      table := OutputTable.ofEntries (renamedEntries (mergedStates right table) table) } :=
  rfl

section merged

variable (hr : right.WellFormed)

include hr

theorem merges_columnPartition (table : OutputTable) :
    right.Merges (columnPartition right table)
      (right.minimizeWithin ClassTable.ascendingClasses (columnPartition right table)).1
      (mergedStates right table) :=
  Dfa.merges_minimizeWithin (fun _ ht => ClassTable.Valid.visits_ascendingClasses ht) hr
    length_columnPartition classNumbers_gaps

/-- Both right automata read a suffix to states that correspond. -/
theorem behind_mergeRight (left : Dfa) (table : OutputTable) (w : Word) :
    Option.Rel (Dfa.GoesTo (mergedStates right table))
      ((mergeRight left right table).behind w) (follow right.delta right.start w.reverse) :=
  (merges_columnPartition hr table).follow (merges_columnPartition hr table).start

/-- Right states that merge have equal columns, so the choice of one does not matter. -/
theorem mem_renamedEntries_iff {r' : Nat} (hgoes : Dfa.GoesTo (mergedStates right table) r' r) :
    ((l, c, r'), v) ∈ renamedEntries (mergedStates right table) table ↔
      ((l, c, r), v) ∈ table := by
  have hmerges := merges_columnPartition hr table
  refine mem_renamedEntries.trans ⟨fun h => ?_, fun hmem => ⟨r, hgoes, hmem⟩⟩
  obtain ⟨p, hp, hmem⟩ := h
  have hcolumn := column_eq_of_columnPartition (hmerges.lt_size r' p hp)
    (hmerges.lt_size r' r hgoes) (hmerges.inside r' p r hp hgoes)
  rwa [← mem_column, hcolumn.2, mem_column] at hmem

theorem functional_renamedEntries (hf : OutputTable.Functional table) :
    OutputTable.Functional (renamedEntries (mergedStates right table) table) := by
  rintro ⟨l, c, r'⟩ v v' hv hv'
  obtain ⟨r, hgoes, hmem⟩ := mem_renamedEntries.mp hv
  exact hf _ v v' hmem ((mem_renamedEntries_iff hr hgoes).mp hv')

/-- The entries of a bimachine whose right states have been merged. -/
theorem mem_table_mergeRight (hf : OutputTable.Functional table) {r' : Nat} :
    ((l, c, r'), v) ∈ (mergeRight left right table).table ↔
      ∃ r, Dfa.GoesTo (mergedStates right table) r' r ∧ ((l, c, r), v) ∈ table := by
  rw [mergeRight_eq, OutputTable.mem_ofEntries_iff (functional_renamedEntries hr hf),
    mem_renamedEntries]

theorem isAccepting_mergeRight {i : Nat} (hi : Dfa.GoesTo (mergedStates right table) i r) :
    (mergeRight left right table).right.isAccepting i = right.isAccepting r :=
  (merges_columnPartition hr table).isAccepting_eq
    (fun _ _ hp hq h => (column_eq_of_columnPartition hp hq h).1) hi

/-- Both right automata accept the same words from behind. -/
theorem accepts_behind_mergeRight_iff :
    (∃ i, (mergeRight left right table).behind w = some i ∧
      (mergeRight left right table).right.isAccepting i = true) ↔
    ∃ r, follow right.delta right.start w.reverse = some r ∧ right.isAccepting r = true := by
  have hrel := behind_mergeRight hr left table w
  constructor
  · intro h
    obtain ⟨i, hi, hacc⟩ := h
    rw [hi] at hrel
    obtain ⟨r, hfollow, hgoes⟩ := rel_some_left hrel
    refine ⟨r, hfollow, ?_⟩
    rw [← hacc, isAccepting_mergeRight hr hgoes]
  · intro h
    obtain ⟨r, hfollow, hacc⟩ := h
    rw [hfollow] at hrel
    obtain ⟨i, hi, hgoes⟩ := rel_some_right hrel
    exact ⟨i, hi, (isAccepting_mergeRight hr hgoes).trans hacc⟩

end merged

/-- The outputs in front of a right state are those in front of the states that it merges. -/
theorem output?_mergeRight (hr : right.WellFormed) (hf : OutputTable.Functional table) {i : Nat}
    (hi : Dfa.GoesTo (mergedStates right table) i r) :
    (mergeRight left right table).table.output? l c i = table.output? l c r := by
  rw [mergeRight_eq]
  exact Option.ext fun v => by
    rw [OutputTable.output?_ofEntries (functional_renamedEntries hr hf),
      mem_renamedEntries_iff hr hi, hf.output?_eq_some_iff]

/-- Merging right states by acceptance and columns changes no output. -/
theorem process_mergeRight {b : Bimachine} (hr : b.right.WellFormed)
    (hf : OutputTable.Functional b.table) :
    (mergeRight b.left b.right b.table).process w = .ok o ↔ b.process w = .ok o :=
  process_congr (R := Dfa.GoesTo (mergedStates b.right b.table)) rfl
    (behind_mergeRight hr b.left b.table) (fun _ _ hi => isAccepting_mergeRight hr hi)
    fun _ _ _ _ hi => output?_mergeRight hr hf hi

theorem functional_table_mergeRight :
    OutputTable.Functional (mergeRight left right table).table := by
  rw [mergeRight_eq]
  exact OutputTable.functional_ofEntries

theorem wellFormed_right_mergeRight (hr : right.WellFormed) :
    (mergeRight left right table).right.WellFormed :=
  (merges_columnPartition hr table).wellFormed

end Bimachine

end Transduction
