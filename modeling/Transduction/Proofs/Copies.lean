/-
Copies of machines inside others.

Union, concatenation and iteration keep the states of an operand in order and move them up by an
offset.  The moves that they add are silent and lead to initial states, so a run of the whole stays
inside one copy up to such a move:

* `path_shifted_iff` — the paths inside a copy are those of the operand;
* `Node.mem_moves_continueWith_iff`, `Machine.mem_entries_iff` — the moves that are added;
* `Machine.acceptsLabels_union_iff` — a run of a union enters one operand and stays there;
* `Machine.acceptsLabels_concat_iff` — a run of a concatenation changes over exactly once.

What the labels mean is left open, so languages and relations follow from the same statements.
-/
import Transduction.Machine.Algebra
import Transduction.Proofs.Path

namespace Transduction

/-- The paths between states that a graph keeps together are found further up in another graph, if
the moves of these states lead there as far up. -/
theorem path_shifted_iff {L : Type} {next next' : Nat → List (L × Nat)} {P : Nat → Prop}
    {offset p r : Nat} {ls : List L}
    (hmoves : ∀ q, P q → next' (q + offset) = (next q).map fun (l, t) => (l, t + offset))
    (hP : ∀ q l t, P q → (l, t) ∈ next q → P t) (hp : P p) :
    Path next' (p + offset) ls r ↔ ∃ q, r = q + offset ∧ Path next p ls q := by
  constructor
  · intro h
    obtain ⟨q, hpath, hr, _⟩ := h.simulate (R := fun r q => r = q + offset ∧ P q) ⟨rfl, hp⟩
      fun k q l t hk hmove => by
        obtain ⟨rfl, hq⟩ := hk
        rw [hmoves q hq] at hmove
        obtain ⟨⟨l', t'⟩, hold, he⟩ := List.mem_map.mp hmove
        cases he
        exact ⟨t', hold, rfl, hP q l t' hq hold⟩
    exact ⟨q, hr, hpath⟩
  · intro h
    obtain ⟨q, rfl, h⟩ := h
    obtain ⟨r, hpath, rfl, _⟩ := h.simulate (R := fun q r => r = q + offset ∧ P q) ⟨rfl, hp⟩
      fun q k l t hk hmove => by
        obtain ⟨rfl, hq⟩ := hk
        exact ⟨t + offset, hmoves q hq ▸ List.mem_map.mpr ⟨(l, t), hmove, rfl⟩, rfl,
          hP q l t hq hmove⟩
    exact hpath

namespace Node

variable {L : Type} [Ord L] {n : Node L} {links : List (L × Nat)}

theorem initial_continueWith : (n.continueWith links).initial = n.initial := by
  rw [continueWith]
  split <;> rfl

theorem accepting_continueWith : (n.continueWith links).accepting = n.accepting := by
  rw [continueWith]
  split <;> rfl

/-- Further moves leave a node if it is accepting. -/
theorem mem_moves_continueWith_iff [Std.TransOrd L] [Std.LawfulEqOrd L] {move : L × Nat} :
    move ∈ (n.continueWith links).moves ↔
      move ∈ n.moves ∨ n.accepting = true ∧ move ∈ links := by
  rw [continueWith]
  split
  · rename_i h
    rw [mem_ascending, List.mem_append, h, eq_self, true_and]
  · rename_i h
    exact (or_iff_left fun hmove => h hmove.1).symm

end Node

namespace Machine

variable {L : Type} {m a b : Machine L} {s l : L} {i p q r t offset : Nat} {ls : List L}

/-- Silent moves lead to the initial states of a machine further up. -/
theorem mem_entries_iff : (l, t) ∈ entries s offset m ↔
    l = s ∧ ∃ q, m.isInitial q = true ∧ t = q + offset := by
  rw [entries, List.mem_map]
  constructor
  · intro h
    obtain ⟨q, hq, he⟩ := h
    cases he
    exact ⟨rfl, q, mem_initialStates.mp hq, rfl⟩
  · intro h
    obtain ⟨rfl, q, hq, rfl⟩ := h
    exact ⟨q, mem_initialStates.mpr hq, rfl⟩

/-! ### A state of an operand inside a construction -/

section inner

variable (h : m.nodes[i]? = (a.nodes[q]?).map (Node.inner offset))

include h

theorem moves_of_inner : m.moves i = (a.moves q).map fun (l, t) => (l, t + offset) := by
  simp only [moves, h]
  cases a.nodes[q]? <;> rfl

theorem isInitial_of_inner : m.isInitial i = false := by
  simp only [isInitial, h]
  cases a.nodes[q]? <;> rfl

theorem isAccepting_of_inner : m.isAccepting i = a.isAccepting q := by
  simp only [isAccepting, h]
  cases a.nodes[q]? <;> rfl

end inner

/-! ### Union

Behind the new state 0 come the states of the first operand, and behind them those of the second. -/

theorem getElem?_union_first (hq : q < a.size) :
    (union s a b).nodes[q + 1]? = (a.nodes[q]?).map (Node.inner 1) := by
  have hlt : q < a.nodes.size := hq
  rw [union, Array.getElem?_append_left (by simp; omega),
    Array.getElem?_append_right (by simp), Array.getElem?_map]
  simp

theorem getElem?_union_second :
    (union s a b).nodes[q + (a.size + 1)]? = (b.nodes[q]?).map (Node.inner (a.size + 1)) := by
  have hsize : a.size = a.nodes.size := rfl
  rw [union, Array.getElem?_append_right (by simp; omega), Array.getElem?_map]
  simp [hsize, Nat.add_comm 1]

theorem getElem?_union_zero : (union s a b).nodes[0]? =
    some { initial := true, moves := entries s 1 a ++ entries s (a.size + 1) b } := by
  rw [union, Array.append_assoc, Array.getElem?_append_left Nat.zero_lt_one]
  rfl

theorem moves_union_zero :
    (union s a b).moves 0 = entries s 1 a ++ entries s (a.size + 1) b := by
  simp [moves, getElem?_union_zero]

theorem isAccepting_union_zero : (union s a b).isAccepting 0 = false := by
  simp [isAccepting, getElem?_union_zero]

theorem isInitial_union : (union s a b).isInitial q = true ↔ q = 0 := by
  rcases Nat.lt_or_ge q (a.size + 1) with hlt | hge
  · cases q with
    | zero => exact iff_of_true (by simp [isInitial, getElem?_union_zero]) rfl
    | succ p =>
      rw [isInitial_of_inner (getElem?_union_first (Nat.lt_of_succ_lt_succ hlt))]
      exact iff_of_false Bool.false_ne_true (Nat.succ_ne_zero p)
  · obtain ⟨p, rfl⟩ := Nat.exists_eq_add_of_le' hge
    rw [isInitial_of_inner getElem?_union_second]
    exact iff_of_false Bool.false_ne_true (Nat.succ_ne_zero _)

theorem path_union_first (ha : a.Closed) (hp : p < a.size) :
    Path (union s a b).moves (p + 1) ls r ↔ ∃ q, r = q + 1 ∧ Path a.moves p ls q :=
  path_shifted_iff (P := (· < a.size)) (fun _ hq => moves_of_inner (getElem?_union_first hq))
    (fun q l t _ hmove => ha q l t hmove) hp

theorem path_union_second : Path (union s a b).moves (p + (a.size + 1)) ls r ↔
    ∃ q, r = q + (a.size + 1) ∧ Path b.moves p ls q :=
  path_shifted_iff (P := fun _ => True) (fun _ _ => moves_of_inner getElem?_union_second)
    (fun _ _ _ _ _ => trivial) trivial

/-- A run of a union is a silent move in front of a run of either operand. -/
theorem acceptsLabels_union_iff (ha : a.Closed) : (union s a b).AcceptsLabels ls ↔
    ∃ rest, ls = s :: rest ∧ (a.AcceptsLabels rest ∨ b.AcceptsLabels rest) := by
  constructor
  · intro h
    obtain ⟨p, r, hp, hpath, hr⟩ := h
    obtain rfl := isInitial_union.mp hp
    -- the first move chooses the operand, and what is behind it stays in that copy
    cases hpath with
    | nil =>
      rw [isAccepting_union_zero] at hr
      cases hr
    | @cons _ t _ l rest hmove hpath =>
      rw [moves_union_zero, List.mem_append, mem_entries_iff, mem_entries_iff] at hmove
      obtain ⟨rfl, q, hq, rfl⟩ | ⟨rfl, q, hq, rfl⟩ := hmove
      · obtain ⟨r, rfl, hrest⟩ := (path_union_first ha (lt_size_of_isInitial hq)).mp hpath
        have hlt : r < a.size := ha.path_lt hrest (lt_size_of_isInitial hq)
        rw [isAccepting_of_inner (getElem?_union_first hlt)] at hr
        exact ⟨rest, rfl, Or.inl ⟨q, r, hq, hrest, hr⟩⟩
      · obtain ⟨r, rfl, hrest⟩ := path_union_second.mp hpath
        rw [isAccepting_of_inner getElem?_union_second] at hr
        exact ⟨rest, rfl, Or.inr ⟨q, r, hq, hrest, hr⟩⟩
  · intro h
    obtain ⟨rest, rfl, ⟨q, r, hq, hpath, hr⟩ | ⟨q, r, hq, hpath, hr⟩⟩ := h
    · have hlt : q < a.size := lt_size_of_isInitial hq
      have hmove : (s, q + 1) ∈ (union s a b).moves 0 := by
        rw [moves_union_zero]
        exact List.mem_append_left _ (mem_entries_iff.mpr ⟨rfl, q, hq, rfl⟩)
      exact ⟨0, r + 1, isInitial_union.mpr rfl,
        .cons hmove ((path_union_first ha hlt).mpr ⟨r, rfl, hpath⟩),
        (isAccepting_of_inner (getElem?_union_first (ha.path_lt hpath hlt))).trans hr⟩
    · have hmove : (s, q + (a.size + 1)) ∈ (union s a b).moves 0 := by
        rw [moves_union_zero]
        exact List.mem_append_right _ (mem_entries_iff.mpr ⟨rfl, q, hq, rfl⟩)
      exact ⟨0, r + (a.size + 1), isInitial_union.mpr rfl,
        .cons hmove (path_union_second.mpr ⟨r, rfl, hpath⟩),
        (isAccepting_of_inner getElem?_union_second).trans hr⟩

/-! ### Concatenation

The states of the first operand keep their numbers, and those of the second come behind them. -/

section concat

variable [Ord L]

theorem getElem?_concat_first (hq : q < a.size) : (concat s a b).nodes[q]? =
    (a.nodes[q]?).map fun n =>
      { n.continueWith (entries s a.size b) with accepting := false } := by
  rw [concat, Array.getElem?_append_left (by simpa [size] using hq), Array.getElem?_map]

theorem getElem?_concat_second :
    (concat s a b).nodes[q + a.size]? = (b.nodes[q]?).map (Node.inner a.size) := by
  have hsize : a.size = a.nodes.size := rfl
  rw [concat, Array.getElem?_append_right (by simp [hsize]), Array.getElem?_map]
  simp [hsize]

theorem isInitial_concat : (concat s a b).isInitial q = a.isInitial q := by
  rcases Nat.lt_or_ge q a.size with hlt | hge
  · simp only [isInitial, getElem?_concat_first hlt]
    cases a.nodes[q]? with
    | none => rfl
    | some n => exact Node.initial_continueWith
  · obtain ⟨p, rfl⟩ := Nat.exists_eq_add_of_le' hge
    rw [isInitial_of_inner getElem?_concat_second, eq_comm, Bool.eq_false_iff]
    exact fun h => Nat.not_lt_of_le hge (lt_size_of_isInitial h)

theorem isAccepting_concat_first (hq : q < a.size) : (concat s a b).isAccepting q = false := by
  simp only [isAccepting, getElem?_concat_first hq]
  cases a.nodes[q]? <;> rfl

theorem path_concat_second : Path (concat s a b).moves (p + a.size) ls r ↔
    ∃ q, r = q + a.size ∧ Path b.moves p ls q :=
  path_shifted_iff (P := fun _ => True) (fun _ _ => moves_of_inner getElem?_concat_second)
    (fun _ _ _ _ _ => trivial) trivial

variable [Std.TransOrd L] [Std.LawfulEqOrd L]

/-- The moves of the first operand stay, and its accepting states enter the second one. -/
theorem mem_moves_concat_first (hq : q < a.size) : (l, t) ∈ (concat s a b).moves q ↔
    (l, t) ∈ a.moves q ∨
      a.isAccepting q = true ∧ l = s ∧ ∃ i, b.isInitial i = true ∧ t = i + a.size := by
  rw [← mem_entries_iff]
  simp only [moves, isAccepting, getElem?_concat_first hq]
  cases a.nodes[q]? with
  | none => simp
  | some n => exact Node.mem_moves_continueWith_iff

theorem path_concat_of_path (h : Path a.moves p ls q) : Path (concat s a b).moves p ls q := by
  induction h with
  | nil k => exact .nil k
  | cons hmove _ ih =>
    exact .cons ((mem_moves_concat_first (lt_size_of_mem_moves hmove)).mpr (Or.inl hmove)) ih

/-- A run that starts in the first operand and ends in acceptance enters the second operand from an
accepting state of the first. -/
theorem exists_entry_of_path_concat (ha : a.Closed) (h : Path (concat s a b).moves p ls r)
    (hp : p < a.size) (hr : (concat s a b).isAccepting r = true) :
    ∃ front back q i, ls = front ++ s :: back ∧ Path a.moves p front q ∧
      a.isAccepting q = true ∧ b.isInitial i = true ∧
      Path (concat s a b).moves (i + a.size) back r := by
  -- the first operand has no accepting state left, so a run cannot end there
  induction h with
  | nil k =>
    rw [isAccepting_concat_first hp] at hr
    cases hr
  | @cons k t r l ls hmove hpath ih =>
    rcases (mem_moves_concat_first hp).mp hmove with hmove | ⟨hk, rfl, i, hi, rfl⟩
    · obtain ⟨front, back, q, i, rfl, hfront, hq, hi, hback⟩ := ih (ha k l t hmove) hr
      exact ⟨l :: front, back, q, i, rfl, .cons hmove hfront, hq, hi, hback⟩
    · exact ⟨[], ls, k, i, rfl, .nil k, hk, hi, hpath⟩

/-- A run of a concatenation is a run of each operand, with a silent move in between. -/
theorem acceptsLabels_concat_iff (ha : a.Closed) : (concat s a b).AcceptsLabels ls ↔
    ∃ front back, ls = front ++ s :: back ∧ a.AcceptsLabels front ∧ b.AcceptsLabels back := by
  constructor
  · intro h
    obtain ⟨p, r, hp, hpath, hr⟩ := h
    rw [isInitial_concat] at hp
    obtain ⟨front, back, q, i, rfl, hfront, hq, hi, hpath⟩ :=
      exists_entry_of_path_concat ha hpath (lt_size_of_isInitial hp) hr
    obtain ⟨r, rfl, hback⟩ := path_concat_second.mp hpath
    rw [isAccepting_of_inner getElem?_concat_second] at hr
    exact ⟨front, back, rfl, ⟨p, q, hp, hfront, hq⟩, i, r, hi, hback, hr⟩
  · intro h
    obtain ⟨front, back, rfl, ⟨p, q, hp, hfront, hq⟩, i, r, hi, hback, hr⟩ := h
    have hentry : (s, i + a.size) ∈ (concat s a b).moves q :=
      (mem_moves_concat_first (lt_size_of_isAccepting hq)).mpr (Or.inr ⟨hq, rfl, i, hi, rfl⟩)
    exact ⟨p, r + a.size, isInitial_concat.trans hp, (path_concat_of_path hfront).append
      (.cons hentry (path_concat_second.mpr ⟨r, rfl, hback⟩)),
      (isAccepting_of_inner getElem?_concat_second).trans hr⟩

end concat

end Machine

end Transduction
