/-
Machines built by exploration, state by state.

The states of an explored machine are the items found, in the order of their
discovery.  What its runs say is therefore what the paths of the explored graph
say:

* `mem_explore_of_steps` — an item that fewer steps than rounds lead to is found;
* `mem_explore_iff_leads` — with as many rounds as keys the items found are those
  that steps lead to;
* `Machine.acceptsLabels_explored_iff` — the labels of the accepted runs are those
  of the paths between marked items.

A bound on the number of steps is all that is known where the items are no
subset of a finite universe, as with the outputs of silent paths.
-/
import Mathlib.Logic.Function.Basic
import Transduction.Exploration.Complete
import Transduction.Machine.Explored
import Transduction.Proofs.Path

namespace Transduction

variable {L κ σ ι : Type} [Ord ι]

/-- So many steps of `next` lead from one item to another. -/
inductive Steps (next : κ → List κ) : Nat → κ → κ → Prop where
  | zero (k : κ) : Steps next 0 k k
  | succ {n : Nat} {k t r : κ} : t ∈ next k → Steps next n t r → Steps next (n + 1) k r

section steps

variable [Std.TransOrd ι] [Std.LawfulEqOrd ι] {key : κ → ι} {visit : κ → σ}
  {targets : σ → List κ} {rounds : Nat} {roots : List κ} {k r : κ} {n : Nat}

/-- What has been seen and is not in the layer has its targets seen as well, so a
path can leave the seen items only through the layer. -/
theorem mem_exploreLayers_of_steps (hkey : Function.Injective key) {seen : Std.TreeSet ι}
    {layer : List κ}
    (hclosed : ∀ k, seen.contains (key k) = true → k ∉ layer →
      ∀ t ∈ targets (visit k), seen.contains (key t) = true)
    (hk : seen.contains (key k) = true) (h : Steps (fun k => targets (visit k)) n k r)
    (hn : n < rounds) :
    seen.contains (key r) = true ∨
      (r, visit r) ∈ exploreLayers key visit targets rounds seen layer := by
  -- the rounds of the search; what is seen is closed but for the layer to be visited next
  fun_induction exploreLayers key visit targets rounds seen layer generalizing n k with
  | case1 => omega
  | case2 rounds seen =>
    -- the layer is empty, so every step stays among what is seen
    left
    clear hn
    induction h with
    | zero => exact hk
    | succ ht _ ih => exact ih (hclosed _ hk (by simp) _ ht)
  | case3 rounds seen layer _ found seen' next hu =>
    rename_i ih
    obtain ⟨rfl, rfl⟩ := Prod.mk.inj hu
    cases h with
    | zero => exact Or.inl hk
    | @succ n _ t _ ht hs =>
      -- the targets of the layer join what is seen, which leaves only the new ones open
      have target_seen {k t : κ} (hk : seen.contains (key k) = true) (ht : t ∈ targets (visit k)) :
          (unseen key seen (found.flatMap fun entry => targets entry.2)).1.contains (key t)
            = true := by
        by_cases hl : k ∈ layer
        · exact contains_unseen_of_mem
            (List.mem_flatMap.mpr ⟨(k, visit k), List.mem_map.mpr ⟨k, hl, rfl⟩, ht⟩)
        · exact contains_unseen.mpr (Or.inl (hclosed k hk hl t ht))
      have closed' : ∀ k, (unseen key seen (found.flatMap fun entry => targets entry.2)).1.contains
          (key k) = true → k ∉ (unseen key seen (found.flatMap fun entry => targets entry.2)).2 →
          ∀ t ∈ targets (visit k),
            (unseen key seen (found.flatMap fun entry => targets entry.2)).1.contains (key t)
              = true := by
        intro k hk hnew t ht
        rcases contains_unseen.mp hk with hk | ⟨j, hj, he⟩
        · exact target_seen hk ht
        · exact absurd (hkey he ▸ hj) hnew
      rcases ih closed' (target_seen hk ht) hs (by omega) with hr | hr
      · rcases contains_unseen.mp hr with hr | ⟨j, hj, he⟩
        · exact Or.inl hr
        · obtain rfl := hkey he
          exact Or.inr (List.mem_append_right _
            (exists_mem_exploreLayers_of_layer hj (by omega)))
      · exact Or.inr (List.mem_append_right _ hr)

/-- An item that fewer steps than there are rounds lead to from a root is found. -/
theorem mem_explore_of_steps (hkey : Function.Injective key) (hk : k ∈ roots)
    (h : Steps (fun k => targets (visit k)) n k r) (hn : n < rounds) :
    (r, visit r) ∈ explore key visit targets rounds roots := by
  have seen_iff {j : κ} : (unseen key ∅ roots).1.contains (key j) = true ↔
      j ∈ (unseen key ∅ roots).2 := by
    rw [contains_unseen]
    constructor
    · rintro (h | ⟨i, hi, he⟩)
      · simp at h
      · exact hkey he ▸ hi
    · exact fun h => Or.inr ⟨j, h, rfl⟩
  have hroot : (unseen key ∅ roots).1.contains (key k) = true := contains_unseen_of_mem hk
  rcases mem_exploreLayers_of_steps hkey
    (fun j hj hl => absurd (seen_iff.mp hj) hl) hroot h hn with hr | hr
  · exact exists_mem_exploreLayers_of_layer (seen_iff.mp hr) (by omega)
  · exact hr

end steps

/-! ### The items found -/

section found

variable [Std.TransOrd ι] [Std.LawfulEqOrd ι] {key : κ → ι} {visit : κ → σ}
  {targets : σ → List κ} {bound : Nat} {roots : List κ} {P : κ → Prop} {keys : List ι}

/-- With as many rounds as there are keys, the items found are those that steps
lead to from the roots. -/
theorem mem_explore_iff_leads (hkey : Function.Injective key) (hroots : ∀ k ∈ roots, P k)
    (hP : ∀ k, P k → ∀ t ∈ targets (visit k), P t) (hkeys : ∀ k, P k → key k ∈ keys)
    (hbound : keys.length ≤ bound) {k : κ} :
    k ∈ (explore key visit targets bound roots).map (·.1) ↔
      Leads (fun k => targets (visit k)) roots k := by
  rw [List.mem_map]
  constructor
  · rintro ⟨entry, h, rfl⟩
    exact forall_mem_explore h (fun _ => .root) fun _ hk _ => .step hk
  -- The bound leaves room for every key, so no root and no target is dropped.
  · intro h
    induction h with
    | @root k hk =>
      have : 0 < keys.length := List.length_pos_of_mem (hkeys k (hroots k hk))
      obtain ⟨entry, he, heq⟩ : ∃ entry ∈ explore key visit targets bound roots,
          key entry.1 = key k := exists_mem_explore_of_root hk (by omega)
      exact ⟨entry, he, hkey heq⟩
    | @step k t _ ht ih =>
      obtain ⟨entry, he, rfl⟩ := ih
      rw [← snd_of_mem_explore he] at ht
      obtain ⟨entry', he', heq⟩ := exists_mem_explore_of_target he hroots hP hkeys hbound ht
      exact ⟨entry', he', hkey heq⟩

end found

namespace Machine

variable [Std.TransOrd ι] [Std.LawfulEqOrd ι] {key : κ → ι} {next : κ → List (L × κ)}
  {bound : Nat} {roots : List κ} {initial accepting : κ → Bool}

/-- The items of an explored machine in the order of their numbers. -/
def exploredItems (key : κ → ι) (next : κ → List (L × κ)) (bound : Nat) (roots : List κ) : List κ :=
  (explore key next (fun successors => successors.map (·.2)) bound roots).map (·.1)

theorem getElem?_numbering_exploredItems (hkey : Function.Injective key) {k : κ} {i : Nat} :
    (numbering ((explore key next (fun successors => successors.map (·.2)) bound roots).map
      fun entry => key entry.1))[key k]? = some i ↔
      (exploredItems key next bound roots)[i]? = some k := by
  rw [getElem?_numbering nodup_explore, exploredItems]
  simp only [List.getElem?_map, Option.map_eq_some_iff]
  constructor
  · rintro ⟨entry, h, he⟩
    exact ⟨entry, h, hkey he⟩
  · rintro ⟨entry, h, he⟩
    exact ⟨entry, h, congrArg key he⟩

variable {P : κ → Prop} {keys : List ι}

theorem mem_exploredItems_iff (hkey : Function.Injective key) (hroots : ∀ k ∈ roots, P k)
    (hP : ∀ k, P k → ∀ l t, (l, t) ∈ next k → P t) (hkeys : ∀ k, P k → key k ∈ keys)
    (hbound : keys.length ≤ bound) {k : κ} :
    k ∈ exploredItems key next bound roots ↔ Leads (fun k => (next k).map (·.2)) roots k := by
  refine mem_explore_iff_leads hkey hroots (fun k hk t ht => ?_) hkeys hbound
  obtain ⟨⟨l, _⟩, hl, rfl⟩ := List.mem_map.mp ht
  exact hP k hk l _ hl

variable [Ord L] [Std.TransOrd L] [Std.LawfulEqOrd L]

theorem renumbers_explored (hkey : Function.Injective key) :
    Renumbers (explored key next bound roots initial accepting)
      (exploredItems key next bound roots) next initial accepting where
  mem_moves i l j := by
    rw [moves, explored, ofExploration]
    simp only [List.getElem?_toArray, List.getElem?_map]
    cases h : (explore key next (fun successors => successors.map (·.2)) bound roots)[i]? with
    | none => simp [exploredItems, h]
    | some entry =>
      have hvisit := snd_of_mem_explore (List.mem_of_getElem? h)
      -- The moves of an item are those visited, with numbers in place of items.
      simp only [Option.map_some, Option.elim_some, mem_ascending, List.mem_filterMap,
        Option.map_eq_some_iff, Prod.mk.injEq]
      constructor
      · rintro ⟨⟨l', t⟩, hmem, n, hn, rfl, rfl⟩
        exact ⟨entry.1, t, by simp [exploredItems, h], hvisit ▸ hmem,
          (getElem?_numbering_exploredItems hkey).mp hn⟩
      · rintro ⟨k, t, hk, hmem, hj⟩
        obtain rfl : entry.1 = k := by simpa [exploredItems, h] using hk
        exact ⟨(l, t), hvisit ▸ hmem, j, (getElem?_numbering_exploredItems hkey).mpr hj, rfl, rfl⟩
  isInitial_iff i := by
    simp only [isInitial, explored, ofExploration, exploredItems, List.getElem?_toArray,
      List.getElem?_map]
    cases (explore key next (fun successors => successors.map (·.2)) bound roots)[i]? <;> simp
  isAccepting_iff i := by
    simp only [isAccepting, explored, ofExploration, exploredItems, List.getElem?_toArray,
      List.getElem?_map]
    cases (explore key next (fun successors => successors.map (·.2)) bound roots)[i]? <;> simp
  size_eq := by simp [size, explored, ofExploration, exploredItems]

theorem closed_explored (hkey : Function.Injective key) :
    (explored key next bound roots initial accepting).Closed :=
  (renumbers_explored hkey).closed

/-- An explored machine with an initial root is well formed. -/
theorem wellFormed_explored (hkey : Function.Injective key) (hbound : 0 < bound) {k : κ}
    (hk : k ∈ roots) (hinitial : initial k = true) :
    (explored key next bound roots initial accepting).WellFormed := by
  obtain ⟨entry, hentry, he⟩ : ∃ entry ∈ explore key next (fun successors => successors.map (·.2))
      bound roots, key entry.1 = key k := exists_mem_explore_of_root hk hbound
  have hfound : entry.1 ∈ exploredItems key next bound roots :=
    List.mem_map.mpr ⟨entry, hentry, rfl⟩
  obtain ⟨i, hi⟩ := List.getElem?_of_mem hfound
  refine ⟨closed_explored hkey, i, ((renumbers_explored hkey).isInitial_iff i).mpr ?_⟩
  exact ⟨entry.1, hi, hkey he ▸ hinitial⟩

/-- The labels of the accepted runs of an explored machine are those of the paths
from an initial to an accepting item. -/
theorem acceptsLabels_explored_iff (hkey : Function.Injective key) (hroots : ∀ k ∈ roots, P k)
    (hP : ∀ k, P k → ∀ l t, (l, t) ∈ next k → P t) (hkeys : ∀ k, P k → key k ∈ keys)
    (hbound : keys.length ≤ bound) (hinit : ∀ k, initial k = true → k ∈ roots) {ls : List L} :
    (explored key next bound roots initial accepting).AcceptsLabels ls ↔
      ∃ k r, initial k = true ∧ Path next k ls r ∧ accepting r = true := by
  have mem_iff {k : κ} := mem_exploredItems_iff (k := k) hkey hroots hP hkeys hbound
  refine (renumbers_explored hkey).acceptsLabels_iff (fun k _ _ hk _ _ => ?_)
    fun k hk l t hl _ _ _ _ => ?_
  · exact mem_iff.mpr (.root (hinit k hk))
  · exact mem_iff.mpr (.step (mem_iff.mp hk) (List.mem_map.mpr ⟨(l, t), hl, rfl⟩))

end Machine

end Transduction
