/-
What an exploration finds.

An exploration finds nothing but what steps from the roots lead to, each key
once, and with enough rounds it finds all of it:

* `nodup_explore` — no two entries have the same key;
* `forall_mem_explore` — what holds of the roots and is kept by every step holds
  of all items found;
* `exists_mem_explore_of_root`, `exists_mem_explore_of_target` — the keys of the
  roots are found, and so are those of the targets of whatever is found, if no
  more keys can be met than there are rounds;
* `explore_congr` — then any more rounds find nothing more;
* `mem_reachable` — a set of reachable states has exactly the members that
  `Leads` derives.

Every round with a new item takes a key from the keys not seen yet.  So a
search with at least as many rounds as keys ends with a layer that is empty,
and not for lack of rounds.
-/
import Transduction.Exploration

namespace Transduction

variable {κ σ ι : Type} [Ord ι]

/-- The items that steps of `next` lead to from the roots, the roots included. -/
inductive Leads (next : κ → List κ) (roots : List κ) : κ → Prop where
  | root {k : κ} : k ∈ roots → Leads next roots k
  | step {k t : κ} : Leads next roots k → t ∈ next k → Leads next roots t

/-! ### Layers -/

section layers

variable {key : κ → ι} {visit : κ → σ} {targets : σ → List κ} {rounds : Nat}
  {seen : Std.TreeSet ι} {layer : List κ} {P : κ → Prop}

/-- The items behind a layer, in the order in which they are met. -/
abbrev layerTargets (visit : κ → σ) (targets : σ → List κ) (layer : List κ) : List κ :=
  (layer.map fun k => (k, visit k)).flatMap fun entry => targets entry.2

theorem exploreLayers_cons {k : κ} {ks : List κ} :
    exploreLayers key visit targets (rounds + 1) seen (k :: ks) =
      (k :: ks).map (fun k => (k, visit k)) ++
        exploreLayers key visit targets rounds
          (unseen key seen (layerTargets visit targets (k :: ks))).1
          (unseen key seen (layerTargets visit targets (k :: ks))).2 := rfl

theorem snd_of_mem_exploreLayers {entry : κ × σ}
    (h : entry ∈ exploreLayers key visit targets rounds seen layer) : entry.2 = visit entry.1 := by
  fun_induction exploreLayers key visit targets rounds seen layer with
  | case1 => simp at h
  | case2 => simp at h
  | case3 _ _ _ _ _ _ _ _ ih =>
    rcases List.mem_append.mp h with h | h
    · obtain ⟨k, _, rfl⟩ := List.mem_map.mp h
      rfl
    · exact ih h

theorem fst_mem_or_of_mem_exploreLayers [Std.TransOrd ι] [Std.LawfulEqOrd ι] {entry : κ × σ}
    (h : entry ∈ exploreLayers key visit targets rounds seen layer) :
    entry.1 ∈ layer ∨ seen.contains (key entry.1) = false := by
  fun_induction exploreLayers key visit targets rounds seen layer with
  | case1 => simp at h
  | case2 => simp at h
  | case3 rounds seen layer _ found seen' next hu ih =>
    obtain ⟨rfl, rfl⟩ := Prod.mk.inj hu
    rcases List.mem_append.mp h with h | h
    · obtain ⟨k, hk, rfl⟩ := List.mem_map.mp h
      exact Or.inl hk
    · right
      rcases ih h with h | h
      · exact (mem_unseen h).2
      · refine Bool.eq_false_iff.mpr fun hc => ?_
        rw [contains_unseen.mpr (Or.inl hc)] at h
        cases h

theorem nodup_exploreLayers [Std.TransOrd ι] [Std.LawfulEqOrd ι] (hl : (layer.map key).Nodup)
    (hs : ∀ k ∈ layer, seen.contains (key k) = true) :
    ((exploreLayers key visit targets rounds seen layer).map fun entry => key entry.1).Nodup := by
  fun_induction exploreLayers key visit targets rounds seen layer with
  | case1 => simp
  | case2 => simp
  | case3 rounds seen layer _ found seen' next hu ih =>
    obtain ⟨rfl, rfl⟩ := Prod.mk.inj hu
    rw [List.map_append, List.nodup_append]
    refine ⟨?_, ih nodup_unseen fun k hk => contains_unseen.mpr (Or.inr ⟨k, hk, rfl⟩), ?_⟩
    · simpa [found, Function.comp_def] using hl
    · -- a key of this layer is seen already, a key behind it was not
      intro a ha b hb hab
      simp only [found, List.map_map, List.mem_map, Function.comp_apply] at ha hb
      obtain ⟨k, hk, rfl⟩ := ha
      obtain ⟨entry, he, rfl⟩ := hb
      have seen_key := hs k hk
      rcases fst_mem_or_of_mem_exploreLayers he with h | h
      · rw [hab, (mem_unseen h).2] at seen_key
        cases seen_key
      · rw [← hab, contains_unseen.mpr (Or.inl seen_key)] at h
        cases h

theorem forall_mem_exploreLayers [Std.TransOrd ι] (hl : ∀ k ∈ layer, P k)
    (hP : ∀ k, P k → ∀ t ∈ targets (visit k), P t) :
    ∀ entry ∈ exploreLayers key visit targets rounds seen layer, P entry.1 := by
  fun_induction exploreLayers key visit targets rounds seen layer with
  | case1 => simp
  | case2 => simp
  | case3 rounds seen layer _ found seen' next hu ih =>
    obtain ⟨rfl, rfl⟩ := Prod.mk.inj hu
    intro entry h
    rcases List.mem_append.mp h with h | h
    · obtain ⟨k, hk, rfl⟩ := List.mem_map.mp h
      exact hl k hk
    · refine ih (fun k hk => ?_) entry h
      obtain ⟨e, he, ht⟩ := List.mem_flatMap.mp (mem_unseen hk).1
      obtain ⟨j, hj, rfl⟩ := List.mem_map.mp he
      exact hP j (hl j hj) k ht

theorem countP_lt_countP {α : Type} {p q : α → Bool} {xs : List α} {x : α} (hx : x ∈ xs)
    (hpq : ∀ y, p y = true → q y = true) (hp : p x = false) (hq : q x = true) :
    xs.countP p < xs.countP q := by
  induction xs with
  | nil => simp at hx
  | cons y ys ih =>
    have hmono : ys.countP p ≤ ys.countP q := List.countP_mono_left fun z _ => hpq z
    rcases List.mem_cons.mp hx with rfl | hx
    · simp only [List.countP_cons, hp, hq, if_true]
      split
      · contradiction
      · omega
    · have := ih hx
      have := hpq y
      simp only [List.countP_cons]
      split <;> split <;> grind

/-- A new item takes its key from those not seen. -/
theorem countP_unseen_lt [Std.TransOrd ι] [Std.LawfulEqOrd ι] {ks : List κ} {keys : List ι}
    (hkeys : ∀ k ∈ ks, key k ∈ keys) (hnew : (unseen key seen ks).2 ≠ []) :
    keys.countP (fun i => !(unseen key seen ks).1.contains i) <
      keys.countP fun i => !seen.contains i := by
  obtain ⟨k, hk⟩ := List.exists_mem_of_ne_nil _ hnew
  refine countP_lt_countP (hkeys k (mem_unseen hk).1) (fun i hi => ?_) ?_ ?_
  · cases hc : seen.contains i
    · rfl
    · rw [contains_unseen.mpr (Or.inl hc)] at hi
      cases hi
  · rw [Bool.not_eq_false']
    exact contains_unseen.mpr (Or.inr ⟨k, hk, rfl⟩)
  · rw [(mem_unseen hk).2]
    rfl

theorem exists_mem_exploreLayers_of_layer {k : κ} (hk : k ∈ layer) (hr : 0 < rounds) :
    (k, visit k) ∈ exploreLayers key visit targets rounds seen layer := by
  obtain ⟨n, rfl⟩ := Nat.exists_eq_add_of_le' hr
  cases layer with
  | nil => simp at hk
  | cons a as => exact List.mem_append_left _ (List.mem_map.mpr ⟨k, hk, rfl⟩)

theorem forall_mem_layerTargets (hl : ∀ k ∈ layer, P k)
    (hP : ∀ k, P k → ∀ t ∈ targets (visit k), P t) :
    ∀ t ∈ layerTargets visit targets layer, P t := by
  intro t ht
  obtain ⟨entry, hentry, ht⟩ := List.mem_flatMap.mp ht
  obtain ⟨k, hk, rfl⟩ := List.mem_map.mp hentry
  exact hP k (hl k hk) t ht

/-- If the rounds are more than the keys not seen, so are the remaining ones behind a layer. -/
theorem countP_unseen_lt_rounds [Std.TransOrd ι] [Std.LawfulEqOrd ι] {ks : List κ} {keys : List ι}
    (hkeys : ∀ k ∈ ks, key k ∈ keys) (hr : keys.countP (fun i => !seen.contains i) < rounds + 1)
    (hnew : (unseen key seen ks).2 ≠ []) :
    keys.countP (fun i => !(unseen key seen ks).1.contains i) < rounds := by
  have := countP_unseen_lt hkeys hnew
  omega

/-- With more rounds than keys not seen yet, no target of an item found is lost. -/
theorem exists_mem_exploreLayers_of_target [Std.TransOrd ι] [Std.LawfulEqOrd ι] {keys : List ι}
    (hl : ∀ k ∈ layer, P k) (hP : ∀ k, P k → ∀ t ∈ targets (visit k), P t)
    (hkeys : ∀ k, P k → key k ∈ keys)
    (hr : layer ≠ [] → keys.countP (fun i => !seen.contains i) < rounds) :
    ∀ entry ∈ exploreLayers key visit targets rounds seen layer, ∀ t ∈ targets entry.2,
      seen.contains (key t) = true ∨
        ∃ entry' ∈ exploreLayers key visit targets rounds seen layer, key entry'.1 = key t := by
  -- The induction is on the rounds.  A target of this layer is seen or found in the next one,
  -- which has a round left because the keys not seen have become fewer.
  fun_induction exploreLayers key visit targets rounds seen layer with
  | case1 => simp
  | case2 => simp
  | case3 rounds seen layer hne found seen' next hu ih =>
    have holds : ∀ t ∈ found.flatMap fun entry => targets entry.2, P t :=
      forall_mem_layerTargets hl hP
    have new_key {i : ι} :
        seen'.contains i = true ↔ seen.contains i = true ∨ ∃ k ∈ next, key k = i := by
      obtain ⟨rfl, rfl⟩ := Prod.mk.inj hu
      exact contains_unseen
    have new_item {k : κ} (hk : k ∈ next) : P k := by
      obtain ⟨rfl, rfl⟩ := Prod.mk.inj hu
      exact holds k (mem_unseen hk).1
    have fewer (hnext : next ≠ []) : keys.countP (fun i => !seen'.contains i) < rounds := by
      obtain ⟨rfl, rfl⟩ := Prod.mk.inj hu
      exact countP_unseen_lt_rounds (fun k hk => hkeys k (holds k hk)) (hr (by simpa using hne))
        hnext
    -- What counts as seen behind this layer was seen before it, or is found in it.
    have covered (t : κ) (ht : seen'.contains (key t) = true) : seen.contains (key t) = true ∨
        ∃ entry' ∈ found ++ exploreLayers key visit targets rounds seen' next,
          key entry'.1 = key t := by
      rcases new_key.mp ht with h | ⟨j, hj, he⟩
      · exact Or.inl h
      · have := fewer (List.ne_nil_of_mem hj)
        exact Or.inr ⟨(j, visit j),
          List.mem_append_right _ (exists_mem_exploreLayers_of_layer hj (by omega)), he⟩
    intro entry h t ht
    -- An entry stands in this layer or in a later one.
    rcases List.mem_append.mp h with here | later
    · refine covered t ?_
      obtain ⟨rfl, rfl⟩ := Prod.mk.inj hu
      exact contains_unseen_of_mem (List.mem_flatMap.mpr ⟨entry, here, ht⟩)
    · rcases ih (fun k hk => new_item hk) fewer entry later t ht with hc | ⟨e, he, hk⟩
      · exact covered t hc
      · exact Or.inr ⟨e, List.mem_append_right _ he, hk⟩

/-- More rounds than keys not seen yet find nothing more. -/
theorem exploreLayers_congr [Std.TransOrd ι] [Std.LawfulEqOrd ι] {keys : List ι} {rounds' : Nat}
    (hl : ∀ k ∈ layer, P k) (hP : ∀ k, P k → ∀ t ∈ targets (visit k), P t)
    (hkeys : ∀ k, P k → key k ∈ keys)
    (hr : layer ≠ [] → keys.countP (fun i => !seen.contains i) < rounds)
    (hr' : layer ≠ [] → keys.countP (fun i => !seen.contains i) < rounds') :
    exploreLayers key visit targets rounds seen layer =
      exploreLayers key visit targets rounds' seen layer := by
  -- The induction is on the rounds of one side.  Both have one left for the next layer.
  induction rounds generalizing rounds' seen layer with
  | zero =>
    obtain rfl : layer = [] :=
      Classical.byContradiction fun hne => absurd (hr hne) (Nat.not_lt_zero _)
    cases rounds' <;> rfl
  | succ rounds ih =>
    cases layer with
    | nil => cases rounds' <;> rfl
    | cons k ks =>
      have hne : k :: ks ≠ [] := List.cons_ne_nil _ _
      obtain ⟨n, rfl⟩ := Nat.exists_eq_add_of_le' (Nat.zero_lt_of_lt (hr' hne))
      have holds := forall_mem_layerTargets hl hP
      have new_keys := fun t ht => hkeys t (holds t ht)
      rw [exploreLayers_cons, exploreLayers_cons]
      exact congrArg _ (ih (fun t ht => holds t (mem_unseen ht).1)
        (countP_unseen_lt_rounds new_keys (hr hne)) (countP_unseen_lt_rounds new_keys (hr' hne)))

end layers

/-! ### Whole explorations -/

section explore

variable {key : κ → ι} {visit : κ → σ} {targets : σ → List κ} {rounds : Nat} {roots : List κ}
  {P : κ → Prop} {entry : κ × σ}

theorem snd_of_mem_explore (h : entry ∈ explore key visit targets rounds roots) :
    entry.2 = visit entry.1 :=
  snd_of_mem_exploreLayers h

theorem nodup_explore [Std.TransOrd ι] [Std.LawfulEqOrd ι] :
    ((explore key visit targets rounds roots).map fun entry => key entry.1).Nodup :=
  nodup_exploreLayers nodup_unseen fun k hk => contains_unseen.mpr (Or.inr ⟨k, hk, rfl⟩)

theorem forall_mem_explore [Std.TransOrd ι] (h : entry ∈ explore key visit targets rounds roots)
    (hroots : ∀ k ∈ roots, P k) (hP : ∀ k, P k → ∀ t ∈ targets (visit k), P t) : P entry.1 :=
  forall_mem_exploreLayers (fun k hk => hroots k (mem_unseen hk).1) hP entry h

theorem exists_mem_explore_of_root [Std.TransOrd ι] [Std.LawfulEqOrd ι] {k : κ} (hk : k ∈ roots)
    (hr : 0 < rounds) : ∃ entry ∈ explore key visit targets rounds roots, key entry.1 = key k := by
  have : (unseen key ∅ roots).1.contains (key k) = true := contains_unseen_of_mem hk
  obtain ⟨j, hj, he⟩ := (contains_unseen.mp this).resolve_left (by simp)
  exact ⟨(j, visit j), exists_mem_exploreLayers_of_layer hj hr, he⟩

/-- The rounds are more than the keys that roots leave to be seen, if they are as many as all
keys. -/
theorem countP_unseen_roots_lt [Std.TransOrd ι] [Std.LawfulEqOrd ι] {keys : List ι}
    (hkeys : ∀ k ∈ roots, key k ∈ keys) (hr : keys.length ≤ rounds)
    (hne : (unseen key ∅ roots).2 ≠ []) :
    keys.countP (fun i => !(unseen key ∅ roots).1.contains i) < rounds := by
  have := countP_unseen_lt hkeys hne
  have := List.countP_le_length (p := fun i => !(∅ : Std.TreeSet ι).contains i) (l := keys)
  omega

/-- If no more than `rounds` keys can be met, the exploration is closed: the
targets of what is found are found. -/
theorem exists_mem_explore_of_target [Std.TransOrd ι] [Std.LawfulEqOrd ι] {keys : List ι}
    (h : entry ∈ explore key visit targets rounds roots) (hroots : ∀ k ∈ roots, P k)
    (hP : ∀ k, P k → ∀ t ∈ targets (visit k), P t) (hkeys : ∀ k, P k → key k ∈ keys)
    (hr : keys.length ≤ rounds) {t : κ} (ht : t ∈ targets entry.2) :
    ∃ entry' ∈ explore key visit targets rounds roots, key entry'.1 = key t := by
  have layer_holds : ∀ k ∈ (unseen key ∅ roots).2, P k := fun k hk => hroots k (mem_unseen hk).1
  have fewer := countP_unseen_roots_lt (fun k hk => hkeys k (hroots k hk)) hr
  rcases exists_mem_exploreLayers_of_target layer_holds hP hkeys fewer entry h t ht with h | h
  · obtain ⟨j, hj, hk⟩ := (contains_unseen.mp h).resolve_left (by simp)
    have hroot := (mem_unseen hj).1
    have : 0 < keys.length := List.length_pos_of_mem (hkeys j (hroots j hroot))
    rw [← hk]
    exact exists_mem_explore_of_root hroot (by omega)
  · exact h

/-- Any two numbers of rounds find the same if there are no more keys. -/
theorem explore_congr [Std.TransOrd ι] [Std.LawfulEqOrd ι] {keys : List ι} {rounds' : Nat}
    (hroots : ∀ k ∈ roots, P k) (hP : ∀ k, P k → ∀ t ∈ targets (visit k), P t)
    (hkeys : ∀ k, P k → key k ∈ keys) (hr : keys.length ≤ rounds) (hr' : keys.length ≤ rounds') :
    explore key visit targets rounds roots = explore key visit targets rounds' roots :=
  exploreLayers_congr (fun k hk => hroots k (mem_unseen hk).1) hP hkeys
    (countP_unseen_roots_lt (fun k hk => hkeys k (hroots k hk)) hr)
    (countP_unseen_roots_lt (fun k hk => hkeys k (hroots k hk)) hr')

end explore

/-- The reachable states are those that steps lead to, if all states met are
below `size`. -/
theorem mem_reachable {size : Nat} {next : Nat → List Nat} {roots : List Nat} {q : Nat}
    (hroots : ∀ r ∈ roots, r < size) (hnext : ∀ p, p < size → ∀ t ∈ next p, t < size) :
    q ∈ reachable size next roots ↔ Leads next roots q := by
  simp only [reachable, StateSet.mem_ofList, List.mem_map]
  constructor
  · rintro ⟨entry, h, rfl⟩
    exact forall_mem_explore h (fun _ => .root) fun _ hk _ => .step hk
  · intro h
    induction h with
    | @root k hk => exact exists_mem_explore_of_root hk (Nat.zero_lt_of_lt (hroots k hk))
    | step _ ht ih =>
      obtain ⟨entry, he, rfl⟩ := ih
      refine exists_mem_explore_of_target he hroots hnext (fun _ => List.mem_range.mpr)
        (Nat.le_of_eq List.length_range) ?_
      rw [snd_of_mem_explore he]
      exact ht

end Transduction
