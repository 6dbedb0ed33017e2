/-
Explorations as worklists.

An exploration goes layer by layer and is told how many rounds it has.  Without rounds it is
a queue: the item in front is visited, those of its targets that are new join at the end, and
the search is over when the queue is empty.  Nothing says that this ever happens, so emptying
a queue is a relation, and what a derivation of it gives is that the search ends:

* `Drains` — a queue is emptied, with the items visited on the way;
* `drains_layer` — a layer is visited before what lies behind it;
* `drains_explore` — if no more keys can be met than there are rounds, the queue of the roots
  is emptied, and the exploration finds the items that the queue visits, in the same order;
* `drains_reachable` — the same for a set of reachable states.
-/
import Transduction.Exploration.Complete

namespace Transduction

variable {κ σ ι : Type} [Ord ι]

/-- The queue is emptied from the keys seen so far, and the items found are those visited,
each with what its visit found. -/
inductive Drains (key : κ → ι) (visit : κ → σ) (targets : σ → List κ) :
    Std.TreeSet ι → List κ → List (κ × σ) → Prop where
  | empty (seen : Std.TreeSet ι) : Drains key visit targets seen [] []
  | visit {seen : Std.TreeSet ι} {k : κ} {queue : List κ} {found : List (κ × σ)} :
      Drains key visit targets (unseen key seen (targets (visit k))).1
        (queue ++ (unseen key seen (targets (visit k))).2) found →
      Drains key visit targets seen (k :: queue) ((k, visit k) :: found)

/-- The queue of the roots is emptied. -/
def DrainsFrom (key : κ → ι) (visit : κ → σ) (targets : σ → List κ) (roots : List κ)
    (found : List (κ × σ)) : Prop :=
  Drains key visit targets (unseen key ∅ roots).1 (unseen key ∅ roots).2 found

variable {key : κ → ι} {visit : κ → σ} {targets : σ → List κ} {rounds : Nat}
  {seen : Std.TreeSet ι} {layer next roots : List κ} {found : List (κ × σ)} {P : κ → Prop}

theorem unseen_append (xs ys : List κ) : unseen key seen (xs ++ ys) =
    ((unseen key (unseen key seen xs).1 ys).1,
      (unseen key seen xs).2 ++ (unseen key (unseen key seen xs).1 ys).2) := by
  induction xs generalizing seen with
  | nil => rfl
  | cons x xs ih =>
    rw [List.cons_append, unseen, unseen]
    split
    · exact ih
    · rw [ih]
      rfl

/-- A layer is visited first, and meanwhile what lies behind it joins the queue. -/
theorem drains_layer (h : Drains key visit targets
      (unseen key seen (layerTargets visit targets layer)).1
      (next ++ (unseen key seen (layerTargets visit targets layer)).2) found) :
    Drains key visit targets seen (layer ++ next)
      (layer.map (fun k => (k, visit k)) ++ found) := by
  induction layer generalizing seen next with
  | nil => simpa [layerTargets, unseen] using h
  | cons k ks ih =>
    refine .visit ?_
    rw [List.append_eq, List.append_assoc]
    refine ih ?_
    rw [layerTargets, List.map_cons, List.flatMap_cons, unseen_append] at h
    rwa [List.append_assoc]

/-- With more rounds than keys not seen yet, the layers are what the queue visits. -/
theorem drains_exploreLayers [Std.TransOrd ι] [Std.LawfulEqOrd ι] {keys : List ι}
    (hl : ∀ k ∈ layer, P k) (hP : ∀ k, P k → ∀ t ∈ targets (visit k), P t)
    (hkeys : ∀ k, P k → key k ∈ keys)
    (hr : layer ≠ [] → keys.countP (fun i => !seen.contains i) < rounds) :
    Drains key visit targets seen layer
      (exploreLayers key visit targets rounds seen layer) := by
  induction rounds generalizing seen layer with
  | zero =>
    obtain rfl : layer = [] :=
      Classical.byContradiction fun hne => absurd (hr hne) (Nat.not_lt_zero _)
    exact .empty seen
  | succ rounds ih =>
    cases layer with
    | nil => exact .empty seen
    | cons k ks =>
      have holds := forall_mem_layerTargets hl hP
      have behind := ih (fun t ht => holds t (mem_unseen ht).1)
        (countP_unseen_lt_rounds (fun t ht => hkeys t (holds t ht)) (hr (List.cons_ne_nil k ks)))
      have first : Drains key visit targets seen ((k :: ks) ++ []) _ := drains_layer behind
      rwa [List.append_nil] at first

/-- If no more than `rounds` keys can be met, the queue of the roots is emptied, and the
exploration finds what it visits. -/
theorem drains_explore [Std.TransOrd ι] [Std.LawfulEqOrd ι] {keys : List ι}
    (hroots : ∀ k ∈ roots, P k) (hP : ∀ k, P k → ∀ t ∈ targets (visit k), P t)
    (hkeys : ∀ k, P k → key k ∈ keys) (hr : keys.length ≤ rounds) :
    DrainsFrom key visit targets roots (explore key visit targets rounds roots) :=
  drains_exploreLayers (fun k hk => hroots k (mem_unseen hk).1) hP hkeys
    (countP_unseen_roots_lt (fun k hk => hkeys k (hroots k hk)) hr)

/-- The reachable states are those that a queue visits, if all states met are below `size`. -/
theorem drains_reachable {size : Nat} {next : Nat → List Nat} {roots : List Nat}
    (hroots : ∀ r ∈ roots, r < size) (hnext : ∀ p, p < size → ∀ t ∈ next p, t < size) :
    ∃ found, DrainsFrom id next id roots found ∧
      reachable size next roots = StateSet.ofList (found.map (·.1)) :=
  ⟨_, drains_explore hroots hnext (fun _ => List.mem_range.mpr)
    (Nat.le_of_eq List.length_range), rfl⟩

end Transduction
