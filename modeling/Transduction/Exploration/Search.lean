/-
Searches, one visit at a time.

A search stands somewhere between its visits: some keys are seen, some items wait in the
queue, and some have been visited.  A visit takes the item in front, and those of its targets
that are new join at the end.  Where nothing waits the search is over.

* `Search.step` — one visit;
* `Search.Reached` — where a search comes to from its roots, one visit after the other;
* `Search.Reached.forall_mem_queue` — what holds of the roots and is kept by every step holds of
  whatever waits at any time;
* `DrainsFrom.exists_reached` — a queue that is emptied is a search that comes to its end;
* `drains_explore_of_found` — where an exploration finds all that can be met, it was not its
  rounds that ended it.

The last statement serves searches in which the items to be met are no subset of a finite
universe that is known in advance.
-/
import Transduction.Exploration.Queue

namespace Transduction

variable {κ σ ι : Type} [Ord ι]

/-- Where a search stands between two visits. -/
structure Search (κ ι : Type) [Ord ι] where
  seen : Std.TreeSet ι
  queue : List κ
  visited : List κ

namespace Search

/-- The search before its first visit. -/
def start (key : κ → ι) (roots : List κ) : Search κ ι :=
  let (seen, queue) := unseen key ∅ roots
  { seen := seen, queue := queue, visited := [] }

/-- Visits the item in front, if one waits; those of its targets that are new join at the end. -/
def step (key : κ → ι) (next : κ → List κ) (s : Search κ ι) : Option (Search κ ι) :=
  match s.queue with
  | [] => none
  | k :: queue =>
    let (seen, fresh) := unseen key s.seen (next k)
    some { seen := seen, queue := queue ++ fresh, visited := s.visited ++ [k] }

/-- Where the search for what lies behind the roots comes to. -/
inductive Reached (key : κ → ι) (next : κ → List κ) (roots : List κ) : Search κ ι → Prop where
  | start : Reached key next roots (start key roots)
  | step {s s' : Search κ ι} :
      Reached key next roots s → s.step key next = some s' → Reached key next roots s'

variable {key : κ → ι} {next : κ → List κ} {roots : List κ} {s s' : Search κ ι} {P : κ → Prop}

/-- A visit takes the item in front away and adds new targets of it. -/
theorem step_eq_some (h : s.step key next = some s') : ∃ k queue, s.queue = k :: queue ∧
    s'.queue = queue ++ (unseen key s.seen (next k)).2 ∧ s'.visited = s.visited ++ [k] := by
  unfold step at h
  split at h
  · cases h
  · rename_i k queue hqueue
    cases h
    exact ⟨k, queue, hqueue, rfl, rfl⟩

/-- A visit keeps what holds of all that waits, if steps keep it. -/
theorem forall_mem_queue_step [Std.TransOrd ι] (hP : ∀ k, P k → ∀ t ∈ next k, P t)
    (hs : ∀ k ∈ s.queue, P k) (h : s.step key next = some s') : ∀ k ∈ s'.queue, P k := by
  obtain ⟨k, queue, hqueue, hqueue', _⟩ := step_eq_some h
  rw [hqueue] at hs
  rw [hqueue']
  intro t ht
  rcases List.mem_append.mp ht with ht | ht
  · exact hs t (List.mem_cons_of_mem k ht)
  · exact hP k (hs k List.mem_cons_self) t (mem_unseen ht).1

/-- What holds of the roots and is kept by every step holds of whatever waits at any time. -/
theorem Reached.forall_mem_queue [Std.TransOrd ι] (hroots : ∀ k ∈ roots, P k)
    (hP : ∀ k, P k → ∀ t ∈ next k, P t) (h : Reached key next roots s) : ∀ k ∈ s.queue, P k := by
  induction h with
  | start => exact fun k hk => hroots k (mem_unseen hk).1
  | step _ hstep ih => exact forall_mem_queue_step hP ih hstep

end Search

variable {key : κ → ι} {visit : κ → σ} {targets : σ → List κ} {rounds rounds' : Nat}
  {seen : Std.TreeSet ι} {layer queue roots : List κ} {found : List (κ × σ)} {P : κ → Prop}

/-! ### Searches that end -/

/-- A queue that is emptied leads a search to its end. -/
theorem Drains.exists_reached (h : Drains key visit targets seen queue found) {visited : List κ}
    (hs : Search.Reached key (fun k => targets (visit k)) roots ⟨seen, queue, visited⟩) :
    ∃ s, Search.Reached key (fun k => targets (visit k)) roots s ∧ s.queue = [] ∧
      s.visited = visited ++ found.map (·.1) := by
  induction h generalizing visited with
  | empty seen => exact ⟨_, hs, rfl, (List.append_nil visited).symm⟩
  | @visit seen k queue found _ ih =>
    obtain ⟨s, hreached, hqueue, hvisited⟩ := ih (hs.step rfl)
    refine ⟨s, hreached, hqueue, hvisited.trans ?_⟩
    rw [List.append_assoc, List.map_cons, List.singleton_append]

/-- If the queue of the roots is emptied, the search comes to its end and has visited what was
found, in the same order. -/
theorem DrainsFrom.exists_reached (h : DrainsFrom key visit targets roots found) :
    ∃ s, Search.Reached key (fun k => targets (visit k)) roots s ∧ s.queue = [] ∧
      s.visited = found.map (·.1) :=
  Drains.exists_reached h .start

/-! ### Explorations that find all there is -/

/-- More rounds only add to what is found. -/
theorem isPrefix_exploreLayers (h : rounds ≤ rounds') :
    exploreLayers key visit targets rounds seen layer <+:
      exploreLayers key visit targets rounds' seen layer := by
  induction rounds generalizing rounds' seen layer with
  | zero => exact List.nil_prefix
  | succ rounds ih =>
    obtain ⟨n, rfl⟩ := Nat.exists_eq_add_of_le' (Nat.zero_lt_of_lt h)
    cases layer with
    | nil => exact List.prefix_rfl
    | cons k ks =>
      rw [exploreLayers_cons, exploreLayers_cons, List.prefix_append_right_inj]
      exact ih (Nat.le_of_succ_le_succ h)

theorem isPrefix_explore (h : rounds ≤ rounds') :
    explore key visit targets rounds roots <+: explore key visit targets rounds' roots :=
  isPrefix_exploreLayers h

/-- If the keys of all items that can be met are found, the queue of the roots is emptied, and
the exploration finds what it visits. -/
theorem drains_explore_of_found [Std.TransOrd ι] [Std.LawfulEqOrd ι] (hroots : ∀ k ∈ roots, P k)
    (hP : ∀ k, P k → ∀ t ∈ targets (visit k), P t)
    (hfound : ∀ k, P k → ∃ entry ∈ explore key visit targets rounds roots, key entry.1 = key k) :
    DrainsFrom key visit targets roots (explore key visit targets rounds roots) := by
  let keys := (explore key visit targets rounds roots).map fun entry => key entry.1
  have hkeys : ∀ k, P k → key k ∈ keys := fun k hk => List.mem_map.mpr (hfound k hk)
  have hdrains := drains_explore hroots hP hkeys (Nat.le_max_left keys.length rounds)
  -- as many rounds as there are keys find nothing that is not found already
  suffices heq : explore key visit targets rounds roots =
      explore key visit targets (max keys.length rounds) roots by rwa [heq]
  refine (isPrefix_explore (Nat.le_max_right keys.length rounds)).eq_of_length_le ?_
  have hsub : (explore key visit targets (max keys.length rounds) roots).map
      (fun entry => key entry.1) ⊆ keys := by
    intro i hi
    obtain ⟨entry, hentry, rfl⟩ := List.mem_map.mp hi
    exact hkeys entry.1 (forall_mem_explore hentry hroots hP)
  have hlength := nodup_explore.length_le_of_subset hsub
  rw [List.length_map] at hlength
  exact Nat.le_trans hlength (Nat.le_of_eq (List.length_map _))

end Transduction
