/-
Breadth-first exploration of a finite graph.

Every construction that discovers its states on the way — subsets, pairs,
triples, guards, choices — is one exploration: it starts at given roots, looks
at the successors of each item in order, and numbers the items as they are
met.  Two items with the same key are one state, and the first one met stands
for both.

* `unseen key seen items` — the items whose key is new, in order, with the keys
  seen afterwards;
* `explore key visit targets rounds roots` — the items within `rounds - 1`
  steps of the roots, layer by layer, each with what was found when it was
  visited;
* `numbering` — the position of each key in a list of keys, and
  `getElem?_numbering`, which says so;
* `reachable` — the states a successor function leads to.

An exploration of a graph with `n` keys is complete after `n` rounds, since a
shortest path visits no key twice.  A caller passes such a number, and a round
with nothing new ends the search.
-/
import Transduction.StateSet
import Std.Data.TreeMap.Lemmas

namespace Transduction

variable {κ σ ι : Type} [Ord ι]

/-- The items whose key has not been seen, in order and each key once, together
with the keys seen after them. -/
def unseen (key : κ → ι) (seen : Std.TreeSet ι) : List κ → Std.TreeSet ι × List κ
  | [] => (seen, [])
  | k :: ks =>
    if seen.contains (key k) then unseen key seen ks
    else
      let (seen', fresh) := unseen key (seen.insert (key k)) ks
      (seen', k :: fresh)

/-- Visits the items of a layer and then the layers behind it, at most `rounds`
layers in all. -/
def exploreLayers (key : κ → ι) (visit : κ → σ) (targets : σ → List κ) :
    Nat → Std.TreeSet ι → List κ → List (κ × σ)
  | 0, _, _ => []
  | _ + 1, _, [] => []
  | rounds + 1, seen, layer =>
    let found := layer.map fun k => (k, visit k)
    let (seen', next) := unseen key seen (found.flatMap fun entry => targets entry.2)
    found ++ exploreLayers key visit targets rounds seen' next

/-- The items fewer than `rounds` steps away from the roots, in the order in
which a breadth-first search meets them, each with what its visit found. -/
def explore (key : κ → ι) (visit : κ → σ) (targets : σ → List κ) (rounds : Nat)
    (roots : List κ) : List (κ × σ) :=
  let (seen, layer) := unseen key ∅ roots
  exploreLayers key visit targets rounds seen layer

/-- The number of each key in a list without repetition: its position. -/
def numbering (keys : List ι) : Std.TreeMap ι Nat := Std.TreeMap.ofList keys.zipIdx

/-- The states reachable from the roots, where `next` gives the successors of a
state and there are at most `size` of them. -/
def reachable (size : Nat) (next : Nat → List Nat) (roots : List Nat) : StateSet :=
  StateSet.ofList ((explore id next id size roots).map (·.1))

/-! ### The items that are new -/

section unseen

variable {key : κ → ι} {seen : Std.TreeSet ι} {ks : List κ} {k : κ}

theorem mem_unseen [Std.TransOrd ι] (h : k ∈ (unseen key seen ks).2) :
    k ∈ ks ∧ seen.contains (key k) = false := by
  induction ks generalizing seen with
  | nil => simp [unseen] at h
  | cons j ks ih =>
    unfold unseen at h
    split at h
    · grind
    · rcases List.mem_cons.mp h with rfl | h
      · grind
      · have := ih h
        rw [Std.TreeSet.contains_insert] at this
        grind

theorem nodup_unseen [Std.TransOrd ι] : ((unseen key seen ks).2.map key).Nodup := by
  induction ks generalizing seen with
  | nil => simp [unseen]
  | cons k ks ih =>
    unfold unseen
    split
    · exact ih
    · simp only [List.map_cons, List.nodup_cons, ih, and_true, List.mem_map, not_exists, not_and]
      intro j hj he
      have := (mem_unseen hj).2
      simp [Std.TreeSet.contains_insert, he] at this

theorem contains_unseen [Std.TransOrd ι] [Std.LawfulEqOrd ι] {i : ι} :
    (unseen key seen ks).1.contains i = true ↔
      seen.contains i = true ∨ ∃ k ∈ (unseen key seen ks).2, key k = i := by
  induction ks generalizing seen with
  | nil => simp [unseen]
  | cons k ks ih =>
    unfold unseen
    split
    · rw [ih]
    · simp only [ih, Std.TreeSet.contains_insert, List.mem_cons, exists_eq_or_imp]
      grind [Std.LawfulEqOrd.compare_eq_iff_eq]

theorem contains_unseen_of_mem [Std.TransOrd ι] [Std.LawfulEqOrd ι] (hk : k ∈ ks) :
    (unseen key seen ks).1.contains (key k) = true := by
  induction ks generalizing seen with
  | nil => simp at hk
  | cons j ks ih =>
    unfold unseen
    rcases List.mem_cons.mp hk with rfl | hk
    · split
      · exact contains_unseen.mpr (Or.inl ‹_›)
      · exact contains_unseen.mpr (Or.inl (by simp))
    · split <;> exact ih hk

end unseen

/-! ### The position of a key -/

/-- A key has the number of its position, and no other key has a number. -/
theorem getElem?_numbering [Std.TransOrd ι] [Std.LawfulEqOrd ι] {keys : List ι} (hk : keys.Nodup)
    {k : ι} {i : Nat} : (numbering keys)[k]? = some i ↔ keys[i]? = some k := by
  have distinct : keys.zipIdx.Pairwise (fun a b => ¬compare a.1 b.1 = .eq) := by
    have : (keys.zipIdx.map Prod.fst).Nodup := (List.zipIdx_map_fst 0 keys).symm ▸ hk
    exact (List.pairwise_map.mp this).imp fun h he => h (Std.LawfulEqOrd.eq_of_compare he)
  have number {j : ι} {n : Nat} (h : keys[n]? = some j) : (numbering keys)[j]? = some n :=
    Std.TreeMap.getElem?_ofList_of_mem Std.ReflOrd.compare_self distinct
      (List.mk_mem_zipIdx_iff_getElem?.mpr h)
  refine ⟨fun h => ?_, number⟩
  -- a key with a number is in the list, so the number is its position
  let _ : DecidableEq ι := decEqOfCompare
  have : Std.LawfulBEqOrd ι := ⟨by simp⟩
  have hc : (numbering keys).contains k = true := by
    rw [Std.TreeMap.contains_eq_isSome_getElem?, h]; rfl
  rw [numbering, Std.TreeMap.contains_ofList, List.zipIdx_map_fst] at hc
  obtain ⟨n, hn⟩ := List.getElem?_of_mem (List.contains_iff_mem.mp hc)
  rw [number hn] at h
  cases h
  exact hn

end Transduction
