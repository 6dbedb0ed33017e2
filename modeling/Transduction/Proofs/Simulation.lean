/-
What the simulation of a machine computes.

The sets that the simulation keeps are described by paths: a silent closure holds
the ends of the silent paths, and advancing a set by a symbol takes the moves
that read it.

* `Machine.mem_silentClosure` — the closure of a state;
* `Machine.reflTransGen_silent_iff` — silent paths, as chains of silent moves;
* `Machine.mem_closeUnder_silentClosures` — the closure of a set;
* `Machine.mem_advance` — the set after a symbol, before it is closed again.
-/
import Mathlib.Logic.Relation
import Transduction.Machine.Simulation
import Transduction.Proofs.Explored

namespace Transduction.Machine

variable {L : Type} {m : Machine L} {silent : L → Bool} {p q : Nat} {s : StateSet}

/-- The closure of a state holds the ends of the silent paths that start there. -/
theorem mem_silentClosure (hm : m.Closed) (hp : p < m.size) :
    q ∈ m.silentClosure silent p ↔
      ∃ ls, Path m.moves p ls q ∧ ∀ l ∈ ls, silent l = true := by
  -- One step of the search is one silent move.
  have step {p t : Nat} :
      (t ∈ (m.moves p).filterMap fun move => if silent move.1 then some move.2 else none) ↔
        ∃ l, (l, t) ∈ m.moves p ∧ silent l = true := by
    simp only [List.mem_filterMap]
    constructor
    · rintro ⟨⟨l, t'⟩, hl, h⟩
      split at h
      · cases h
        exact ⟨l, hl, by assumption⟩
      · cases h
    · rintro ⟨l, hl, hs⟩
      exact ⟨(l, t), hl, by simp [hs]⟩
  have hnext : ∀ p, p < m.size → ∀ t ∈ (m.moves p).filterMap
      (fun move => if silent move.1 then some move.2 else none), t < m.size := fun p _ t ht => by
    obtain ⟨l, hl, _⟩ := step.mp ht
    exact hm p l t hl
  rw [silentClosure, mem_reachable (by simpa using hp) hnext]
  constructor
  -- Each step of the search makes the path one silent move longer.
  · intro h
    induction h with
    | @root k hk =>
      obtain rfl := List.mem_singleton.mp hk
      exact ⟨[], .nil k, by simp⟩
    | step _ ht ih =>
      obtain ⟨ls, hpath, hs⟩ := ih
      obtain ⟨l, hl, hsl⟩ := step.mp ht
      refine ⟨ls ++ [l], hpath.append (.single hl), fun l' hl' => ?_⟩
      rcases List.mem_append.mp hl' with h | h
      · exact hs l' h
      · obtain rfl := List.mem_singleton.mp h
        exact hsl
  -- Along a silent path the search can follow every move.
  · rintro ⟨ls, hpath, hs⟩
    exact hpath.keeps (.root (List.mem_singleton_self p)) fun k l hl t hk hmem =>
      .step hk (step.mpr ⟨l, hmem, hs l hl⟩)

/-- A chain of moves without a label is a path whose labels are all silent. -/
theorem reflTransGen_silent_iff {β : Type} {m : Machine (Option β)} :
    Relation.ReflTransGen (fun p t => (none, t) ∈ m.moves p) p q ↔
      ∃ ls, Path m.moves p ls q ∧ ∀ l ∈ ls, Option.isNone l = true := by
  constructor
  · intro h
    induction h with
    | refl => exact ⟨[], .nil p, fun l hl => absurd hl List.not_mem_nil⟩
    | tail _ hmove ih =>
      obtain ⟨ls, hpath, hls⟩ := ih
      refine ⟨ls ++ [none], hpath.append (.single hmove), fun l hl => ?_⟩
      rcases List.mem_append.mp hl with hl | hl
      · exact hls l hl
      · exact List.mem_singleton.mp hl ▸ rfl
  · rintro ⟨ls, hpath, hls⟩
    refine hpath.keeps .refl fun p l hl t hp hmove => ?_
    rw [Option.isNone_iff_eq_none.mp (hls l hl)] at hmove
    exact hp.tail hmove

theorem getElem?_silentClosures (hp : p < m.size) :
    (m.silentClosures silent)[p]? = some (m.silentClosure silent p) := by
  simp [silentClosures, hp]

theorem mem_closeUnder {closures : Array StateSet} :
    q ∈ closeUnder closures s ↔ ∃ p ∈ s, q ∈ (closures[p]?).getD .empty := by
  have fold {states : List Nat} {t : StateSet} :
      q ∈ states.foldl (fun t p => t.union ((closures[p]?).getD .empty)) t ↔
        q ∈ t ∨ ∃ p ∈ states, q ∈ (closures[p]?).getD .empty := by
    induction states generalizing t with
    | nil => simp
    | cons p states ih => rw [List.foldl_cons, ih, StateSet.mem_union]; grind
  rw [closeUnder, fold]
  simp [StateSet.mem_toList]

/-- The closure of a set holds the ends of the silent paths from its members. -/
theorem mem_closeUnder_silentClosures (hm : m.Closed) (hs : ∀ p ∈ s, p < m.size) :
    q ∈ closeUnder (m.silentClosures silent) s ↔
      ∃ p ∈ s, ∃ ls, Path m.moves p ls q ∧ ∀ l ∈ ls, silent l = true := by
  rw [mem_closeUnder]
  constructor
  · rintro ⟨p, hp, hq⟩
    rw [getElem?_silentClosures (hs p hp), Option.getD_some,
      mem_silentClosure hm (hs p hp)] at hq
    exact ⟨p, hp, hq⟩
  · rintro ⟨p, hp, hq⟩
    refine ⟨p, hp, ?_⟩
    rw [getElem?_silentClosures (hs p hp), Option.getD_some, mem_silentClosure hm (hs p hp)]
    exact hq

theorem mem_advance {reads : L → Char → Bool} {c : Char} :
    q ∈ m.advance reads s c ↔ ∃ p ∈ s, ∃ l, (l, q) ∈ m.moves p ∧ reads l c = true := by
  simp only [advance, StateSet.mem_ofList, List.mem_flatMap, StateSet.mem_toList,
    List.mem_filterMap]
  constructor
  · rintro ⟨p, hp, ⟨l, t⟩, hl, h⟩
    split at h
    · cases h
      exact ⟨p, hp, l, hl, by assumption⟩
    · cases h
  · rintro ⟨p, hp, l, hl, hr⟩
    exact ⟨p, hp, (l, q), hl, by simp [hr]⟩

theorem lt_size_of_mem_advance {reads : L → Char → Bool} {c : Char} (hm : m.Closed)
    (h : q ∈ m.advance reads s c) : q < m.size := by
  obtain ⟨p, _, l, hmove, _⟩ := mem_advance.mp h
  exact hm p l q hmove

end Transduction.Machine
