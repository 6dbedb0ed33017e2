/-
The search for the outputs of silent paths.

Silent moves are folded away by a search whose items pair a state with what has been written on
the way to it.  There are infinitely many such pairs, and nothing in the search itself stops it.
But where no silent cycle writes, what a silent path writes is written on a path that visits no
state twice, so the outputs are bounded and the search comes to its end:

* `Transducer.silentExtensions` — the pairs one silent move behind a pair;
* `Transducer.SilentPath.length_le` — what a silent path writes is no longer than the longest
  output of a silent move, once for each state but one;
* `Transducer.drainsFrom_silentOutputs` — the queue of the search is emptied;
* `Transducer.silentSearch_exact` — what waits is bounded at any time, the search ends, and it
  lists each pair of a silent path once.
-/
import Transduction.Exploration.Search
import Transduction.Proofs.RealTime

namespace Transduction

theorem length_writesOf_le {ls : List (Option Char × Word)} {bound : Nat}
    (h : ∀ l ∈ ls, l.2.length ≤ bound) : (writesOf ls).length ≤ ls.length * bound := by
  induction ls with
  | nil => exact Nat.zero_le _
  | cons l ls ih =>
    have hfirst := h l List.mem_cons_self
    have hrest := ih fun l' hl' => h l' (List.mem_cons_of_mem l hl')
    rw [writesOf_cons, List.length_append, List.length_cons, Nat.succ_mul]
    omega

/-- Each label of a path is that of a move. -/
theorem Path.exists_move {L κ : Type} {next : κ → List (L × κ)} {k r : κ} {ls : List L}
    (h : Path next k ls r) : ∀ l ∈ ls, ∃ s t, (l, t) ∈ next s := by
  induction h with
  | nil k => exact fun l hl => absurd hl List.not_mem_nil
  | cons hmove _ ih =>
    intro l hl
    rcases List.mem_cons.mp hl with rfl | hl
    · exact ⟨_, _, hmove⟩
    · exact ih l hl

namespace Transducer

variable {m : Transducer} {p q : Nat} {x : Word} {bound : Nat}

/-- What a silent path writes is no longer than the longest output of a silent move, once for
each state but one. -/
theorem SilentPath.length_le (hm : m.Closed) (hb : ∀ q, ¬m.WritesOnCycle q)
    (hbound : ∀ p w t, ((none, w), t) ∈ m.moves p → w.length ≤ bound) (hp : p < m.size)
    (h : m.SilentPath p x q) : x.length ≤ (m.size - 1) * bound := by
  obtain ⟨ls, hpath, hs, rfl, hlen⟩ := h.exists_short hm hb hp
  have hlabels : ∀ l ∈ ls, l.2.length ≤ bound := by
    rintro ⟨c, w⟩ hl
    obtain rfl : c = none := readsOf_eq_nil_iff.mp hs (c, w) hl
    obtain ⟨s, t, hmove⟩ := hpath.exists_move (none, w) hl
    exact hbound s w t hmove
  calc (writesOf ls).length ≤ ls.length * bound := length_writesOf_le hlabels
    _ ≤ (m.size - 1) * bound := Nat.mul_le_mul_right bound (by omega)

/-! ### The search -/

/-- The pairs of a state and an output that are one silent move behind such a pair. -/
def silentExtensions (m : Transducer) (reached : Nat × Word) : List (Nat × Word) :=
  (m.silentMoves reached.1).map fun (t, w) => (t, reached.2 ++ w)

theorem silentOutputs_eq_map : m.silentOutputs q =
    (explore id m.silentExtensions id m.size [(q, [])]).map (·.1) := rfl

/-- Where the search for the silent outputs of a state comes to. -/
abbrev SilentSearch (m : Transducer) (q : Nat) (s : Search (Nat × Word) (Nat × Word)) : Prop :=
  Search.Reached id m.silentExtensions [(q, [])] s

theorem silentPath_of_mem_singleton {k : Nat × Word} (hk : k ∈ [(q, ([] : Word))]) :
    m.SilentPath q k.2 k.1 := by
  obtain rfl := List.mem_singleton.mp hk
  exact .nil q

/-- A pair behind the end and output of a silent path is that of a longer one. -/
theorem SilentPath.extend {k t : Nat × Word} (h : m.SilentPath q k.2 k.1)
    (ht : t ∈ m.silentExtensions k) : m.SilentPath q t.2 t.1 := by
  obtain ⟨⟨r, w⟩, hmove, rfl⟩ := List.mem_map.mp ht
  exact h.append ⟨[(none, w)], .single (mem_silentMoves.mp hmove), rfl, by simp⟩

/-- Without a writing silent cycle the queue of the search is emptied. -/
theorem drainsFrom_silentOutputs (hm : m.Closed) (hb : ∀ q, ¬m.WritesOnCycle q)
    (hq : q < m.size) : DrainsFrom id m.silentExtensions id [(q, [])]
      (explore id m.silentExtensions id m.size [(q, [])]) := by
  refine drains_explore_of_found (P := fun k => m.SilentPath q k.2 k.1)
    (fun _ => silentPath_of_mem_singleton) (fun _ hk _ ht => hk.extend ht) fun k hk => ?_
  have hmem := (mem_silentOutputs_iff hm hb hq).mpr hk
  rw [silentOutputs_eq_map] at hmem
  exact List.mem_map.mp hmem

/-- Let a transducer have no writing silent cycle once it is trimmed, and `n` states then, and let
no silent move of it write more than `bound` symbols.  Then no pair that ever waits in the search
from a state has an output of more than `(n - 1) * bound` symbols.  The search ends, and it has
visited each pair of the end and the output of a silent path once, and nothing else. -/
theorem silentSearch_exact (hm : m.Closed) (hcheck : m.trim.unboundedStates = [])
    (hbound : ∀ p w t, ((none, w), t) ∈ m.trim.moves p → w.length ≤ bound) (hq : q < m.trim.size) :
    (∀ s, m.trim.SilentSearch q s → ∀ p x, (p, x) ∈ s.queue →
      x.length ≤ (m.trim.size - 1) * bound) ∧
    (∃ s, m.trim.SilentSearch q s ∧ s.queue = [] ∧ s.visited = m.trim.silentOutputs q) ∧
    (m.trim.silentOutputs q).Nodup ∧
    ∀ p x, (p, x) ∈ m.trim.silentOutputs q ↔ m.trim.SilentPath q x p := by
  have htrim : m.trim.Closed := (Machine.wellFormed_trim hm).closed
  have hb : ∀ q, ¬m.trim.WritesOnCycle q := fun q hq => by
    have hmem := (mem_unboundedStates_iff htrim).mpr hq
    rw [hcheck] at hmem
    exact List.not_mem_nil hmem
  refine ⟨fun s hs p x hx => ?_, ?_, ?_, fun p x => mem_silentOutputs_iff htrim hb hq⟩
  · -- whatever waits is the end and the output of a silent path
    have hpath := Search.Reached.forall_mem_queue (P := fun k => m.trim.SilentPath q k.2 k.1)
      (fun _ => silentPath_of_mem_singleton) (fun _ hk _ ht => hk.extend ht) hs (p, x) hx
    exact hpath.length_le htrim hb hbound hq
  · exact (drainsFrom_silentOutputs htrim hb hq).exists_reached
  · have hnodup : ((explore id m.trim.silentExtensions id m.trim.size [(q, [])]).map
        fun entry => id entry.1).Nodup := nodup_explore
    exact hnodup

/-- Two states on a silent cycle that does not write, each of which leaves it writing something
else. -/
def twoExits : Transducer where
  nodes := #[{ initial := true, moves := [((none, []), 1), ((none, ['x']), 2)] },
    { moves := [((none, []), 0), ((none, ['y', 'z']), 2)] },
    { moves := [((none, ['x']), 3)] }, { accepting := true }]

/-- The search from the first state goes around the cycle, and lists the last two states twice,
with different outputs. -/
theorem silentSearch_exact_twoExits :
    twoExits.Closed ∧ twoExits.trim.unboundedStates = [] ∧
    (∀ s, twoExits.trim.SilentSearch 0 s → ∀ p x, (p, x) ∈ s.queue → x.length ≤ 6) ∧
    ∃ s, twoExits.trim.SilentSearch 0 s ∧ s.queue = [] ∧
      s.visited = [(0, []), (1, []), (2, ['x']), (2, ['y', 'z']), (3, ['x', 'x']),
        (3, ['y', 'z', 'x'])] := by
  have hm : twoExits.Closed := (by decide : twoExits.WellFormed).closed
  have htrim : twoExits.trim = twoExits := by decide +kernel
  have hcheck : twoExits.trim.unboundedStates = [] := by decide +kernel
  -- All four states are useful, so the trimmed machine is the machine itself and its moves can be
  -- listed.
  have hbound : ∀ p w t, ((none, w), t) ∈ twoExits.trim.moves p → w.length ≤ 2 := by
    rw [htrim]
    intro p w t hmove
    obtain ⟨n, hn, hmove⟩ := Machine.exists_mem_moves_iff.mp ⟨p, hmove⟩
    have hnodes : ∀ n ∈ twoExits.nodes.toList, ∀ move ∈ n.moves, move.1.2.length ≤ 2 := by decide
    exact hnodes n hn _ hmove
  obtain ⟨bounded, ends, _⟩ := silentSearch_exact hm hcheck hbound (q := 0) (by decide +kernel)
  have houtputs : twoExits.trim.silentOutputs 0 = [(0, []), (1, []), (2, ['x']), (2, ['y', 'z']),
      (3, ['x', 'x']), (3, ['y', 'z', 'x'])] := by decide +kernel
  have hsize : twoExits.trim.size = 4 := by decide +kernel
  rw [houtputs] at ends
  rw [hsize] at bounded
  exact ⟨hm, hcheck, bounded, ends⟩

end Transducer

end Transduction
