/-
The transitive closure of a finite relation.

Behind `n` rounds the closure found so far holds the pairs that a chain of at most `n + 1` pairs
links, and the newest ones are those that no shorter chain links.  A chain that comes to a value
twice can be cut short, so a relation needs no more rounds than it has pairs:

* `Relation.mem_compose` — the pairs that have a middle value in common;
* `Relation.Within r n a c` — a chain of one to `n` pairs links `a` to `c`, and
  `Relation.Within.le_length`, which cuts it short;
* `Relation.Round`, `Relation.Round.next` — what holds in front of every round, and a round keeps;
* `Relation.mem_extendClosure_iff` — what holds when the rounds end;
* `Relation.mem_transitiveClosure_iff` — the closure holds what chains of any length link;
* `Relation.Settles`, `Relation.settles_extendClosure` — rounds without a limit end for themselves,
  and with the same closure;
* `Relation.transitiveClosure_least` — it is the smallest transitive relation that contains the
  given one.
-/
import Mathlib.Data.List.Perm.Subperm
import Mathlib.Logic.Relation
import Transduction.Proofs.Path
import Transduction.Relation

namespace Transduction.Relation

variable {α : Type} [DecidableEq α] {r : List (α × α)} {a b c : α} {n m : Nat}

/-! ### Chains -/

/-- The pairs that start at a value, each with the value that it leads to. -/
def links (r : List (α × α)) (a : α) : List ((α × α) × α) :=
  (r.filter fun pair => pair.1 = a).map fun pair => (pair, pair.2)

theorem mem_links {pair : α × α} : (pair, b) ∈ links r a ↔ pair = (a, b) ∧ (a, b) ∈ r := by
  simp only [links, List.mem_map, List.mem_filter, decide_eq_true_eq, Prod.mk.injEq]
  constructor
  · rintro ⟨⟨x, y⟩, ⟨hmem, rfl⟩, rfl, rfl⟩
    exact ⟨rfl, hmem⟩
  · rintro ⟨rfl, hmem⟩
    exact ⟨(a, b), ⟨hmem, rfl⟩, rfl, rfl⟩

/-- A chain of at least one and at most `n` pairs leads from one value to the other. -/
def Within (r : List (α × α)) (n : Nat) (a c : α) : Prop :=
  ∃ chain, chain ≠ [] ∧ chain.length ≤ n ∧ Path (links r) a chain c

theorem not_within_zero : ¬Within r 0 a c := by
  rintro ⟨chain, hne, hlen, _⟩
  exact hne (List.length_eq_zero_iff.mp (Nat.le_zero.mp hlen))

theorem Within.mono (h : Within r n a c) (hle : n ≤ m) : Within r m a c := by
  obtain ⟨chain, hne, hlen, hpath⟩ := h
  exact ⟨chain, hne, Nat.le_trans hlen hle, hpath⟩

/-- A longer chain ends with a pair of the relation. -/
theorem within_succ_iff :
    Within r (n + 1) a c ↔ (a, c) ∈ r ∨ ∃ b, Within r n a b ∧ (b, c) ∈ r := by
  constructor
  · rintro ⟨chain, hne, hlen, hpath⟩
    obtain ⟨front, pair, rfl⟩ := List.eq_nil_or_concat chain |>.resolve_left hne
    rw [List.concat_eq_append] at hlen hpath
    obtain ⟨b, hfront, hlast⟩ := path_append_iff.mp hpath
    obtain ⟨d, hlink, hnil⟩ := path_cons_iff.mp hlast
    obtain rfl := path_nil_iff.mp hnil
    have hpair : (b, d) ∈ r := (mem_links.mp hlink).2
    -- Without its last pair the chain is empty or shorter by one.
    by_cases hempty : front = []
    · subst hempty
      obtain rfl := path_nil_iff.mp hfront
      exact Or.inl hpair
    · rw [List.length_append, List.length_singleton] at hlen
      exact Or.inr ⟨b, ⟨front, hempty, Nat.le_of_succ_le_succ hlen, hfront⟩, hpair⟩
  · rintro (hpair | ⟨b, ⟨chain, _, hlen, hpath⟩, hpair⟩)
    · exact ⟨[(a, c)], List.cons_ne_nil _ _, Nat.le_add_left 1 n,
        .single (mem_links.mpr ⟨rfl, hpair⟩)⟩
    · refine ⟨chain ++ [(b, c)], List.concat_ne_nil _ _, ?_,
        hpath.append (.single (mem_links.mpr ⟨rfl, hpair⟩))⟩
      rw [List.length_append, List.length_singleton]
      exact Nat.succ_le_succ hlen

theorem within_one_iff : Within r 1 a c ↔ (a, c) ∈ r := by
  rw [within_succ_iff]
  exact or_iff_left fun ⟨_, hzero, _⟩ => not_within_zero hzero

/-- Chains lead to second components only. -/
theorem Within.mem_targets (h : Within r n a c) : c ∈ r.map (·.2) := by
  cases n with
  | zero => exact absurd h not_within_zero
  | succ n =>
    rcases within_succ_iff.mp h with hpair | ⟨b, _, hpair⟩
    · exact List.mem_map.mpr ⟨_, hpair, rfl⟩
    · exact List.mem_map.mpr ⟨_, hpair, rfl⟩

/-- No chain has to be longer than the relation: the values that a shortest one comes to are
different second components. -/
theorem Within.le_length (h : Within r n a c) : Within r r.length a c := by
  obtain ⟨chain, hne, -, hpath⟩ := h
  induction hlen : chain.length using Nat.strongRecOn generalizing chain with
  | ind len ih =>
    subst hlen
    cases hpath with
    | nil => exact absurd rfl hne
    | @cons _ b _ pair rest hlink hrest =>
      rcases hrest.exists_loop with
        ⟨visited, hvisited, hnodup, hsplit⟩ | ⟨front, loop, back, d, rfl, hloop, h1, _, h3⟩
      · have targets : visited ⊆ r.map (·.2) := by
          intro d hd
          obtain ⟨front, _, _, hfront, _⟩ := hsplit d hd
          exact Within.mem_targets
            ⟨pair :: front, List.cons_ne_nil _ _, Nat.le_refl _, .cons hlink hfront⟩
        have short : visited.length ≤ (r.map (·.2)).length := (hnodup.subperm targets).length_le
        rw [hvisited, List.length_map] at short
        exact ⟨pair :: rest, List.cons_ne_nil _ _, short, .cons hlink hrest⟩
      -- what lies between two visits of a value is left out
      · refine ih (pair :: (front ++ back)).length ?_ _ (List.cons_ne_nil _ _)
          (.cons hlink (h1.append h3)) rfl
        have hpos := List.length_pos_iff.mpr hloop
        simp only [List.length_cons, List.length_append]
        omega

theorem transGen_iff_within :
    Relation.TransGen (fun a b => (a, b) ∈ r) a c ↔ ∃ n, Within r n a c := by
  constructor
  · intro h
    induction h with
    | single hpair => exact ⟨1, within_one_iff.mpr hpair⟩
    | tail _ hpair ih =>
      obtain ⟨n, hn⟩ := ih
      exact ⟨n + 1, within_succ_iff.mpr (Or.inr ⟨_, hn, hpair⟩)⟩
  · rintro ⟨n, hn⟩
    induction n generalizing c with
    | zero => exact absurd hn not_within_zero
    | succ n ih =>
      rcases within_succ_iff.mp hn with hpair | ⟨b, hb, hpair⟩
      · exact .single hpair
      · exact (ih hb).tail hpair

/-! ### Rounds -/

variable {closure newest : List (α × α)}

/-- Behind `n` rounds: the pairs found, and among them those that were found last. -/
structure Round (r : List (α × α)) (n : Nat) (closure newest : List (α × α)) : Prop where
  mem_closure_iff : ∀ a c, (a, c) ∈ closure ↔ Within r (n + 1) a c
  mem_newest_iff : ∀ a c, (a, c) ∈ newest ↔ Within r (n + 1) a c ∧ ¬Within r n a c

theorem Round.start : Round r 0 r r where
  mem_closure_iff _ _ := within_one_iff.symm
  mem_newest_iff _ _ := by
    rw [within_one_iff]
    exact (and_iff_left not_within_zero).symm

/-- Where a round has found nothing, longer chains link nothing new. -/
theorem Round.within_of_nil (h : Round r n closure []) (hm : Within r m a c) :
    Within r (n + 1) a c := by
  have settled {c : α} (hc : Within r (n + 1) a c) : Within r n a c := by
    by_contra hnew
    exact List.not_mem_nil ((h.mem_newest_iff a c).mpr ⟨hc, hnew⟩)
  induction m generalizing c with
  | zero => exact absurd hm not_within_zero
  | succ m ih =>
    rcases within_succ_iff.mp hm with hpair | ⟨b, hb, hpair⟩
    · exact (within_one_iff.mpr hpair).mono (Nat.le_add_left 1 n)
    · exact within_succ_iff.mpr (Or.inr ⟨b, settled (ih hb), hpair⟩)

/-- Behind as many rounds as the relation has pairs there is nothing new. -/
theorem Round.newest_eq_nil (h : Round r n closure newest) (hn : r.length ≤ n) : newest = [] := by
  refine List.eq_nil_iff_forall_not_mem.mpr fun ⟨a, c⟩ hnew => ?_
  obtain ⟨hwithin, hlater⟩ := (h.mem_newest_iff a c).mp hnew
  exact hlater (hwithin.le_length.mono hn)

variable [Ord α] [Std.TransOrd α] [Std.LawfulEqOrd α] {s : List (α × α)}

theorem mem_compose : (a, c) ∈ compose r s ↔ ∃ b, (a, b) ∈ r ∧ (b, c) ∈ s := by
  rw [compose, mem_ascending]
  simp only [List.mem_flatMap, List.mem_filterMap]
  constructor
  · rintro ⟨⟨x, b⟩, hr, ⟨b', y⟩, hs, he⟩
    split at he
    · rename_i hb
      subst hb
      cases he
      exact ⟨b, hr, hs⟩
    · cases he
  · rintro ⟨b, hr, hs⟩
    exact ⟨(a, b), hr, (b, c), hs, if_pos rfl⟩

/-- The pairs that a round adds. -/
abbrev fresh (r closure newest : List (α × α)) : List (α × α) :=
  (compose newest r).filter fun pair => !closure.contains pair

theorem Round.mem_fresh_iff (h : Round r n closure newest) :
    (a, c) ∈ fresh r closure newest ↔ Within r (n + 2) a c ∧ ¬Within r (n + 1) a c := by
  have mem_iff : (a, c) ∈ fresh r closure newest ↔
      (∃ b, (a, b) ∈ newest ∧ (b, c) ∈ r) ∧ ¬Within r (n + 1) a c := by
    rw [List.mem_filter, mem_compose, Bool.not_eq_true', ← Bool.not_eq_true, List.contains_iff_mem,
      h.mem_closure_iff]
  rw [mem_iff]
  constructor
  · rintro ⟨⟨b, hb, hpair⟩, hnew⟩
    exact ⟨within_succ_iff.mpr (Or.inr ⟨b, ((h.mem_newest_iff a b).mp hb).1, hpair⟩), hnew⟩
  · rintro ⟨hwithin, hnew⟩
    refine ⟨?_, hnew⟩
    rcases within_succ_iff.mp hwithin with hpair | ⟨b, hb, hpair⟩
    · exact absurd ((within_one_iff.mpr hpair).mono (Nat.le_add_left 1 n)) hnew
    -- a shorter chain to the last value but one would make this one shorter as well
    · exact ⟨b, (h.mem_newest_iff a b).mpr
        ⟨hb, fun hshort => hnew (within_succ_iff.mpr (Or.inr ⟨b, hshort, hpair⟩))⟩, hpair⟩

theorem Round.next (h : Round r n closure newest) :
    Round r (n + 1) (closure ++ fresh r closure newest) (fresh r closure newest) where
  mem_closure_iff a c := by
    rw [List.mem_append, h.mem_fresh_iff, h.mem_closure_iff]
    constructor
    · rintro (hold | ⟨hnew, _⟩)
      · exact hold.mono (Nat.le_succ _)
      · exact hnew
    · intro hwithin
      by_cases hold : Within r (n + 1) a c
      · exact Or.inl hold
      · exact Or.inr ⟨hwithin, hold⟩
  mem_newest_iff _ _ := h.mem_fresh_iff

/-- With as many rounds as the relation has pairs, every chain is found. -/
theorem mem_extendClosure_iff {rounds : Nat} (h : Round r n closure newest)
    (hrounds : r.length ≤ n + rounds) :
    (a, c) ∈ extendClosure r rounds closure newest ↔ ∃ m, Within r m a c := by
  induction rounds generalizing n closure newest with
  | zero =>
    rw [extendClosure, h.mem_closure_iff]
    exact ⟨fun hc => ⟨_, hc⟩, fun ⟨_, hm⟩ => hm.le_length.mono (by omega)⟩
  | succ rounds ih =>
    cases newest with
    | nil =>
      rw [extendClosure, h.mem_closure_iff]
      exact ⟨fun hc => ⟨_, hc⟩, fun ⟨_, hm⟩ => h.within_of_nil hm⟩
    | cons pair newest => exact ih h.next (by omega)

/-- The closure of a relation holds the pairs that a chain of its pairs links. -/
theorem mem_transitiveClosure_iff :
    (a, c) ∈ transitiveClosure r ↔ Relation.TransGen (fun a b => (a, b) ∈ r) a c := by
  rw [transitiveClosure, mem_ascending, mem_extendClosure_iff .start (Nat.le_add_left _ _),
    transGen_iff_within]

/-! ### Rounds without a limit -/

/-- Round follows round for as long as something new is found, and the closure found in the end is
the last one. -/
inductive Settles (r : List (α × α)) :
    List (α × α) → List (α × α) → List (α × α) → Prop where
  | settled {closure : List (α × α)} : Settles r closure [] closure
  | round {closure newest found : List (α × α)} : newest ≠ [] →
      Settles r (closure ++ fresh r closure newest) (fresh r closure newest) found →
      Settles r closure newest found

/-- The limit is never what ends the rounds. -/
theorem settles_extendClosure {rounds : Nat} (h : Round r n closure newest)
    (hrounds : r.length ≤ n + rounds) :
    Settles r closure newest (extendClosure r rounds closure newest) := by
  induction rounds generalizing n closure newest with
  | zero =>
    obtain rfl := h.newest_eq_nil hrounds
    exact .settled
  | succ rounds ih =>
    cases newest with
    | nil => exact .settled
    | cons pair newest => exact .round (List.cons_ne_nil _ _) (ih h.next (by omega))

/-- The rounds end, and the closure that they find is the smallest relation that contains the given
one and is closed under composition with itself. -/
theorem transitiveClosure_least (r : List (α × α)) :
    (∃ closure, Settles r r r closure ∧ transitiveClosure r = ascending closure) ∧
    r ⊆ transitiveClosure r ∧
    compose (transitiveClosure r) (transitiveClosure r) ⊆ transitiveClosure r ∧
    ∀ S : α → α → Prop, (∀ a c, (a, c) ∈ r → S a c) → (∀ a b c, S a b → S b c → S a c) →
      ∀ a c, (a, c) ∈ transitiveClosure r → S a c := by
  refine ⟨⟨_, settles_extendClosure .start (Nat.le_add_left _ _), rfl⟩, ?_, ?_, ?_⟩
  · rintro ⟨a, c⟩ hpair
    exact mem_transitiveClosure_iff.mpr (.single hpair)
  · rintro ⟨a, c⟩ hpair
    obtain ⟨b, hfirst, hsecond⟩ := mem_compose.mp hpair
    rw [mem_transitiveClosure_iff] at hfirst hsecond ⊢
    exact hfirst.trans hsecond
  · intro S hr htrans a c hpair
    induction mem_transitiveClosure_iff.mp hpair with
    | single hlink => exact hr _ _ hlink
    | tail hchain hlink ih =>
      exact htrans _ _ _ (ih (mem_transitiveClosure_iff.mpr hchain)) (hr _ _ hlink)

/-- A cycle of three values, and a way out of it. -/
def cycleWithExit : List (Nat × Nat) := [(1, 2), (2, 3), (3, 1), (3, 4)]

/-- The rounds end although there is a cycle.  It links a value to itself and to the exit, and
nothing leads back. -/
theorem transitiveClosure_least_cycleWithExit :
    (∃ closure, Settles cycleWithExit cycleWithExit cycleWithExit closure ∧
      transitiveClosure cycleWithExit = ascending closure) ∧
    (1, 1) ∈ transitiveClosure cycleWithExit ∧ (1, 4) ∈ transitiveClosure cycleWithExit ∧
    (4, 1) ∉ transitiveClosure cycleWithExit := by
  obtain ⟨hsettles, hcontains, htransitive, hleast⟩ := transitiveClosure_least cycleWithExit
  have link {a b c : Nat} (hfirst : (a, b) ∈ transitiveClosure cycleWithExit)
      (hlast : (b, c) ∈ cycleWithExit) : (a, c) ∈ transitiveClosure cycleWithExit :=
    htransitive (mem_compose.mpr ⟨b, hfirst, hcontains hlast⟩)
  have twoThree : (1, 3) ∈ transitiveClosure cycleWithExit :=
    link (hcontains (by decide : (1, 2) ∈ cycleWithExit)) (by decide)
  refine ⟨hsettles, link twoThree (by decide), link twoThree (by decide), fun hback => ?_⟩
  have starts : ∀ pair ∈ cycleWithExit, pair.1 < 4 := by decide
  have leaves : 4 < 4 :=
    hleast (fun a _ => a < 4) (fun a c => starts (a, c)) (fun _ _ _ ha _ => ha) 4 1 hback
  exact absurd leaves (Nat.lt_irrefl 4)

end Transduction.Relation
