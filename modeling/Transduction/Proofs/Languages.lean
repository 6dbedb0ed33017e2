/-
Languages and relations of the algebraic constructions.

The operations on machines are described by the labels of accepted runs, whatever
the labels mean, and words follow from labels:

* `Machine.acceptsLabels_mapLabels_iff` — a machine with other labels accepts their
  images;
* `Machine.acceptsLabels_plus_iff`, `Machine.acceptsLabels_star_iff` — iteration joins
  accepted runs by silent moves;
* `Acceptor.accepts_plus_iff`, `Acceptor.accepts_star_iff` — the words of iterations;
* `Transducer.accepts_domain_iff`, `Acceptor.relates_identity_iff` — domains and
  identities;
* `Rewriter.relates_properRule_iff` — a rule restricted to non-empty inputs.
-/
import Transduction.Proofs.Composition
import Transduction.Proofs.Copies
import Transduction.Rewriter

namespace Transduction

/-! ### Constructions, label by label -/

namespace Machine

variable {L K : Type} {m : Machine L} {s : L} {p q : Nat} {ls : List L}

section mapLabels

variable [Ord K] [Std.TransOrd K] [Std.LawfulEqOrd K] {f : L → K} {ks : List K}

theorem mem_moves_mapLabels {k : K} :
    (k, q) ∈ (m.mapLabels f).moves p ↔ ∃ l, (l, q) ∈ m.moves p ∧ f l = k := by
  rw [moves_mapLabels, mem_ascending, List.mem_map]
  constructor
  · rintro ⟨⟨l, t⟩, hmem, he⟩
    cases he
    exact ⟨l, hmem, rfl⟩
  · rintro ⟨l, hmem, rfl⟩
    exact ⟨(l, q), hmem, rfl⟩

theorem path_mapLabels_iff :
    Path (m.mapLabels f).moves p ks q ↔ ∃ ls, Path m.moves p ls q ∧ ls.map f = ks := by
  induction ks generalizing p with
  | nil =>
    rw [path_nil_iff]
    constructor
    · rintro rfl
      exact ⟨[], .nil p, rfl⟩
    · rintro ⟨ls, hpath, hmap⟩
      rw [List.map_eq_nil_iff.mp hmap, path_nil_iff] at hpath
      exact hpath
  | cons k ks ih =>
    rw [path_cons_iff]
    constructor
    · rintro ⟨t, hmove, hpath⟩
      obtain ⟨l, hl, rfl⟩ := mem_moves_mapLabels.mp hmove
      obtain ⟨ls, hls, rfl⟩ := ih.mp hpath
      exact ⟨l :: ls, .cons hl hls, rfl⟩
    · rintro ⟨ls, hpath, hmap⟩
      obtain ⟨l, ls, rfl, rfl, rfl⟩ := List.map_eq_cons_iff.mp hmap
      obtain ⟨t, hl, hls⟩ := path_cons_iff.mp hpath
      exact ⟨t, mem_moves_mapLabels.mpr ⟨l, hl, rfl⟩, ih.mpr ⟨ls, hls, rfl⟩⟩

theorem acceptsLabels_mapLabels_iff :
    (m.mapLabels f).AcceptsLabels ks ↔ ∃ ls, m.AcceptsLabels ls ∧ ls.map f = ks := by
  simp only [AcceptsLabels, isInitial_mapLabels, isAccepting_mapLabels, path_mapLabels_iff]
  constructor
  · rintro ⟨p, q, hp, ⟨ls, hpath, hmap⟩, hq⟩
    exact ⟨ls, ⟨p, q, hp, hpath, hq⟩, hmap⟩
  · rintro ⟨ls, ⟨p, q, hp, hpath, hq⟩, hmap⟩
    exact ⟨p, q, hp, ⟨ls, hpath, hmap⟩, hq⟩

theorem closed_mapLabels (hm : m.Closed) : (m.mapLabels f).Closed := by
  intro q k t h
  obtain ⟨l, hl, _⟩ := mem_moves_mapLabels.mp h
  rw [size_mapLabels]
  exact hm q l t hl

theorem wellFormed_mapLabels (hm : m.WellFormed) : (m.mapLabels f).WellFormed := by
  obtain ⟨q, hq⟩ := hm.exists_initial
  exact ⟨closed_mapLabels hm.closed, q, (isInitial_mapLabels f m q).trans hq⟩

end mapLabels

/-- Label lists with a property, joined by one silent label each. -/
inductive Joined (s : L) (P : List L → Prop) : List L → Prop where
  | one {ls : List L} : P ls → Joined s P ls
  | cons {ls more : List L} : P ls → Joined s P more → Joined s P (ls ++ s :: more)

section iteration

variable [Ord L]

theorem isInitial_plus : (m.plus s).isInitial q = m.isInitial q := by
  simp only [isInitial, plus, Array.getElem?_map]
  cases m.nodes[q]? with
  | none => rfl
  | some n => exact Node.initial_continueWith

theorem isAccepting_plus : (m.plus s).isAccepting q = m.isAccepting q := by
  simp only [isAccepting, plus, Array.getElem?_map]
  cases m.nodes[q]? with
  | none => rfl
  | some n => exact Node.accepting_continueWith

/-! The states of `star` are a new state 0 and, one number up, those of `plus`. -/

theorem getElem?_star_succ :
    (m.star s).nodes[q + 1]? = ((m.plus s).nodes[q]?).map (Node.inner 1) := by
  rw [star, Array.getElem?_append]
  simp

theorem getElem?_star_zero : (m.star s).nodes[0]? =
    some { initial := true, accepting := true, moves := entries s 1 (m.plus s) } := by
  rw [star, Array.getElem?_append_left Nat.zero_lt_one]
  rfl

theorem moves_star_zero : (m.star s).moves 0 = entries s 1 (m.plus s) := by
  simp [moves, getElem?_star_zero]

theorem moves_star_succ :
    (m.star s).moves (q + 1) = ((m.plus s).moves q).map fun (l, t) => (l, t + 1) :=
  moves_of_inner getElem?_star_succ

theorem isInitial_star : (m.star s).isInitial q = true ↔ q = 0 := by
  cases q with
  | zero => simp [isInitial, getElem?_star_zero]
  | succ q => simp [isInitial_of_inner getElem?_star_succ]

theorem isAccepting_star_zero : (m.star s).isAccepting 0 = true := by
  simp [isAccepting, getElem?_star_zero]

theorem isAccepting_star_succ : (m.star s).isAccepting (q + 1) = (m.plus s).isAccepting q :=
  isAccepting_of_inner getElem?_star_succ

theorem path_star_iff {r : Nat} : Path (m.star s).moves (p + 1) ls r ↔
    ∃ q, r = q + 1 ∧ Path (m.plus s).moves p ls q :=
  path_shifted_iff (P := fun _ => True) (fun _ _ => moves_star_succ) (fun _ _ _ _ _ => trivial)
    trivial

variable [Std.TransOrd L] [Std.LawfulEqOrd L]

/-- The moves of an iteration are those of the machine, and silent ones from accepting
states to initial states. -/
theorem mem_moves_plus_iff {l : L} {t : Nat} : (l, t) ∈ (m.plus s).moves q ↔
    (l, t) ∈ m.moves q ∨ m.isAccepting q = true ∧ l = s ∧ m.isInitial t = true := by
  have mem_links : (l, t) ∈ entries s 0 m ↔ l = s ∧ m.isInitial t = true := by
    rw [mem_entries_iff]
    exact and_congr_right fun _ => ⟨fun ⟨q, hq, ht⟩ => ht ▸ hq, fun ht => ⟨t, ht, rfl⟩⟩
  rw [← mem_links]
  simp only [moves, isAccepting, plus, Array.getElem?_map]
  cases m.nodes[q]? with
  | none => simp
  | some n => exact Node.mem_moves_continueWith_iff

theorem path_plus_of_path (h : Path m.moves p ls q) : Path (m.plus s).moves p ls q := by
  induction h with
  | nil k => exact .nil k
  | cons hmove _ ih => exact .cons (mem_moves_plus_iff.mpr (Or.inl hmove)) ih

/-- A path of an iteration to an accepting state is a path of the machine, or one up to
the first silent move that was added and accepted runs behind it. -/
theorem path_plus_cases (h : Path (m.plus s).moves p ls q) (hq : m.isAccepting q = true) :
    Path m.moves p ls q ∨ ∃ front rest r, ls = front ++ s :: rest ∧ Path m.moves p front r ∧
      m.isAccepting r = true ∧ Joined s m.AcceptsLabels rest := by
  induction h with
  | nil k => exact Or.inl (.nil k)
  | @cons k t r l ls hmove hpath ih =>
    rcases mem_moves_plus_iff.mp hmove with hmove | ⟨hk, rfl, ht⟩
    · rcases ih hq with hpath | ⟨front, rest, r', rfl, hfront, hr', hrest⟩
      · exact Or.inl (.cons hmove hpath)
      · exact Or.inr ⟨l :: front, rest, r', rfl, .cons hmove hfront, hr', hrest⟩
    · right
      rcases ih hq with hpath | ⟨front, rest, r', rfl, hfront, hr', hrest⟩
      · exact ⟨[], ls, k, rfl, .nil k, hk, .one ⟨t, r, ht, hpath, hq⟩⟩
      · exact ⟨[], _, k, rfl, .nil k, hk, .cons ⟨t, r', ht, hfront, hr'⟩ hrest⟩

theorem acceptsLabels_plus_iff :
    (m.plus s).AcceptsLabels ls ↔ Joined s m.AcceptsLabels ls := by
  constructor
  · rintro ⟨p, q, hp, hpath, hq⟩
    rw [isInitial_plus] at hp
    rw [isAccepting_plus] at hq
    rcases path_plus_cases hpath hq with hpath | ⟨front, rest, r, rfl, hfront, hr, hrest⟩
    · exact .one ⟨p, q, hp, hpath, hq⟩
    · exact .cons ⟨p, r, hp, hfront, hr⟩ hrest
  · intro h
    induction h with
    | one h =>
      obtain ⟨p, q, hp, hpath, hq⟩ := h
      exact ⟨p, q, isInitial_plus.trans hp, path_plus_of_path hpath, isAccepting_plus.trans hq⟩
    | cons h _ ih =>
      obtain ⟨p, r, hp, hfront, hr⟩ := h
      obtain ⟨t, q, ht, hrest, hq⟩ := ih
      rw [isInitial_plus] at ht
      exact ⟨p, q, isInitial_plus.trans hp, (path_plus_of_path hfront).append
        (.cons (mem_moves_plus_iff.mpr (Or.inr ⟨hr, rfl, ht⟩)) hrest), hq⟩

theorem closed_plus (hm : m.Closed) : (m.plus s).Closed := by
  intro q l t h
  rw [size_plus]
  rcases mem_moves_plus_iff.mp h with h | ⟨_, _, ht⟩
  · exact hm q l t h
  · exact lt_size_of_isInitial ht

theorem wellFormed_plus (hm : m.WellFormed) : (m.plus s).WellFormed := by
  obtain ⟨q, hq⟩ := hm.exists_initial
  exact ⟨closed_plus hm.closed, q, isInitial_plus.trans hq⟩

/-- A run of `star` is empty, or a silent move in front of a run of `plus`. -/
theorem acceptsLabels_star_iff : (m.star s).AcceptsLabels ls ↔
    ls = [] ∨ ∃ rest, ls = s :: rest ∧ Joined s m.AcceptsLabels rest := by
  constructor
  · rintro ⟨p, r, hp, hpath, hr⟩
    obtain rfl := isInitial_star.mp hp
    cases hpath with
    | nil => exact Or.inl rfl
    | @cons _ t _ l ls hmove hpath =>
      rw [moves_star_zero, mem_entries_iff] at hmove
      obtain ⟨rfl, q, hq, rfl⟩ := hmove
      obtain ⟨r', rfl, hrest⟩ := path_star_iff.mp hpath
      rw [isAccepting_star_succ] at hr
      exact Or.inr ⟨ls, rfl, acceptsLabels_plus_iff.mp ⟨q, r', hq, hrest, hr⟩⟩
  · rintro (rfl | ⟨rest, rfl, hrest⟩)
    · exact ⟨0, 0, isInitial_star.mpr rfl, .nil 0, isAccepting_star_zero⟩
    · obtain ⟨q, r, hq, hpath, hr⟩ := acceptsLabels_plus_iff.mpr hrest
      refine ⟨0, r + 1, isInitial_star.mpr rfl, .cons ?_ (path_star_iff.mpr ⟨r, rfl, hpath⟩),
        isAccepting_star_succ.trans hr⟩
      rw [moves_star_zero, mem_entries_iff]
      exact ⟨rfl, q, hq, rfl⟩

theorem wellFormed_star (hm : m.Closed) : (m.star s).WellFormed := by
  refine ⟨fun q l t h => ?_, 0, isInitial_star.mpr rfl⟩
  rw [size_star, Nat.add_comm]
  cases q with
  | zero =>
    rw [moves_star_zero, mem_entries_iff] at h
    obtain ⟨_, q, hq, rfl⟩ := h
    exact Nat.succ_lt_succ (Nat.lt_of_lt_of_eq (lt_size_of_isInitial hq) (size_plus s m))
  | succ q =>
    rw [moves_star_succ, List.mem_map] at h
    obtain ⟨⟨l', t'⟩, hmove, he⟩ := h
    cases he
    exact Nat.succ_lt_succ (Nat.lt_of_lt_of_eq (closed_plus hm q l t' hmove) (size_plus s m))

end iteration

end Machine

/-! ### Words of iterations -/

namespace Acceptor

variable {a : Acceptor} {cs : List Char} {w x y : Word}

theorem words_of_joined {P : List (Option Char) → Prop} {ls : List (Option Char)}
    (h : Machine.Joined none P ls) :
    ∃ ws : List Word, ws ≠ [] ∧ (∀ v ∈ ws, ∃ part, P part ∧ part.filterMap id = v) ∧
      ls.filterMap id = ws.flatten := by
  induction h with
  | @one ls h => exact ⟨[ls.filterMap id], by simp, by simpa using ⟨ls, h, rfl⟩, by simp⟩
  | @cons ls more h _ ih =>
    obtain ⟨ws, _, hws, hmore⟩ := ih
    refine ⟨ls.filterMap id :: ws, List.cons_ne_nil _ _, ?_, ?_⟩
    · rw [List.forall_mem_cons]
      exact ⟨⟨ls, h, rfl⟩, hws⟩
    · rw [List.filterMap_append, List.filterMap_cons, hmore, List.flatten_cons]
      rfl

theorem exists_joined {P : List (Option Char) → Prop} {ws : List Word} (hne : ws ≠ [])
    (h : ∀ v ∈ ws, ∃ part, P part ∧ part.filterMap id = v) :
    ∃ ls, Machine.Joined none P ls ∧ ls.filterMap id = ws.flatten := by
  induction ws with
  | nil => exact absurd rfl hne
  | cons v ws ih =>
    rw [List.forall_mem_cons] at h
    obtain ⟨⟨part, hpart, rfl⟩, hws⟩ := h
    by_cases hempty : ws = []
    · subst hempty
      exact ⟨part, .one hpart, by simp⟩
    · obtain ⟨ls, hls, hword⟩ := ih hempty hws
      refine ⟨part ++ none :: ls, .cons hpart hls, ?_⟩
      rw [List.filterMap_append, List.filterMap_cons, hword, List.flatten_cons]
      rfl

/-- `plus` accepts the words that are one or more accepted words in a row. -/
theorem accepts_plus_iff :
    a.plus.Accepts w ↔ ∃ ws : List Word, ws ≠ [] ∧ (∀ v ∈ ws, a.Accepts v) ∧ ws.flatten = w := by
  simp only [accepts_iff (a := a)]
  rw [accepts_iff]
  simp only [plus, Machine.acceptsLabels_plus_iff]
  constructor
  · rintro ⟨ls, hls, rfl⟩
    obtain ⟨ws, hne, hws, hword⟩ := words_of_joined hls
    exact ⟨ws, hne, hws, hword.symm⟩
  · rintro ⟨ws, hne, hws, rfl⟩
    exact exists_joined hne hws

/-- `star` accepts the empty word and what `plus` accepts. -/
theorem accepts_star_iff : a.star.Accepts w ↔ w = [] ∨ a.plus.Accepts w := by
  rw [accepts_iff, accepts_iff]
  simp only [star, plus, Machine.acceptsLabels_star_iff, Machine.acceptsLabels_plus_iff]
  constructor
  · rintro ⟨ls, rfl | ⟨rest, rfl, hrest⟩, rfl⟩
    · exact Or.inl rfl
    · exact Or.inr ⟨rest, hrest, by simp⟩
  · rintro (rfl | ⟨ls, hls, rfl⟩)
    · exact ⟨[], Or.inl rfl, rfl⟩
    · exact ⟨none :: ls, Or.inr ⟨ls, rfl, hls⟩, by simp⟩

theorem acceptsLabels_ofSymbols_iff {ls : List (Option Char)} :
    (ofSymbols cs).AcceptsLabels ls ↔ ∃ c ∈ cs, ls = [some c] := by
  -- State 0 is initial, state 1 accepting, and all moves lead from one to the other.
  have initial_iff (q : Nat) : (ofSymbols cs).isInitial q = true ↔ q = 0 := by
    match q with
    | 0 => simp [Machine.isInitial, ofSymbols]
    | 1 => simp [Machine.isInitial, ofSymbols]
    | q + 2 => simp [Machine.isInitial, ofSymbols]
  have accepting_iff (q : Nat) : (ofSymbols cs).isAccepting q = true ↔ q = 1 := by
    match q with
    | 0 => simp [Machine.isAccepting, ofSymbols]
    | 1 => simp [Machine.isAccepting, ofSymbols]
    | q + 2 => simp [Machine.isAccepting, ofSymbols]
  have moves_zero : (ofSymbols cs).moves 0 = (ascending cs).map fun c => (some c, 1) := rfl
  have moves_one : (ofSymbols cs).moves 1 = [] := rfl
  constructor
  · rintro ⟨p, q, hp, hpath, hq⟩
    obtain rfl := (initial_iff p).mp hp
    obtain rfl := (accepting_iff q).mp hq
    -- A path goes at most one move far.
    cases hpath with
    | @cons _ t _ l ls hmove hpath =>
      rw [moves_zero] at hmove
      obtain ⟨c, hc, he⟩ := List.mem_map.mp hmove
      cases he
      cases hpath with
      | nil => exact ⟨c, mem_ascending.mp hc, rfl⟩
      | cons hmove => rw [moves_one] at hmove; cases hmove
  · rintro ⟨c, hc, rfl⟩
    refine ⟨0, 1, (initial_iff 0).mpr rfl, .single ?_, (accepting_iff 1).mpr rfl⟩
    rw [moves_zero]
    exact List.mem_map.mpr ⟨c, mem_ascending.mpr hc, rfl⟩

theorem accepts_ofSymbols_iff : (ofSymbols cs).Accepts w ↔ ∃ c ∈ cs, w = [c] := by
  rw [accepts_iff]
  simp only [acceptsLabels_ofSymbols_iff]
  constructor
  · rintro ⟨ls, ⟨c, hc, rfl⟩, rfl⟩
    exact ⟨c, hc, rfl⟩
  · rintro ⟨c, hc, rfl⟩
    exact ⟨[some c], ⟨c, hc, rfl⟩, rfl⟩

theorem wellFormed_ofSymbols (cs : List Char) : (ofSymbols cs).WellFormed := by
  rw [Machine.wellFormed_iff]
  simp only [ofSymbols, Machine.size, List.mem_cons, List.not_mem_nil, or_false]
  constructor
  · rintro _ (rfl | rfl) move hmove
    · obtain ⟨c, _, rfl⟩ := List.mem_map.mp hmove
      exact Nat.lt_succ_self 1
    · cases hmove
  · exact ⟨_, Or.inl rfl, rfl⟩

/-- The words over some symbols, the empty one excepted. -/
theorem accepts_plus_ofSymbols_iff :
    (ofSymbols cs).plus.Accepts w ↔ w ≠ [] ∧ ∀ c ∈ w, c ∈ cs := by
  rw [accepts_plus_iff]
  simp only [accepts_ofSymbols_iff]
  constructor
  · rintro ⟨ws, hne, hws, rfl⟩
    refine ⟨fun hnil => ?_, fun c hc => ?_⟩
    · obtain ⟨v, hv⟩ := List.exists_mem_of_ne_nil ws hne
      obtain ⟨c, _, rfl⟩ := hws v hv
      exact List.cons_ne_nil c [] (List.flatten_eq_nil_iff.mp hnil _ hv)
    · obtain ⟨v, hv, hc⟩ := List.mem_flatten.mp hc
      obtain ⟨e, he, rfl⟩ := hws v hv
      exact List.mem_singleton.mp hc ▸ he
  · rintro ⟨hne, hw⟩
    refine ⟨w.map fun c => [c], by simpa using hne, fun v hv => ?_, ?_⟩
    · obtain ⟨c, hc, rfl⟩ := List.mem_map.mp hv
      exact ⟨c, hw c hc, rfl⟩
    · rw [← List.flatMap_def, List.flatMap_singleton']

theorem accepts_star_ofSymbols_iff : (ofSymbols cs).star.Accepts w ↔ ∀ c ∈ w, c ∈ cs := by
  rw [accepts_star_iff, accepts_plus_ofSymbols_iff]
  by_cases hw : w = [] <;> simp [hw]

/-- Labels that read what they are made from read the same word. -/
theorem readsOf_map_reading {output : Option Char → Word} {ls : List (Option Char)} :
    readsOf (ls.map fun l => (l, output l)) = ls.filterMap id := by
  rw [readsOf, List.filterMap_map]
  rfl

/-- Labels that write what they are made from write the same word. -/
theorem writesOf_map_writing {input : Option Char → Option Char} {ls : List (Option Char)} :
    writesOf (ls.map fun l => (input l, l.toList)) = ls.filterMap id := by
  induction ls with
  | nil => rfl
  | cons l ls ih => cases l <;> simp [ih]

/-- The identity of an acceptor maps each accepted word to itself. -/
theorem relates_identity_iff : a.identity.Relates x y ↔ x = y ∧ a.Accepts x := by
  rw [Transducer.relates_iff, accepts_iff]
  simp only [identity, Machine.acceptsLabels_mapLabels_iff]
  constructor
  · rintro ⟨_, ⟨ls, hls, rfl⟩, rfl, rfl⟩
    rw [readsOf_map_reading, writesOf_map_writing]
    exact ⟨rfl, ls, hls, rfl⟩
  · rintro ⟨rfl, ls, hls, rfl⟩
    exact ⟨_, ⟨ls, hls, rfl⟩, readsOf_map_reading, writesOf_map_writing⟩

end Acceptor

namespace Transducer

variable {m : Transducer} {c : Char} {x y : Word}

/-- The domain of a transducer accepts the words that have an output. -/
theorem accepts_domain_iff : m.domain.Accepts x ↔ ∃ y, m.Relates x y := by
  have reads_map (ls : List (Option Char × Word)) : (ls.map (·.1)).filterMap id = readsOf ls := by
    simp [readsOf, List.filterMap_map]
  simp only [relates_iff, Acceptor.accepts_iff, domain, Machine.acceptsLabels_mapLabels_iff]
  constructor
  · rintro ⟨_, ⟨ls, hls, rfl⟩, rfl⟩
    exact ⟨writesOf ls, ls, hls, (reads_map ls).symm, rfl⟩
  · rintro ⟨_, ls, hls, rfl, rfl⟩
    exact ⟨_, ⟨ls, hls, rfl⟩, reads_map ls⟩

/-- The input alphabet holds the symbols that the moves read and no others. -/
theorem mem_inputAlphabet_iff : c ∈ m.inputAlphabet ↔ ∃ p w q, ((some c, w), q) ∈ m.moves p := by
  simp only [inputAlphabet, mem_ascending, List.mem_flatMap, List.mem_filterMap]
  constructor
  · intro h
    obtain ⟨n, hn, ⟨⟨l, w⟩, q⟩, hmove, rfl⟩ := h
    obtain ⟨p, hp⟩ := Machine.exists_mem_moves_iff.mpr ⟨n, hn, hmove⟩
    exact ⟨p, w, q, hp⟩
  · intro h
    obtain ⟨p, w, q, hmove⟩ := h
    obtain ⟨n, hn, hmove⟩ := Machine.exists_mem_moves_iff.mp ⟨p, hmove⟩
    exact ⟨n, hn, _, hmove, rfl⟩

/-- What is read along a path is over the input alphabet. -/
theorem mem_inputAlphabet_of_path {p q : Nat} {ls : List (Option Char × Word)}
    (h : Path m.moves p ls q) : ∀ c ∈ readsOf ls, c ∈ m.inputAlphabet := by
  induction h with
  | nil => simp
  | @cons k t r l ls hmove _ ih =>
    obtain ⟨label, w⟩ := l
    intro c hc
    rw [readsOf_cons, List.mem_append] at hc
    rcases hc with hc | hc
    · cases label with
      | none => cases hc
      | some e =>
        obtain rfl := List.mem_singleton.mp hc
        exact mem_inputAlphabet_iff.mpr ⟨_, _, _, hmove⟩
    · exact ih c hc

theorem mem_inputAlphabet_of_relates (h : m.Relates x y) : ∀ c ∈ x, c ∈ m.inputAlphabet := by
  obtain ⟨ls, ⟨_, _, _, hpath, _⟩, rfl, _⟩ := relates_iff.mp h
  exact mem_inputAlphabet_of_path hpath

end Transducer

namespace Rewriter

variable {rule : Transducer} {x y : Word}

theorem wellFormed_nonEmptyInputs : (nonEmptyInputs rule).WellFormed := by
  rw [nonEmptyInputs, Acceptor.identity, Acceptor.plus]
  exact Machine.wellFormed_mapLabels (Machine.wellFormed_plus (Acceptor.wellFormed_ofSymbols _))

theorem wellFormed_properRule : (properRule rule).WellFormed := Transducer.wellFormed_compose

/-- A rule restricted to non-empty inputs. -/
theorem relates_properRule_iff (hr : rule.Closed) :
    (properRule rule).Relates x y ↔ x ≠ [] ∧ rule.Relates x y := by
  rw [properRule, Transducer.relates_compose wellFormed_nonEmptyInputs.closed hr]
  simp only [nonEmptyInputs, Acceptor.relates_identity_iff, Acceptor.accepts_plus_ofSymbols_iff]
  constructor
  · rintro ⟨_, ⟨rfl, hne, _⟩, h⟩
    exact ⟨hne, h⟩
  · rintro ⟨hne, h⟩
    exact ⟨x, ⟨rfl, hne, Transducer.mem_inputAlphabet_of_relates h⟩, h⟩

end Rewriter

end Transduction
