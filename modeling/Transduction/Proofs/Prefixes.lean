/-
Left automata of real-time transducers.

A left state is a choice, and the choice behind a prefix names a state of the
transducer for each class of suffixes that the prefix can go on with, and for no other:

* `RealTime.choiceOf`, `RealTime.follow_left` — the choice behind a prefix, to which the
  left automaton moves;
* `RealTime.Chooses` — what the choice behind a prefix names;
* `RealTime.chooses` — that is kept symbol by symbol;
* `RealTime.exists_choiceOf_iff` — the prefixes that the left automaton can read;
* `Bimachine.mem_keys_unmerged_iff`, `Bimachine.mem_keys_ofRealTime_iff` — the keys of the
  table, before and after right states are merged;
* `Transducer.mem_keys_toBimachine_iff` — the keys of the table of a transducer.
-/
import Transduction.Proofs.Choices

namespace Transduction

namespace RealTime

variable {m : RealTime} {symbols : List Char} {choice choice' : Choice} {k : Suffixes}
  {q t r l : Nat} {c : Char} {p v w y : Word}

/-! ### The choice behind a prefix -/

/-- The choice behind a symbol, unless no class of suffixes is left. -/
def nextChoice (m : RealTime) (symbols : List Char) (choice : Choice) (c : Char) :
    Option Choice :=
  if c ∈ symbols then
    (m.choiceMove (m.right symbols) (m.completingSets symbols) choice c).map (·.target)
  else none

/-- The choice behind a prefix, unless no class of suffixes is left. -/
def choiceOf (m : RealTime) (symbols : List Char) (p : Word) : Option Choice :=
  follow (m.nextChoice symbols) (m.initialChoice (m.completingSets symbols)) p

theorem choiceOf_concat_eq_some : m.choiceOf symbols (p ++ [c]) = some choice' ↔
    ∃ choice, m.choiceOf symbols p = some choice ∧
      m.nextChoice symbols choice c = some choice' := by
  rw [choiceOf, follow_concat, Option.bind_eq_some_iff]
  rfl

/-- The left automaton moves from choice to choice. -/
theorem follow_left (hm : m.Closed) (symbols : List Char) (p : Word) :
    Option.Rel (m.IsChoice symbols)
      (follow (Bimachine.unmerged m symbols).left.delta (Bimachine.unmerged m symbols).left.start p)
      (m.choiceOf symbols p) := by
  have left_eq : (Bimachine.unmerged m symbols).left =
      leftAutomaton (m.choices (m.right symbols) (m.completingSets symbols) symbols) := rfl
  rw [left_eq, leftAutomaton, map_choices]
  refine Dfa.follow_ofExploration Function.injective_id fits_initialChoice
    (fun _ _ _ _ h => fits_target hm h) (fun _ => mem_choicesAmong_of_fits) length_choicesAmong_le
    (fun choice c => ?_) p
  rw [successors_eq, lookup_filterMap_symbols fun _ => map_choiceMove]
  rfl

/-- Some prefix leads to every left state. -/
theorem exists_prefix (hl : m.IsChoice symbols l choice) :
    ∃ p, m.choiceOf symbols p = some choice := by
  obtain ⟨⟨found, moves⟩, hentry, hchoice⟩ := hl
  obtain rfl : found = choice := hchoice
  refine Dfa.exists_follow_of_mem_foundFrom (fun choice c t ht => ?_) (List.mem_of_getElem? hentry)
  rw [successors_eq, mem_filterMap_symbols fun _ => map_choiceMove] at ht
  rw [nextChoice, if_pos ht.1, ht.2]

/-- What the choice behind a symbol consists of. -/
theorem of_nextChoice (h : m.nextChoice symbols choice c = some choice') : c ∈ symbols ∧
    (∃ (r : Nat) (best : Nat × Word),
      (m.bestMoves (m.right symbols) (m.completingSets symbols) choice c)[r]? = some (some best)) ∧
    choice' = (m.bestMoves (m.right symbols) (m.completingSets symbols) choice c).map
      fun best => best.map (·.1) := by
  rw [nextChoice] at h
  split at h
  · rename_i hc
    obtain ⟨move, hmove, rfl⟩ := Option.map_eq_some_iff.mp h
    exact ⟨hc, exists_bestMoves_of_choiceMove hmove, (of_choiceMove hmove).2.1⟩
  · cases h

theorem mem_symbols_of_choiceOf (h : m.choiceOf symbols p = some choice) :
    ∀ c ∈ p, c ∈ symbols := by
  induction p using List.reverseRecOn generalizing choice with
  | nil => exact fun c hc => absurd hc List.not_mem_nil
  | append_singleton p c ih =>
    obtain ⟨before, hbefore, hnext⟩ := choiceOf_concat_eq_some.mp h
    intro d hd
    rcases List.mem_append.mp hd with hd | hd
    · exact ih hbefore d hd
    · exact List.mem_singleton.mp hd ▸ (of_nextChoice hnext).1

/-! ### What a choice names -/

/-- Some initial state leads to the state on the word. -/
def Arrives (m : RealTime) (p : Word) (q : Nat) : Prop :=
  ∃ i v, m.isInitial i = true ∧ m.Run i p v q

theorem Arrives.concat (h : m.Arrives p q) (hmove : (c, v, t) ∈ m.moves q) :
    m.Arrives (p ++ [c]) t := by
  obtain ⟨i, u, hi, hrun⟩ := h
  exact ⟨i, u ++ v, hi, hrun.append (by simpa using Run.cons hmove (.nil t))⟩

/-- A word has an output when a state that its front leads to completes the rest. -/
theorem exists_relates_append_iff : (∃ y, m.Relates (p ++ w) y) ↔
    ∃ q y, m.Arrives p q ∧ m.Completes q w y := by
  constructor
  · intro h
    obtain ⟨y, i, hi, hy⟩ := h
    obtain ⟨q, u, z, hrun, hz, _⟩ := completes_append_iff.mp hy
    exact ⟨q, z, ⟨i, u, hi, hrun⟩, hz⟩
  · intro h
    obtain ⟨q, z, ⟨i, u, hi, hrun⟩, hz⟩ := h
    exact ⟨u ++ z, i, hi, completes_append_iff.mpr ⟨q, u, z, hrun, hz, rfl⟩⟩

/-- The choice behind a prefix names, for each class of suffixes, a state that the
prefix leads to and that completes the suffixes, wherever there is one. -/
structure Chooses (m : RealTime) (symbols : List Char) (p : Word) (choice : Choice) : Prop where
  arrives : ∀ r k q, m.IsClass symbols r k → choice[r]? = some (some q) →
    m.Arrives p q ∧ q ∈ m.completing k
  exists_chosen : ∀ r k w, m.IsClass symbols r k → m.classOf symbols w = some k →
    (∃ y, m.Relates (p ++ w) y) → ∃ q, choice[r]? = some (some q)

theorem getElem?_bestMoves_of_isClass (hr : m.IsClass symbols r k) :
    (m.bestMoves (m.right symbols) (m.completingSets symbols) choice c)[r]? =
      some (((m.right symbols).delta r c).bind fun before =>
        ((choice[before]?).join).bind fun q => m.bestMove q c (m.completing k)) := by
  rw [getElem?_bestMoves, getElem?_completingSets hr]
  rfl

theorem chooses_initialChoice :
    m.Chooses symbols [] (m.initialChoice (m.completingSets symbols)) := by
  have initialChoice_eq {r : Nat} {k : Suffixes} (hr : m.IsClass symbols r k) :
      (m.initialChoice (m.completingSets symbols))[r]? =
        some (m.initialStates.find? (m.completing k).contains) := by
    rw [initialChoice, List.getElem?_map, getElem?_completingSets hr]
    rfl
  constructor
  · intro r k q hr hq
    rw [initialChoice_eq hr, Option.some.injEq] at hq
    have hinit := mem_initialStates.mp (List.mem_of_find?_eq_some hq)
    exact ⟨⟨q, [], hinit, .nil q⟩, List.find?_some hq⟩
  · intro r k w hr hw h
    obtain ⟨y, q, hinit, hy⟩ := h
    obtain ⟨q₀, hfind⟩ : ∃ q₀, m.initialStates.find? (m.completing k).contains = some q₀ := by
      rw [← Option.isSome_iff_exists, List.find?_isSome]
      exact ⟨q, mem_initialStates.mpr hinit, (mem_completing_iff hw).mpr ⟨y, hy⟩⟩
    exact ⟨q₀, by rw [initialChoice_eq hr, hfind]⟩

namespace Chooses

variable (h : m.Chooses symbols p choice) (hr : m.IsClass symbols r k)

include h hr

/-- A best move goes on from where the prefix leads to where the suffixes are completed. -/
theorem of_bestMoves
    (hbest : (m.bestMoves (m.right symbols) (m.completingSets symbols) choice c)[r]? =
      some (some (t, v))) : m.Arrives (p ++ [c]) t ∧ t ∈ m.completing k := by
  rw [getElem?_bestMoves_of_isClass hr, Option.some.injEq] at hbest
  obtain ⟨before, hdelta, hbest⟩ := Option.bind_eq_some_iff.mp hbest
  obtain ⟨q, hq, hbest⟩ := Option.bind_eq_some_iff.mp hbest
  obtain ⟨hmove, ht⟩ := of_bestMove hbest
  -- the state in front of the symbol is that of a suffix, one symbol longer
  obtain ⟨w, hw⟩ := exists_suffix hr
  have hbehind : (Bimachine.unmerged m symbols).behind (c :: w) = some before := by
    rw [Bimachine.behind_cons, behind_eq hw hr, Option.bind_some]
    exact hdelta
  have hrel := m.follow_right symbols (c :: w)
  rw [show follow (m.right symbols).delta (m.right symbols).start (c :: w).reverse = some before
    from hbehind] at hrel
  obtain ⟨k', _, hbefore⟩ := rel_some_left hrel
  exact ⟨(h.arrives before k' q hbefore (Option.join_eq_some_iff.mp hq)).1.concat hmove, ht⟩

/-- Where the prefix goes on with the symbol and a suffix, the class of the suffix has a
best move. -/
theorem exists_bestMoves (hw : m.classOf symbols w = some k) (hc : c ∈ symbols)
    (hrelates : ∃ y, m.Relates (p ++ c :: w) y) : ∃ best : Nat × Word,
      (m.bestMoves (m.right symbols) (m.completingSets symbols) choice c)[r]? =
        some (some best) := by
  obtain ⟨q₀, y, _, hy⟩ := exists_relates_append_iff.mp hrelates
  obtain ⟨k', hw'⟩ : ∃ k', m.classOf symbols (c :: w) = some k' :=
    exists_classOf (List.forall_mem_cons.mpr ⟨hc, mem_symbols_of_classOf hw⟩) hy
  obtain ⟨before, hbefore, hclass⟩ := exists_behind hw'
  rw [Bimachine.behind_cons, behind_eq hw hr, Option.bind_some] at hbefore
  obtain ⟨q, hq⟩ := h.exists_chosen before k' (c :: w) hclass hw' hrelates
  -- the chosen state completes the longer suffix, so it has a move
  have hcompleting := (h.arrives before k' q hclass hq).2
  rw [classOf_cons, hw, Option.bind_some] at hw'
  obtain ⟨_, _, rfl⟩ := lengthen_eq_some.mp hw'
  obtain ⟨u, t, hmove, ht⟩ := mem_retreat.mp hcompleting
  obtain ⟨s, x, hbest⟩ := exists_bestMove hmove ht
  refine ⟨(s, x), ?_⟩
  rw [getElem?_bestMoves_of_isClass hr, show (m.right symbols).delta r c = some before from hbefore,
    Option.bind_some, hq, Option.join_some, Option.bind_some, hbest]

end Chooses

/-- A symbol keeps what a choice names. -/
theorem Chooses.next (h : m.Chooses symbols p choice)
    (hnext : m.nextChoice symbols choice c = some choice') :
    m.Chooses symbols (p ++ [c]) choice' := by
  obtain ⟨hc, _, rfl⟩ := of_nextChoice hnext
  constructor
  · intro r k t hr ht
    rw [List.getElem?_map, Option.map_eq_some_iff] at ht
    obtain ⟨best, hbest, ht⟩ := ht
    obtain ⟨⟨_, v⟩, rfl, rfl⟩ := Option.map_eq_some_iff.mp ht
    exact h.of_bestMoves hr hbest
  · intro r k w hr hw hrelates
    rw [List.append_assoc, List.singleton_append] at hrelates
    obtain ⟨best, hbest⟩ := h.exists_bestMoves hr hw hc hrelates
    exact ⟨best.1, by rw [List.getElem?_map, hbest]; rfl⟩

/-- The choice behind a prefix names what it should. -/
theorem chooses (h : m.choiceOf symbols p = some choice) : m.Chooses symbols p choice := by
  induction p using List.reverseRecOn generalizing choice with
  | nil =>
    obtain rfl := Option.some.inj h
    exact chooses_initialChoice
  | append_singleton p c ih =>
    obtain ⟨before, hbefore, hnext⟩ := choiceOf_concat_eq_some.mp h
    exact (ih hbefore).next hnext

/-- Where there is a best move, the prefix goes on with the symbol and a suffix of the
class. -/
theorem Chooses.exists_suffix_of_bestMoves {best : Nat × Word} (h : m.Chooses symbols p choice)
    (hbest : (m.bestMoves (m.right symbols) (m.completingSets symbols) choice c)[r]? =
      some (some best)) :
    ∃ k s, m.IsClass symbols r k ∧ m.classOf symbols s = some k ∧
      ∃ y, m.Relates (p ++ c :: s) y := by
  obtain ⟨entry, hentry⟩ : ∃ entry, (m.suffixClasses symbols)[r]? = some entry := by
    rw [getElem?_bestMoves, completingSets, List.getElem?_map, Option.map_map,
      Option.map_eq_some_iff] at hbest
    exact ⟨_, hbest.choose_spec.1⟩
  have hr : m.IsClass symbols r entry.1 := ⟨entry, hentry, rfl⟩
  obtain ⟨s, hs⟩ := exists_suffix hr
  obtain ⟨harrives, ht⟩ := h.of_bestMoves hr hbest
  obtain ⟨y, hy⟩ := (mem_completing_iff hs).mp ht
  refine ⟨entry.1, s, hr, hs, ?_⟩
  rw [← List.singleton_append, ← List.append_assoc]
  exact exists_relates_append_iff.mpr ⟨best.1, y, harrives, hy⟩

/-! ### Prefixes that can be read -/

/-- A choice moves on a symbol when some suffix over the symbols completes a word. -/
theorem Chooses.exists_nextChoice_iff (h : m.Chooses symbols p choice) :
    (∃ choice', m.nextChoice symbols choice c = some choice') ↔
      ∃ s, (∀ d ∈ c :: s, d ∈ symbols) ∧ ∃ y, m.Relates (p ++ c :: s) y := by
  constructor
  · intro hnext
    obtain ⟨_, hnext⟩ := hnext
    obtain ⟨hc, ⟨r, best, hbest⟩, _⟩ := of_nextChoice hnext
    obtain ⟨k, s, _, hs, hrelates⟩ := h.exists_suffix_of_bestMoves hbest
    exact ⟨s, List.forall_mem_cons.mpr ⟨hc, mem_symbols_of_classOf hs⟩, hrelates⟩
  · intro hs
    obtain ⟨s, hs, hrelates⟩ := hs
    rw [List.forall_mem_cons] at hs
    obtain ⟨q, y, _, hy⟩ := exists_relates_append_iff.mp hrelates
    cases hy with
    | cons _ hy =>
      obtain ⟨k, hk⟩ := exists_classOf hs.2 hy
      obtain ⟨r, _, hr⟩ := exists_behind hk
      obtain ⟨best, hbest⟩ := h.exists_bestMoves hr hk hs.1 hrelates
      obtain ⟨move, hmove⟩ := exists_choiceMove hbest
      exact ⟨move.target, by rw [nextChoice, if_pos hs.1, hmove]; rfl⟩

/-- The left automaton can read the empty prefix, and the prefixes of the words over the
symbols that have an output. -/
theorem exists_choiceOf_iff : (∃ choice, m.choiceOf symbols p = some choice) ↔
    p = [] ∨ ∃ s, (∀ c ∈ p ++ s, c ∈ symbols) ∧ ∃ y, m.Relates (p ++ s) y := by
  induction p using List.reverseRecOn with
  | nil => exact iff_of_true ⟨_, rfl⟩ (Or.inl rfl)
  | append_singleton p c ih =>
    have hne : p ++ [c] ≠ [] := by simp
    simp only [hne, false_or, List.append_assoc, List.singleton_append]
    constructor
    · intro h
      obtain ⟨choice', h⟩ := h
      obtain ⟨choice, hchoice, hnext⟩ := choiceOf_concat_eq_some.mp h
      obtain ⟨s, hs, hrelates⟩ := (chooses hchoice).exists_nextChoice_iff.mp ⟨choice', hnext⟩
      exact ⟨s, List.forall_mem_append.mpr ⟨mem_symbols_of_choiceOf hchoice, hs⟩, hrelates⟩
    · intro h
      obtain ⟨s, hs, hrelates⟩ := h
      obtain ⟨choice, hchoice⟩ := ih.mpr (Or.inr ⟨c :: s, hs, hrelates⟩)
      obtain ⟨choice', hnext⟩ := (chooses hchoice).exists_nextChoice_iff.mpr
        ⟨s, (List.forall_mem_append.mp hs).2, hrelates⟩
      exact ⟨choice', choiceOf_concat_eq_some.mpr ⟨choice, hchoice, hnext⟩⟩

end RealTime

/-! ### Keys of the table -/

namespace Bimachine

variable {m : RealTime} {symbols : List Char} {l r : Nat} {c : Char}

/-- The table has an entry for each best move of a choice. -/
theorem mem_table_unmerged_iff {v : Word} : ((l, c, r), v) ∈ (unmerged m symbols).table ↔
    ∃ choice, m.IsChoice symbols l choice ∧ c ∈ symbols ∧ ∃ best,
      (m.bestMoves (m.right symbols) (m.completingSets symbols) choice c)[r]? =
        some (some best) ∧ v = m.fragment r best := by
  rw [← functional_unmerged.output?_eq_some_iff, RealTime.table_unmerged,
    RealTime.output?_outputTable]
  constructor
  · intro h
    obtain ⟨choice, moves, hl, hc, hbest⟩ := h
    have moves_eq : moves = m.choiceMoves _ _ symbols choice :=
      snd_of_mem_explore (List.mem_of_getElem? hl)
    rw [moves_eq] at hl
    exact ⟨choice, RealTime.standsFor_choice_iff.mpr hl, hc, hbest⟩
  · intro h
    obtain ⟨choice, hl, hc, hbest⟩ := h
    exact ⟨choice, _, RealTime.standsFor_choice_iff.mp hl, hc, hbest⟩

/-- Before right states are merged, the keys are the symbols of the words with an output,
each between the states that the rest of the word leads to. -/
theorem mem_keys_unmerged_iff (hm : m.Closed) :
    (∃ v, ((l, c, r), v) ∈ (unmerged m symbols).table) ↔
      ∃ p s, (∀ d ∈ p ++ c :: s, d ∈ symbols) ∧ (∃ y, m.Relates (p ++ c :: s) y) ∧
        follow (unmerged m symbols).left.delta (unmerged m symbols).left.start p = some l ∧
        (unmerged m symbols).behind s = some r := by
  simp only [mem_table_unmerged_iff]
  constructor
  -- A choice is reached by some front of a word, and a best move of it goes on to some rest.
  · intro h
    obtain ⟨_, choice, hl, hc, best, hbest, _⟩ := h
    obtain ⟨p, hp⟩ := RealTime.exists_prefix hl
    obtain ⟨k, s, hr, hs, hrelates⟩ := (RealTime.chooses hp).exists_suffix_of_bestMoves hbest
    refine ⟨p, s, ?_, hrelates, ?_, RealTime.behind_eq hs hr⟩
    · exact List.forall_mem_append.mpr ⟨RealTime.mem_symbols_of_choiceOf hp,
        List.forall_mem_cons.mpr ⟨hc, RealTime.mem_symbols_of_classOf hs⟩⟩
    · have hrel := RealTime.follow_left hm symbols p
      rw [hp] at hrel
      obtain ⟨l', hl', hstands⟩ := rel_some_right hrel
      rw [hl', hstands.unique hl]
  -- Along the word the left automaton keeps its choice and the right one the class of the rest.
  · intro h
    obtain ⟨p, s, hsymbols, hrelates, hl, hr⟩ := h
    have hrel := RealTime.follow_left hm symbols p
    rw [hl] at hrel
    obtain ⟨choice, hp, hstands⟩ := rel_some_left hrel
    have hrel := m.follow_right symbols s
    rw [show follow (m.right symbols).delta (m.right symbols).start s.reverse = some r from hr]
      at hrel
    obtain ⟨k, hk, hclass⟩ := rel_some_left hrel
    have hc : c ∈ symbols := hsymbols c (by simp)
    obtain ⟨best, hbest⟩ := (RealTime.chooses hp).exists_bestMoves hclass hk hc hrelates
    exact ⟨_, choice, hstands, hc, best, hbest, rfl⟩

/-- Merging right states keeps what the keys say. -/
theorem mem_keys_ofRealTime_iff (hm : m.Closed) (hsymbols : symbols.Pairwise (· < ·)) :
    (∃ v, ((l, c, r), v) ∈ (ofRealTime m symbols).table) ↔
      ∃ p s, (∀ d ∈ p ++ c :: s, d ∈ symbols) ∧ (∃ y, m.Relates (p ++ c :: s) y) ∧
        follow (ofRealTime m symbols).left.delta (ofRealTime m symbols).left.start p = some l ∧
        (ofRealTime m symbols).behind s = some r := by
  have hright : (unmerged m symbols).right.WellFormed := RealTime.wellFormed_right hsymbols
  have behind_rel (s : Word) : Option.Rel
      (Dfa.GoesTo (mergedStates (unmerged m symbols).right (unmerged m symbols).table))
      ((ofRealTime m symbols).behind s) ((unmerged m symbols).behind s) :=
    behind_mergeRight hright (unmerged m symbols).left (unmerged m symbols).table s
  have mem_iff (v : Word) : ((l, c, r), v) ∈ (ofRealTime m symbols).table ↔ ∃ r₀,
      Dfa.GoesTo (mergedStates (unmerged m symbols).right (unmerged m symbols).table) r r₀ ∧
        ((l, c, r₀), v) ∈ (unmerged m symbols).table :=
    mem_table_mergeRight hright functional_unmerged
  -- A merged right state stands for a state it was merged from, and for that one the keys are
  -- known.
  simp only [mem_iff]
  constructor
  · intro h
    obtain ⟨v, r₀, hgoes, hmem⟩ := h
    obtain ⟨p, s, hps, hrelates, hl, hr₀⟩ := (mem_keys_unmerged_iff hm).mp ⟨v, hmem⟩
    have hrel := behind_rel s
    rw [hr₀] at hrel
    obtain ⟨r', hr', hgoes'⟩ := rel_some_right hrel
    obtain rfl : r' = r := Option.some.inj (hgoes'.symm.trans hgoes)
    exact ⟨p, s, hps, hrelates, hl, hr'⟩
  · intro h
    obtain ⟨p, s, hps, hrelates, hl, hr⟩ := h
    have hrel := behind_rel s
    rw [hr] at hrel
    obtain ⟨r₀, hr₀, hgoes⟩ := rel_some_left hrel
    obtain ⟨v, hmem⟩ := (mem_keys_unmerged_iff hm).mpr ⟨p, s, hps, hrelates, hl, hr₀⟩
    exact ⟨v, r₀, hgoes, hmem⟩

end Bimachine

namespace Transducer

/-- The keys of the table of a bimachine are the symbols of the words over the alphabet in
the domain, each between the left state that the front of the word leads to and the right
state that the rest leads to, read from its end. -/
theorem mem_keys_toBimachine_iff (f : Transducer) (hf : f.WellFormed) (A : List Char)
    (m : RealTime) (h : f.toRealTime = .ok m) :
    ∃ b, f.toBimachine A = .ok b ∧ ∀ l a r, (∃ v, ((l, a, r), v) ∈ b.table) ↔
      ∃ p s, (∀ c ∈ p ++ a :: s, c ∈ A) ∧ (∃ y, f.Relates (p ++ a :: s) y) ∧
        follow b.left.delta b.left.start p = some l ∧
        follow b.right.delta b.right.start s.reverse = some r := by
  refine ⟨_, toBimachine_eq_ok_iff.mpr ⟨m, h, rfl⟩, fun l a r => ?_⟩
  rw [Bimachine.mem_keys_ofRealTime_iff (closed_of_toRealTime hf.closed h)
    (ascending_symbols_pairwise A)]
  simp only [mem_ascending, relates_of_toRealTime hf.closed h]
  rfl

/-- The one symbol of the word `a` is read between the start states, and no key has a
symbol outside the alphabet. -/
theorem mem_keys_toBimachine_iff_marksLast :
    marksLast.WellFormed ∧ marksLast.toRealTime = .ok marksLast.trim.folded ∧
    ∃ b, marksLast.toBimachine ['a'] = .ok b ∧
      (∃ v, ((b.left.start, 'a', b.right.start), v) ∈ b.table) ∧
      ∀ l r v, ((l, 'b', r), v) ∉ b.table := by
  have hm : marksLast.WellFormed := by decide
  have real : marksLast.toRealTime = .ok marksLast.trim.folded := by decide
  have one : marksLast.process ['a'] = .ok [['A', '>'], ['B', '>']] := by decide
  obtain ⟨b, hb, keys⟩ := mem_keys_toBimachine_iff marksLast hm ['a'] _ real
  refine ⟨hm, real, b, hb, (keys _ _ _).mpr ⟨[], [], by simp, ?_, rfl, rfl⟩, fun l r v hv => ?_⟩
  · exact ⟨['A', '>'], (mem_of_process_iff hm.closed one).mp (by simp)⟩
  · obtain ⟨p, s, hps, _⟩ := (keys l 'b' r).mp ⟨v, hv⟩
    have hb := hps 'b' (by simp)
    simp at hb

end Transducer

end Transduction
