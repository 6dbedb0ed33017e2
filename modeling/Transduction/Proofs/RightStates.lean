/-
The states of a right automaton.

The right automaton of a bimachine reads a word from its end.  State 0 stands for the empty
suffix: the classes of other suffixes are found under keys of their own, so no move enters it.
Merging keeps that, since state 0 is alone in its class of the partition that refinement starts
from; and as refinement ends with the classes that no word tells apart, any two states that are
left differ in what their runs show:

* `RealTime.of_delta_right` — a move reads one of the symbols and does not enter state 0;
* `Bimachine.Orderly` — what holds before right states are merged, and is relied on;
* `Bimachine.Orderly.delta_merged_ne_zero` — neither does a move of merged states enter state 0;
* `Bimachine.TellsApart` — what it means that a word tells two right states apart;
* `Bimachine.Orderly.tellsApart_merged` — a word that shows a difference before merging does so
  after it;
* `Bimachine.Orderly.exists_tellsApart` — some word tells any two right states apart;
* `Transducer.right_states_toBimachine` — the right automata of compiled bimachines.
-/
import Transduction.Proofs.Choices
import Transduction.Proofs.Separation

namespace Transduction

/-! ### Before right states are merged -/

namespace RealTime

variable {m : RealTime} {symbols : List Char} {l q r t : Nat} {c : Char} {v w : Word}

/-- A move of the right automaton reads one of the symbols and does not lead to the state of the
empty suffix. -/
theorem of_delta_right (h : (m.right symbols).delta r c = some t) : c ∈ symbols ∧ t ≠ 0 := by
  have hr : r < (m.suffixClasses symbols).length :=
    (Dfa.lt_size_of_delta h).trans_eq Dfa.size_ofExploration
  have hclass : m.IsClass symbols r (m.suffixClasses symbols)[r].1 :=
    ⟨_, List.getElem?_eq_getElem hr, rfl⟩
  obtain ⟨w, hw⟩ := exists_suffix hclass
  have hread : follow (m.right symbols).delta (m.right symbols).start (c :: w).reverse =
      some t := by
    have hbehind : follow (m.right symbols).delta (m.right symbols).start w.reverse = some r :=
      behind_eq hw hclass
    rw [List.reverse_cons, follow_concat, hbehind, Option.bind_some, h]
  have hrel := m.follow_right symbols (c :: w)
  rw [hread] at hrel
  obtain ⟨k, hk, ht⟩ := rel_some_left hrel
  refine ⟨mem_symbols_of_classOf hk c List.mem_cons_self, ?_⟩
  rintro rfl
  exact List.cons_ne_nil c w ((classOf_eq_none_class_iff hk).mp (isClass_zero_iff.mp ht))

/-- The table names left states and symbols only. -/
theorem of_mem_table_unmerged (h : ((l, c, r), v) ∈ (Bimachine.unmerged m symbols).table) :
    l < (Bimachine.unmerged m symbols).left.size ∧ c ∈ symbols := by
  rw [← Bimachine.functional_unmerged.output?_eq_some_iff, table_unmerged,
    output?_outputTable] at h
  obtain ⟨choice, moves, hl, hc, _⟩ := h
  refine ⟨?_, hc⟩
  rw [show (Bimachine.unmerged m symbols).left.size = _ from Dfa.size_ofExploration,
    List.length_map]
  exact (List.getElem?_eq_some_iff.mp hl).1

theorem table_ascending_unmerged : (Bimachine.unmerged m symbols).table.Pairwise
    fun a b => compare a.1 b.1 = .lt := by
  rw [table_unmerged, outputTable]
  exact OutputTable.ofEntries_ascending

end RealTime

namespace Bimachine

variable {left right : Dfa} {table : OutputTable} {p q r s i j : Nat} {l : Nat} {c : Char}
  {u v w : Word}

/-! ### Columns -/

theorem column_ascending (htable : table.Pairwise fun a b => compare a.1 b.1 = .lt) (r : Nat) :
    (column table r).Pairwise fun a b => compare a.1 b.1 = .lt := by
  rw [column]
  refine htable.filterMap _ fun a b hab a' ha b' hb => ?_
  obtain ⟨⟨l, c, s⟩, v⟩ := a
  obtain ⟨⟨l', c', s'⟩, v'⟩ := b
  simp only at ha hb
  split at ha
  · split at hb
    · rename_i hs hs'
      obtain rfl := Option.some.inj ha
      obtain rfl := Option.some.inj hb
      subst hs hs'
      -- the right states are equal, so they do not decide
      have hlex : (compare l l').then ((compare c c').then (compare s' s')) = .lt := hab
      rwa [show compare s' s' = .eq from Std.ReflOrd.compare_self, Ordering.then_eq] at hlex
    · cases hb
  · cases ha

/-- Parts of a table in order are equal if they give the same outputs. -/
theorem column_eq_of_output?_eq (htable : table.Pairwise fun a b => compare a.1 b.1 = .lt)
    (h : ∀ l c, table.output? l c p = table.output? l c q) : column table p = column table q := by
  have hf := OutputTable.functional_of_ascending htable
  refine eq_of_keys_ascending (column_ascending htable p) (column_ascending htable q)
    fun entry => ?_
  obtain ⟨⟨l, c⟩, v⟩ := entry
  rw [mem_column, mem_column, ← hf.output?_eq_some_iff, ← hf.output?_eq_some_iff, h]

/-! ### Merged right states -/

/-- The word tells two right states apart: one of them can read it and the other one cannot, or
both read it, to states that differ in acceptance or in the output of some left state and symbol. -/
def TellsApart (b : Bimachine) (symbols : List Char) (u : Word) (p q : Nat) : Prop :=
  (∃ s, follow b.right.delta p u = some s ∧ follow b.right.delta q u = none) ∨
  (∃ s, follow b.right.delta p u = none ∧ follow b.right.delta q u = some s) ∨
  ∃ s t, follow b.right.delta p u = some s ∧ follow b.right.delta q u = some t ∧
    (b.right.isAccepting s ≠ b.right.isAccepting t ∨
      ∃ l < b.left.size, ∃ c ∈ symbols, b.table.output? l c s ≠ b.table.output? l c t)

/-- What is relied on where right states are merged: state 0 is the start state and no move leads
to it, moves and table are over the symbols, and the table is in order. -/
structure Orderly (b : Bimachine) (symbols : List Char) : Prop where
  wellFormed : b.right.WellFormed
  start_eq : b.right.start = 0
  delta_ne_zero : ∀ q c, b.right.delta q c ≠ some 0
  symbol_mem : ∀ q c t, b.right.delta q c = some t → c ∈ symbols
  table_ascending : b.table.Pairwise fun x y => compare x.1 y.1 = .lt
  key_mem : ∀ l c r v, ((l, c, r), v) ∈ b.table → l < b.left.size ∧ c ∈ symbols

theorem orderly_unmerged {m : RealTime} {symbols : List Char}
    (hsymbols : symbols.Pairwise (· < ·)) : (unmerged m symbols).Orderly symbols where
  wellFormed := RealTime.wellFormed_right hsymbols
  start_eq := rfl
  delta_ne_zero _ _ h := (RealTime.of_delta_right h).2 rfl
  symbol_mem _ _ _ h := (RealTime.of_delta_right h).1
  table_ascending := RealTime.table_ascending_unmerged
  key_mem _ _ _ _ h := RealTime.of_mem_table_unmerged h

/-- The bimachine in which right states have merged. -/
abbrev merged (b : Bimachine) : Bimachine := mergeRight b.left b.right b.table

section merged

variable {b : Bimachine} {symbols : List Char} (hb : b.Orderly symbols)

include hb

theorem Orderly.goesTo_zero : Dfa.GoesTo (mergedStates b.right b.table) 0 0 := by
  have hstart := (merges_columnPartition hb.wellFormed b.table).start
  rwa [hb.start_eq] at hstart

/-- A word that can be read from another state than 0 does not lead to state 0. -/
theorem Orderly.follow_ne_zero (hp : p ≠ 0) (h : follow b.right.delta p w = some r) : r ≠ 0 :=
  follow_keeps (P := (· ≠ 0)) (fun q c t _ ht => by
    rintro rfl
    exact hb.delta_ne_zero q c ht) hp h

/-- State 0 is alone in its class, so merging leaves no move to it. -/
theorem Orderly.delta_merged_ne_zero : b.merged.right.delta i c ≠ some 0 := by
  intro h
  have hmerges := merges_columnPartition hb.wellFormed b.table
  obtain ⟨p, _, hp, _⟩ := Dfa.exists_goesTo hb.wellFormed (Dfa.lt_size_of_delta h)
  have hdelta : Option.Rel (Dfa.GoesTo (mergedStates b.right b.table)) (b.merged.right.delta i c)
      (b.right.delta p c) := hmerges.delta i p c hp
  rw [h] at hdelta
  obtain ⟨t, ht, hgoes⟩ := rel_some_left hdelta
  have hprofile := (columnPartition_eq_iff (hmerges.lt_size 0 t hgoes)
    (hmerges.lt_size 0 0 hb.goesTo_zero)).mp (hmerges.inside 0 t 0 hgoes hb.goesTo_zero)
  obtain rfl : t = 0 := by simpa [profile] using (Prod.mk.inj hprofile).1
  exact hb.delta_ne_zero p c ht

/-- Right states other than 0 with different profiles differ in acceptance or in an output. -/
theorem Orderly.differ_of_profile_ne (hp : p ≠ 0) (hq : q ≠ 0)
    (h : profile b.right b.table p ≠ profile b.right b.table q) :
    b.right.isAccepting p ≠ b.right.isAccepting q ∨
      ∃ l < b.left.size, ∃ c ∈ symbols, b.table.output? l c p ≠ b.table.output? l c q := by
  by_cases hacc : b.right.isAccepting p = b.right.isAccepting q
  · have hcolumn : column b.table p ≠ column b.table q := fun hcolumn => h (by
      rw [profile, profile, hacc, hcolumn, beq_false_of_ne hp, beq_false_of_ne hq])
    obtain ⟨l, c, hout⟩ : ∃ l c, b.table.output? l c p ≠ b.table.output? l c q := by
      by_contra hnone
      push Not at hnone
      exact hcolumn (column_eq_of_output?_eq hb.table_ascending hnone)
    -- one of the two outputs is an entry of the table
    have hkey : l < b.left.size ∧ c ∈ symbols := by
      cases hp : b.table.output? l c p with
      | some v => exact hb.key_mem l c p v (mem_of_lookup hp)
      | none =>
        cases hq : b.table.output? l c q with
        | some v => exact hb.key_mem l c q v (mem_of_lookup hq)
        | none => exact absurd (hp.trans hq.symm) hout
    exact Or.inr ⟨l, hkey.1, c, hkey.2, hout⟩
  · exact Or.inl hacc

/-- What shows different things of two right states tells the states apart that they are merged
into. -/
theorem Orderly.tellsApart_merged (hp : Dfa.GoesTo (mergedStates b.right b.table) i p)
    (hq : Dfa.GoesTo (mergedStates b.right b.table) j q) (hp₀ : p ≠ 0) (hq₀ : q ≠ 0)
    (hu : b.right.observed (profile b.right b.table) p u ≠
      b.right.observed (profile b.right b.table) q u) :
    b.merged.TellsApart symbols u i j := by
  have hmerges := merges_columnPartition hb.wellFormed b.table
  have hpu : Option.Rel (Dfa.GoesTo (mergedStates b.right b.table))
      (follow b.merged.right.delta i u) (follow b.right.delta p u) := hmerges.follow hp
  have hqu : Option.Rel (Dfa.GoesTo (mergedStates b.right b.table))
      (follow b.merged.right.delta j u) (follow b.right.delta q u) := hmerges.follow hq
  -- The word shows different things when one state cannot read it, or when the states behind it
  -- differ; merging follows both paths.
  obtain ⟨s, hs, ht⟩ | ⟨t, hs, ht⟩ | ⟨s, t, hs, ht, hsee⟩ := Dfa.observed_ne_cases hu
  · rw [hs] at hpu
    rw [ht] at hqu
    obtain ⟨s', hs', _⟩ := rel_some_right hpu
    exact Or.inl ⟨s', hs', rel_none_right hqu⟩
  · rw [hs] at hpu
    rw [ht] at hqu
    obtain ⟨t', ht', _⟩ := rel_some_right hqu
    exact Or.inr (Or.inl ⟨t', rel_none_right hpu, ht'⟩)
  · rw [hs] at hpu
    rw [ht] at hqu
    obtain ⟨s', hs', hgoes⟩ := rel_some_right hpu
    obtain ⟨t', ht', hgoes'⟩ := rel_some_right hqu
    have hf := OutputTable.functional_of_ascending hb.table_ascending
    have hdiffer := hb.differ_of_profile_ne (hb.follow_ne_zero hp₀ hs) (hb.follow_ne_zero hq₀ ht)
      hsee
    refine Or.inr (Or.inr ⟨s', t', hs', ht', ?_⟩)
    simp only [isAccepting_mergeRight hb.wellFormed hgoes,
      isAccepting_mergeRight hb.wellFormed hgoes', output?_mergeRight hb.wellFormed hf hgoes,
      output?_mergeRight hb.wellFormed hf hgoes']
    exact hdiffer

/-- A word that shows different things can be read from one of the states, so it is over the
symbols. -/
theorem Orderly.forall_mem_of_observed_ne {σ : Type} {see : Nat → σ}
    (hu : b.right.observed see p u ≠ b.right.observed see q u) : ∀ c ∈ u, c ∈ symbols := by
  obtain ⟨s, hs, _⟩ | ⟨t, _, ht⟩ | ⟨s, _, hs, _⟩ := Dfa.observed_ne_cases hu
  · exact forall_mem_of_follow hb.symbol_mem hs
  · exact forall_mem_of_follow hb.symbol_mem ht
  · exact forall_mem_of_follow hb.symbol_mem hs

/-- Some word tells any two right states other than 0 apart. -/
theorem Orderly.exists_tellsApart (hi : i < b.merged.right.size) (hj : j < b.merged.right.size)
    (hi₀ : i ≠ 0) (hj₀ : j ≠ 0) (hne : i ≠ j) :
    ∃ u, (∀ c ∈ u, c ∈ symbols) ∧ b.merged.TellsApart symbols u i j := by
  have hmerges := merges_columnPartition hb.wellFormed b.table
  obtain ⟨p, _, hp, _⟩ := Dfa.exists_goesTo hb.wellFormed hi
  obtain ⟨q, _, hq, _⟩ := Dfa.exists_goesTo hb.wellFormed hj
  have ne_zero {k r : Nat} (hk : k ≠ 0) (hr : Dfa.GoesTo (mergedStates b.right b.table) k r) :
      r ≠ 0 := by
    rintro rfl
    exact hk (Option.some.inj (hr.symm.trans hb.goesTo_zero))
  -- refinement has not put them into one class, so some word shows a difference
  have hclass : ¬∀ w, b.right.observed (profile b.right b.table) p w =
      b.right.observed (profile b.right b.table) q w := by
    rw [← Dfa.classOf_refine_eq_iff (fun _ ht => ht.visits_ascendingClasses) hb.wellFormed
      length_columnPartition classNumbers_gaps
      (fun _ _ => columnPartition_eq_iff) (hmerges.lt_size i p hp) (hmerges.lt_size j q hq)]
    exact fun h => hne (Dfa.eq_of_goesTo hp hq h)
  obtain ⟨u, hu⟩ := not_forall.mp hclass
  exact ⟨u, hb.forall_mem_of_observed_ne hu,
    hb.tellsApart_merged hp hq (ne_zero hi₀ hp) (ne_zero hj₀ hq) hu⟩

end merged

end Bimachine

/-! ### Compiled bimachines -/

namespace Transducer

/-- The right automaton of a compiled bimachine starts in state 0, no move leads to this state,
words lead from it to all others, and any two of these are told apart by some word over the
alphabet.  The states that have merged were not needed: all outputs are kept. -/
theorem right_states_toBimachine (f : Transducer) (A : List Char) (m : RealTime)
    (h : f.toRealTime = .ok m) :
    ∃ b, f.toBimachine A = .ok b ∧ b.right.start = 0 ∧ 0 < b.right.size ∧
      (∀ r c, b.right.delta r c ≠ some 0) ∧
      (∀ r < b.right.size, ∃ w, follow b.right.delta 0 w = some r) ∧
      (∀ r₁ < b.right.size, ∀ r₂ < b.right.size, r₁ ≠ 0 → r₂ ≠ 0 → r₁ ≠ r₂ →
        ∃ u, (∀ c ∈ u, c ∈ A) ∧ b.TellsApart A u r₁ r₂) ∧
      ∀ w o, b.process w = .ok o ↔ (Bimachine.unmerged m (ascending A)).process w = .ok o := by
  have hb : (Bimachine.unmerged m (ascending A)).Orderly (ascending A) :=
    Bimachine.orderly_unmerged (ascending_symbols_pairwise A)
  refine ⟨(Bimachine.unmerged m (ascending A)).merged, toBimachine_eq_ok_iff.mpr ⟨m, h, rfl⟩, rfl,
    ?_, fun _ _ => hb.delta_merged_ne_zero, fun r hr => ?_, fun r₁ hr₁ r₂ hr₂ h₁ h₂ hne => ?_,
    fun _ _ => Bimachine.process_mergeRight hb.wellFormed Bimachine.functional_unmerged⟩
  · exact (Bimachine.wellFormed_right_mergeRight hb.wellFormed).start_lt
  · exact Dfa.exists_follow_minimizeWithin (fun _ ht => ht.visits_ascendingClasses) hb.wellFormed
      Bimachine.length_columnPartition Bimachine.classNumbers_gaps hr
  · have hapart := hb.exists_tellsApart hr₁ hr₂ h₁ h₂ hne
    simpa only [Bimachine.TellsApart, mem_ascending] using hapart

/-- The suffixes `b` and `ab` of the word `ab` are told apart. -/
theorem right_states_toBimachine_ofWordPair :
    (ofWordPair ['a', 'b'] ['x']).toRealTime = .ok (ofWordPair ['a', 'b'] ['x']).trim.folded ∧
    ∃ b, (ofWordPair ['a', 'b'] ['x']).toBimachine ['a', 'b', 'c'] = .ok b ∧ b.right.size = 3 ∧
      ∃ u, (∀ c ∈ u, c ∈ ['a', 'b', 'c']) ∧ b.TellsApart ['a', 'b', 'c'] u 1 2 := by
  have real : (ofWordPair ['a', 'b'] ['x']).toRealTime =
      .ok (ofWordPair ['a', 'b'] ['x']).trim.folded := by decide
  obtain ⟨b, hb, _, _, _, _, hapart, _⟩ :=
    right_states_toBimachine (ofWordPair ['a', 'b'] ['x']) ['a', 'b', 'c'] _ real
  have hsize : b.right.size = 3 := by
    obtain ⟨m, hm, rfl⟩ := toBimachine_eq_ok_iff.mp hb
    obtain rfl := Except.ok.inj (real.symm.trans hm)
    decide +kernel
  exact ⟨real, b, hb, hsize,
    hapart 1 (by omega) 2 (by omega) (by decide) (by decide) (by decide)⟩

end Transducer

end Transduction
