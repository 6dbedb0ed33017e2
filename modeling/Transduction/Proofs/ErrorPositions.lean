/-
Error positions of bimachines.

A bimachine refuses a word after one of three checks, each of which computes a position in
its own way.  For the bimachine of a transducer the last check, the look into the table,
never fails, and the positions of the others tell how much of the word is in order:

* `longestPrefix`, `longestSuffix` — how much of a word has a property, from either end;
* `Dfa.length_trace` — a trace is as long as the prefix that can be read;
* `Bimachine.process_eq_error_cases` — the positions of a bimachine by the words that
  either automaton can read;
* `Bimachine.exists_follow_left_ofRealTime_iff`,
  `Bimachine.exists_behind_ofRealTime_iff` — these words for a real-time transducer;
* `Transducer.process_toBimachine_error` — the positions by the domain of a transducer.
-/
import Mathlib.Data.Nat.Find
import Transduction.Proofs.Prefixes

namespace Transduction

/-! ### Longest prefixes and suffixes -/

section longest

variable {P Q : Word → Prop} {w : Word} {n : Nat}

open Classical in
/-- The length of the longest prefix with a property, zero where no prefix has it. -/
noncomputable def longestPrefix (P : Word → Prop) (w : Word) : Nat :=
  Nat.findGreatest (fun n => P (w.take n)) w.length

open Classical in
/-- The length of the longest suffix with a property, zero where no suffix has it. -/
noncomputable def longestSuffix (P : Word → Prop) (w : Word) : Nat :=
  Nat.findGreatest (fun n => P (w.drop (w.length - n))) w.length

open Classical in
theorem longestPrefix_eq_iff : longestPrefix P w = n ↔
    n ≤ w.length ∧ (n ≠ 0 → P (w.take n)) ∧ ∀ k, n < k → k ≤ w.length → ¬P (w.take k) :=
  Nat.findGreatest_eq_iff

open Classical in
theorem longestSuffix_eq_longestPrefix :
    longestSuffix P w = longestPrefix (fun v => P v.reverse) w.reverse := by
  simp only [longestSuffix, longestPrefix, List.take_reverse, List.reverse_reverse,
    List.length_reverse]

/-- Only the non-empty prefixes count. -/
theorem longestPrefix_congr (h : ∀ v, v ≠ [] → v <+: w → (P v ↔ Q v)) :
    longestPrefix P w = longestPrefix Q w := by
  have take_iff : ∀ k, 0 < k → k ≤ w.length → (P (w.take k) ↔ Q (w.take k)) := by
    intro k hpos hk
    refine h _ (fun hnil => ?_) (List.take_prefix k w)
    have hlength := congrArg List.length hnil
    simp only [List.length_take, List.length_nil] at hlength
    omega
  obtain ⟨hle, hmem, hnot⟩ := longestPrefix_eq_iff.mp (rfl : longestPrefix Q w = _)
  refine longestPrefix_eq_iff.mpr ⟨hle, fun hne => ?_, fun k hk hkw => ?_⟩
  · exact (take_iff _ (Nat.pos_of_ne_zero hne) hle).mpr (hmem hne)
  · exact fun hP => hnot k hk hkw ((take_iff k (by omega) hkw).mp hP)

/-- Only the non-empty suffixes count. -/
theorem longestSuffix_congr (h : ∀ v, v ≠ [] → v <:+ w → (P v ↔ Q v)) :
    longestSuffix P w = longestSuffix Q w := by
  rw [longestSuffix_eq_longestPrefix, longestSuffix_eq_longestPrefix]
  refine longestPrefix_congr fun v hne hv => h _ (by simpa using hne) ?_
  simpa using List.reverse_suffix.mpr hv

open Classical in
theorem longestSuffix_of_all (h : P w) : longestSuffix P w = w.length := by
  rw [longestSuffix]
  exact Nat.findGreatest_eq (by simpa using h)

open Classical in
theorem longestSuffix_eq_zero (h : ∀ v, v ≠ [] → v <:+ w → ¬P v) : longestSuffix P w = 0 := by
  rw [longestSuffix, Nat.findGreatest_eq_zero_iff]
  intro k hpos hk
  refine h _ (fun hnil => ?_) (List.drop_suffix _ w)
  have hlength := congrArg List.length hnil
  simp only [List.length_drop, List.length_nil] at hlength
  omega

end longest

namespace Dfa

variable {d : Dfa} {q : Nat} {w : Word}

theorem length_trace_le : (d.trace q w).2.length ≤ w.length + 1 := by
  induction w generalizing q with
  | nil => simp [trace]
  | cons c w ih =>
    cases h : d.delta q c with
    | none => simp [trace_cons_none h]
    | some t => simpa [trace_cons_some h] using ih

/-- A trace visits one state more than it reads symbols. -/
theorem length_trace : (d.trace q w).2.length =
    longestPrefix (fun v => ∃ r, follow d.delta q v = some r) w + 1 := by
  have pos : 0 < (d.trace q w).2.length :=
    (lt_length_trace_iff (Nat.zero_le _)).mpr ⟨q, rfl⟩
  have le : (d.trace q w).2.length ≤ w.length + 1 := length_trace_le
  have longest : longestPrefix (fun v => ∃ r, follow d.delta q v = some r) w =
      (d.trace q w).2.length - 1 := by
    refine longestPrefix_eq_iff.mpr ⟨by omega, fun _ => ?_, fun k hk hkw => ?_⟩
    · exact (lt_length_trace_iff (by omega)).mp (by omega)
    · rw [← lt_length_trace_iff hkw]
      omega
  omega

/-- A trace visits the start state at least, and no more states than the symbols lead to. -/
theorem length_forwardTrace_bounds (d : Dfa) (w : Word) :
    1 ≤ (d.forwardTrace w).2.length ∧ (d.forwardTrace w).2.length ≤ w.length + 1 := by
  refine ⟨?_, length_trace_le⟩
  rw [forwardTrace, length_trace]
  omega

theorem length_backwardTrace_bounds (d : Dfa) (w : Word) :
    1 ≤ (d.backwardTrace w).2.length ∧ (d.backwardTrace w).2.length ≤ w.length + 1 := by
  have bounds := d.length_forwardTrace_bounds w.reverse
  rwa [List.length_reverse] at bounds

end Dfa

namespace Bimachine

variable {b : Bimachine} {w : Word} {p : Nat}

/-! ### Positions by what can be read -/

/-- The suffix that can be read backward, by the length of the trace. -/
theorem length_backwardTrace : (b.right.backwardTrace w).2.length =
    longestSuffix (fun v => ∃ r, b.behind v = some r) w + 1 := by
  rw [Dfa.backwardTrace, Dfa.length_trace, longestSuffix_eq_longestPrefix]
  simp only [behind, List.reverse_reverse]

theorem length_forwardTrace_le_iff : (b.left.forwardTrace w).2.length ≤ w.length ↔
    ¬∃ t, follow b.left.delta b.left.start w = some t := by
  rw [Dfa.forwardTrace, Dfa.length_trace_le_iff, Option.eq_none_iff_forall_ne_some, not_exists]

theorem length_backwardTrace_le_iff : (b.right.backwardTrace w).2.length ≤ w.length ↔
    ¬∃ r, b.behind w = some r := by
  have hlength := Dfa.length_trace_le_iff (d := b.right) (q := b.right.start) (w := w.reverse)
  rw [List.length_reverse] at hlength
  rw [Dfa.backwardTrace, hlength, Option.eq_none_iff_forall_ne_some, not_exists]
  rfl

/-- A word is refused where the left automaton stops, or where the right automaton stops
or does not accept, or by the table. -/
theorem process_eq_error_cases (h : b.process w = .error (.outsideDomain p)) :
    ((¬∃ t, follow b.left.delta b.left.start w = some t) ∧
      p = longestPrefix (fun v => ∃ t, follow b.left.delta b.left.start v = some t) w) ∨
    ((∃ t, follow b.left.delta b.left.start w = some t) ∧
      (¬∃ r, b.behind w = some r ∧ b.right.isAccepting r = true) ∧
      p = w.length - 1 - longestSuffix (fun v => ∃ r, b.behind v = some r) w) ∨
    ((∃ t, follow b.left.delta b.left.start w = some t) ∧
      ∃ r, b.behind w = some r ∧ b.right.isAccepting r = true) := by
  have accepted_iff : (b.right.backwardTrace w).1 = true ↔
      ∃ r, b.behind w = some r ∧ b.right.isAccepting r = true := Dfa.trace_eq_true_iff
  rw [process] at h
  simp only at h
  split at h
  · -- the left trace is short: the position is where it stopped
    rename_i hl
    cases h
    refine Or.inl ⟨length_forwardTrace_le_iff.mp hl, ?_⟩
    rw [Dfa.forwardTrace, Dfa.length_trace, Nat.add_sub_cancel]
  rename_i hl
  have hleft := not_not.mp (mt length_forwardTrace_le_iff.mpr hl)
  refine Or.inr ?_
  split at h
  · -- the right trace is short: the position is counted from the end
    rename_i hr
    cases h
    refine Or.inl ⟨hleft, fun haccepted => ?_, ?_⟩
    · exact length_backwardTrace_le_iff.mp hr ⟨_, haccepted.choose_spec.1⟩
    · rw [length_backwardTrace]
      omega
  rename_i hr
  split at h
  · -- the right trace is whole but not accepted: the longest suffix is the word
    rename_i hrejected
    cases h
    refine Or.inl ⟨hleft, fun haccepted => ?_, ?_⟩
    · rw [accepted_iff.mpr haccepted] at hrejected
      cases hrejected
    · rw [longestSuffix_of_all (not_not.mp (mt length_backwardTrace_le_iff.mpr hr))]
      omega
  · -- both traces are whole, so the error can only come from a missing entry
    rename_i haccepted
    rw [Bool.not_eq_true', Bool.not_eq_false] at haccepted
    exact Or.inr ⟨hleft, accepted_iff.mp haccepted⟩

/-! ### What the automata of a transducer can read -/

variable {m : RealTime} {symbols : List Char}

/-- The left automaton can read the empty word, and the prefixes of the words over the
symbols that have an output. -/
theorem exists_follow_left_ofRealTime_iff (hm : m.Closed) :
    (∃ l, follow (ofRealTime m symbols).left.delta (ofRealTime m symbols).left.start w = some l) ↔
      w = [] ∨ ∃ s, (∀ c ∈ w ++ s, c ∈ symbols) ∧ ∃ y, m.Relates (w ++ s) y :=
  (rel_exists_iff (RealTime.follow_left hm symbols w)).trans RealTime.exists_choiceOf_iff

section right

variable (hsymbols : symbols.Pairwise (· < ·))

include hsymbols

/-- The right automaton can read the empty word, and the words over the symbols that some
state completes. -/
theorem exists_behind_ofRealTime_iff : (∃ r, (ofRealTime m symbols).behind w = some r) ↔
    (∀ c ∈ w, c ∈ symbols) ∧ (w = [] ∨ ∃ q y, m.Completes q w y) := by
  have hright : (unmerged m symbols).right.WellFormed := RealTime.wellFormed_right hsymbols
  calc (∃ r, (ofRealTime m symbols).behind w = some r)
      ↔ ∃ r, (unmerged m symbols).behind w = some r :=
        rel_exists_iff (behind_mergeRight hright (unmerged m symbols).left
          (unmerged m symbols).table w)
    _ ↔ ∃ k, m.classOf symbols w = some k := rel_exists_iff (m.follow_right symbols w)
    _ ↔ _ := RealTime.exists_classOf_iff

/-- The right automaton accepts the words over the symbols that have an output. -/
theorem accepts_behind_ofRealTime_iff : (∃ r, (ofRealTime m symbols).behind w = some r ∧
      (ofRealTime m symbols).right.isAccepting r = true) ↔
    (∀ c ∈ w, c ∈ symbols) ∧ ∃ y, m.Relates w y := by
  have hright : (unmerged m symbols).right.WellFormed := RealTime.wellFormed_right hsymbols
  exact (accepts_behind_mergeRight_iff hright).trans accepts_behind_iff

end right

end Bimachine

/-! ### Positions by the domain of a transducer -/

namespace Transducer

variable {f : Transducer} {A : List Char} {m : RealTime} {u w y : Word} {q : Nat}

/-- The word is a prefix of some word over the alphabet in the domain. -/
def Starts (f : Transducer) (A : List Char) (u : Word) : Prop :=
  ∃ s, (∀ c ∈ u ++ s, c ∈ A) ∧ ∃ y, f.Relates (u ++ s) y

/-- The word is a suffix of some word in the domain, with any symbols in front. -/
def Ends (f : Transducer) (u : Word) : Prop := ∃ s y, f.Relates (s ++ u) y

/-- What a state of the real-time form completes is a suffix of a word in the domain, for
the states that have moves are useful. -/
theorem ends_of_completes (hf : f.Closed) (h : f.toRealTime = .ok m) (hne : u ≠ [])
    (hu : m.Completes q u y) : f.Ends u := by
  obtain ⟨hb, rfl⟩ := (toRealTime_eq_ok_iff hf).mp h
  have htrim : f.trim.Closed := (Machine.wellFormed_trim hf).closed
  have hq : q < f.trim.size := by
    cases hu with
    | nil => exact absurd rfl hne
    | cons hmove _ => exact size_folded ▸ RealTime.lt_size_of_mem_moves hmove
  obtain ⟨ls, r, hpath, hr, rfl, rfl⟩ := (completes_folded_iff htrim hb hq).mp hu
  obtain ⟨p, front, hp, hfront⟩ :
      ∃ p front, f.trim.isInitial p = true ∧ Path f.trim.moves p front q := by
    cases hpath with
    | nil => exact absurd rfl hne
    | cons hmove _ => exact (Machine.exists_paths_of_mem_moves_trim hf hmove).1
  refine ⟨readsOf front, writesOf (front ++ ls), (relates_trim hf).mp (relates_iff.mpr ?_)⟩
  exact ⟨front ++ ls, ⟨p, r, hp, hfront.append hpath, hr⟩, readsOf_append, rfl⟩

/-- Some state completes a suffix when it is one of a word in the domain. -/
theorem exists_completes_iff (hf : f.Closed) (h : f.toRealTime = .ok m) (hne : u ≠ []) :
    (∃ q y, m.Completes q u y) ↔ f.Ends u := by
  constructor
  · intro hu
    obtain ⟨q, y, hy⟩ := hu
    exact ends_of_completes hf h hne hy
  · intro hu
    obtain ⟨s, hs⟩ := hu
    simp only [← relates_of_toRealTime hf h] at hs
    obtain ⟨q, y, _, hy⟩ := RealTime.exists_relates_append_iff.mp hs
    exact ⟨q, y, hy⟩

/-- A word that the right automaton accepts has an output. -/
theorem exists_process_of_accepts_behind (hf : f.Closed) (h : f.toRealTime = .ok m)
    (haccepted : ∃ r, (Bimachine.ofRealTime m (ascending A)).behind w = some r ∧
      (Bimachine.ofRealTime m (ascending A)).right.isAccepting r = true) :
    ∃ o, (Bimachine.ofRealTime m (ascending A)).process w = .ok o := by
  have hsymbols := ascending_symbols_pairwise A
  obtain ⟨hw, y, hy⟩ := (Bimachine.accepts_behind_ofRealTime_iff hsymbols).mp haccepted
  by_cases hne : w = []
  · subst hne
    exact ⟨[], (Bimachine.process_ofRealTime_nil hsymbols).mpr ⟨rfl, y, hy⟩⟩
  · obtain ⟨o, ho, _⟩ := Bimachine.exists_process_ofRealTime (closed_of_toRealTime hf h) hsymbols
      hne hw hy
    exact ⟨o, ho⟩

/-- Where the bimachine of a transducer refuses a word that is no prefix of a word over the
alphabet in the domain, the position is the length of the longest prefix that is one.
Where it refuses such a prefix, as many symbols stand behind the position as the longest
suffix has that ends a word in the domain.  A word that both scans let pass has an
output for each symbol. -/
theorem process_toBimachine_error (f : Transducer) (hf : f.WellFormed) (A : List Char)
    (m : RealTime) (h : f.toRealTime = .ok m) :
    ∃ b, f.toBimachine A = .ok b ∧
      (∀ w p, b.process w = .error (.outsideDomain p) →
        (¬f.Starts A w → p = longestPrefix (f.Starts A) w) ∧
        (f.Starts A w → p = w.length - 1 - longestSuffix f.Ends w)) ∧
      ∀ w, w.length < (b.left.forwardTrace w).2.length → (b.right.backwardTrace w).1 = true →
        ∃ o, b.process w = .ok o := by
  have reads_left (v : Word) : (∃ l, follow (Bimachine.ofRealTime m (ascending A)).left.delta
      (Bimachine.ofRealTime m (ascending A)).left.start v = some l) ↔ v = [] ∨ f.Starts A v := by
    rw [Bimachine.exists_follow_left_ofRealTime_iff (closed_of_toRealTime hf.closed h)]
    simp only [mem_ascending, relates_of_toRealTime hf.closed h]
    rfl
  have reads_right (v : Word) (hne : v ≠ []) (hv : ∀ c ∈ v, c ∈ A) :
      (∃ r, (Bimachine.ofRealTime m (ascending A)).behind v = some r) ↔ f.Ends v := by
    rw [Bimachine.exists_behind_ofRealTime_iff (ascending_symbols_pairwise A),
      exists_completes_iff hf.closed h hne]
    simp only [mem_ascending, hne, false_or]
    exact and_iff_right hv
  refine ⟨_, toBimachine_eq_ok_iff.mpr ⟨m, h, rfl⟩, fun w p herror => ?_,
    fun w _ haccepted => ?_⟩
  · rcases Bimachine.process_eq_error_cases herror with ⟨hl, hp⟩ | ⟨hl, _, hp⟩ | ⟨_, haccepted⟩
    · rw [reads_left, not_or] at hl
      refine ⟨fun _ => ?_, fun hstarts => absurd hstarts hl.2⟩
      rw [hp]
      refine longestPrefix_congr fun v hne _ => ?_
      rw [reads_left]
      exact or_iff_right hne
    · rw [reads_left] at hl
      constructor
      · intro hnot
        obtain rfl := hl.resolve_right hnot
        -- the empty word is refused in front of its first symbol
        rw [hp]
        simp [longestPrefix]
      · intro hstarts
        obtain ⟨s, hs, _⟩ := hstarts
        rw [hp, longestSuffix_congr fun v hne hv => reads_right v hne fun c hc => ?_]
        exact hs c (List.mem_append_left s (hv.subset hc))
    · obtain ⟨o, ho⟩ := exists_process_of_accepts_behind hf.closed h haccepted
      rw [ho] at herror
      cases herror
  · exact exists_process_of_accepts_behind hf.closed h (Dfa.trace_eq_true_iff.mp haccepted)

/-- Copies any number of `a` and one `b` behind them. -/
def closing : Transducer where
  nodes := #[{ initial := true, moves := [((some 'a', ['a']), 0), ((some 'b', ['b']), 1)] },
    { accepting := true }]

theorem of_relates_closing (h : closing.Relates w y) : ∃ n, w = List.replicate n 'a' ++ ['b'] := by
  obtain ⟨ls, ⟨p, q, hp, hpath, hq⟩, rfl, -⟩ := relates_iff.mp h
  have start_eq : p = 0 := by
    match p with
    | 0 => rfl
    | 1 => cases hp
    | p + 2 => cases hp
  clear hp h
  induction hpath with
  | nil =>
    subst start_eq
    cases hq
  | @cons k t r l ls hmove hrest ih =>
    subst start_eq
    have first : (l, t) = ((some 'a', ['a']), 0) ∨ (l, t) = ((some 'b', ['b']), 1) := by
      simpa [closing, Machine.moves] using hmove
    rcases first with hfirst | hfirst
    · cases hfirst
      obtain ⟨n, hn⟩ := ih hq rfl
      exact ⟨n + 1, by simp [hn, List.replicate_succ]⟩
    · cases hfirst
      -- no move leaves the accepting state
      cases hrest with
      | nil => exact ⟨0, rfl⟩
      | cons hsecond _ => exact absurd hsecond List.not_mem_nil

theorem not_ends_closing (hu : u.getLast? = some 'a') : ¬closing.Ends u := by
  intro h
  obtain ⟨s, y, hy⟩ := h
  obtain ⟨n, hn⟩ := of_relates_closing hy
  have hlast := congrArg List.getLast? hn
  rw [List.getLast?_append, hu, List.getLast?_concat] at hlast
  cases hlast

theorem not_starts_closing : ¬closing.Starts ['a', 'b'] ['b', 'a'] := by
  intro h
  obtain ⟨s, _, y, hy⟩ := h
  obtain ⟨n, hn⟩ := of_relates_closing hy
  cases n with
  | zero => simp at hn
  | succ n => simp [List.replicate_succ] at hn

/-- Two `a` are a prefix of a word, of which no suffix ends one; behind `b` nothing may
stand. -/
theorem process_toBimachine_error_closing :
    closing.WellFormed ∧ closing.toRealTime = .ok closing.trim.folded ∧
    ∃ b, closing.toBimachine ['a', 'b'] = .ok b ∧
      b.process ['a', 'a'] = .error (.outsideDomain 1) ∧
      b.process ['b', 'a'] = .error (.outsideDomain 1) := by
  have hm : closing.WellFormed := by decide
  have real : closing.toRealTime = .ok closing.trim.folded := by decide
  obtain ⟨b, hb, positions, _⟩ := process_toBimachine_error closing hm ['a', 'b'] _ real
  have settles := settles_of_toBimachine hm.closed hb
  -- The words accepted that are needed are found by running the transducer.
  have word (w o : Word) (h : closing.process w = .ok [o]) : closing.Relates w o :=
    (mem_of_process_iff hm.closed h).mp List.mem_cons_self
  -- No word that ends in `a` has an output.
  have refused (w : Word) (hw : w.getLast? = some 'a') :
      ∃ p, b.process w = .error (.outsideDomain p) := by
    refine Bimachine.process_eq_error_of_not fun o ho => ?_
    obtain ⟨y, hy⟩ := (settles.of_process w o ho).2
    exact not_ends_closing hw ⟨[], y, hy⟩
  have opens : closing.Starts ['a', 'b'] ['a', 'a'] :=
    ⟨['b'], by simp, _, word _ ['a', 'a', 'b'] (by decide)⟩
  have alone : closing.Starts ['a', 'b'] ['b'] := ⟨[], by simp, _, word _ ['b'] (by decide)⟩
  refine ⟨hm, real, b, hb, ?_, ?_⟩
  · obtain ⟨p, hp⟩ := refused ['a', 'a'] rfl
    -- No suffix of two `a` ends an accepted word, so the scan from the right stops at once.
    have none : longestSuffix closing.Ends ['a', 'a'] = 0 := by
      refine longestSuffix_eq_zero fun v hne hv => not_ends_closing ?_
      rw [List.getLast?_eq_some_getLast hne, hv.getLast hne]
      rfl
    rw [hp, (positions _ p hp).2 opens, none]
    rfl
  · obtain ⟨p, hp⟩ := refused ['b', 'a'] rfl
    -- Only the first symbol of the other word starts one.
    have one : longestPrefix (closing.Starts ['a', 'b']) ['b', 'a'] = 1 := by
      refine longestPrefix_eq_iff.mpr ⟨by simp, fun _ => alone, fun k hk hkw => ?_⟩
      obtain rfl : k = 2 := by simp at hkw; omega
      exact not_starts_closing
    rw [hp, (positions _ p hp).1 not_starts_closing, one]

end Transducer

end Transduction
