/-
Right automata of real-time transducers.

A right state stands for a class of suffixes, and the class of a suffix is the set
of states from which it can be completed.  The empty suffix has a class of its own:

* `RealTime.classOf` — the class of a suffix, by one step a symbol;
* `RealTime.mem_completing_iff` — its members are the states that complete the suffix;
* `RealTime.exists_classOf` — a suffix that some state completes has a class;
* `RealTime.follow_right` — the right automaton moves from class to class;
* `RealTime.exists_suffix` — every right state is met.
-/
import Transduction.Bimachine.Compilation
import Transduction.Proofs.Deterministic
import Transduction.Proofs.RealTime

namespace Transduction.RealTime

variable {m : RealTime} {symbols : List Char} {s : StateSet} {k : Suffixes} {q r t : Nat}
  {c : Char} {v w y : Word}

/-! ### Sets of states that complete a suffix -/

theorem lt_size_of_mem_moves (h : (c, v, t) ∈ m.moves q) : q < m.size := by
  by_contra hq
  simp [moves, Array.getElem?_eq_none (Nat.le_of_not_lt hq)] at h

theorem lt_size_of_isInitial (h : m.isInitial q = true) : q < m.size := by
  by_contra hq
  simp [isInitial, Array.getElem?_eq_none (Nat.le_of_not_lt hq)] at h

theorem lt_size_of_mem_finalOutputs (h : v ∈ m.finalOutputs q) : q < m.size := by
  by_contra hq
  simp [finalOutputs, Array.getElem?_eq_none (Nat.le_of_not_lt hq)] at h

theorem mem_retreat : q ∈ m.retreat s c ↔ ∃ v t, (c, v, t) ∈ m.moves q ∧ t ∈ s := by
  simp only [retreat, StateSet.mem_ofList, List.mem_filter, List.mem_range, List.any_eq_true,
    Bool.and_eq_true, beq_iff_eq]
  constructor
  · rintro ⟨_, ⟨d, v, t⟩, hmem, rfl, ht⟩
    exact ⟨v, t, hmem, ht⟩
  · rintro ⟨v, t, hmem, ht⟩
    exact ⟨lt_size_of_mem_moves hmem, (c, v, t), hmem, rfl, ht⟩

theorem mem_finalStates : q ∈ m.finalStates ↔ ∃ v, v ∈ m.finalOutputs q := by
  simp only [finalStates, StateSet.mem_ofList, List.mem_filter, List.mem_range, Bool.not_eq_true',
    List.isEmpty_eq_false_iff_exists_mem]
  constructor
  · exact fun h => h.2
  · rintro ⟨v, hv⟩
    exact ⟨lt_size_of_mem_finalOutputs hv, v, hv⟩

/-- The class of the suffixes that a symbol makes longer, unless no state completes
them. -/
def longer (m : RealTime) (k : Suffixes) (c : Char) : Option Suffixes :=
  if (m.retreat (m.completing k) c).isEmpty then none
  else some (some (m.retreat (m.completing k) c))

/-- The class of the suffixes that one of the symbols makes longer. -/
def lengthen (m : RealTime) (symbols : List Char) (k : Suffixes) (c : Char) : Option Suffixes :=
  if c ∈ symbols then m.longer k c else none

theorem suffixMoves_eq (m : RealTime) (symbols : List Char) : m.suffixMoves symbols = fun k =>
    symbols.filterMap fun c => (m.longer k c).map fun k' => (c, k') := by
  funext k
  refine congrArg (List.filterMap · symbols) (funext fun c => ?_)
  rw [longer]
  simp only
  split <;> rfl

theorem lengthen_eq_some {k' : Suffixes} : m.lengthen symbols k c = some k' ↔
    c ∈ symbols ∧ (∃ q, q ∈ m.retreat (m.completing k) c) ∧
      k' = some (m.retreat (m.completing k) c) := by
  have nonempty_iff : ¬(m.retreat (m.completing k) c).isEmpty = true ↔
      ∃ q, q ∈ m.retreat (m.completing k) c := by
    rw [StateSet.isEmpty_iff]
    exact not_forall_not
  rw [lengthen, longer]
  split
  · rename_i hc
    split
    · rename_i hempty
      simp [← nonempty_iff, hempty]
    · rename_i hempty
      simp [nonempty_iff.mp hempty, hc, eq_comm]
  · rename_i hc
    simp [hc]

/-- The class of a suffix, unless no state completes it. -/
def classOf (m : RealTime) (symbols : List Char) (w : Word) : Option Suffixes :=
  follow (m.lengthen symbols) none w.reverse

@[simp] theorem classOf_nil : m.classOf symbols [] = some none := rfl

theorem classOf_cons : m.classOf symbols (c :: w) =
    (m.classOf symbols w).bind fun k => m.lengthen symbols k c := by
  rw [classOf, List.reverse_cons, follow_concat]
  rfl

/-- The members of a class are the states that complete its suffixes. -/
theorem mem_completing_iff (h : m.classOf symbols w = some k) :
    q ∈ m.completing k ↔ ∃ y, m.Completes q w y := by
  induction w generalizing k q with
  | nil =>
    obtain rfl := Option.some.inj h
    refine mem_finalStates.trans (exists_congr fun v => ⟨.nil, fun hv => ?_⟩)
    obtain _ | hv := hv
    rename_i hv
    exact hv
  | cons c w ih =>
    rw [classOf_cons, Option.bind_eq_some_iff] at h
    obtain ⟨k', hk', h⟩ := h
    obtain ⟨_, _, rfl⟩ := lengthen_eq_some.mp h
    refine mem_retreat.trans ⟨?_, ?_⟩
    · rintro ⟨v, t, hmem, ht⟩
      obtain ⟨y, hy⟩ := (ih hk').mp ht
      exact ⟨v ++ y, .cons hmem hy⟩
    · rintro ⟨y, _ | ⟨hmem, hy⟩⟩
      exact ⟨_, _, hmem, (ih hk').mpr ⟨_, hy⟩⟩

/-- Only the empty suffix has the class of its own. -/
theorem classOf_eq_none_class_iff (h : m.classOf symbols w = some k) : k = none ↔ w = [] := by
  cases w with
  | nil => simp [← Option.some.inj h]
  | cons c w =>
    rw [classOf_cons, Option.bind_eq_some_iff] at h
    obtain ⟨k', _, h⟩ := h
    obtain ⟨_, _, rfl⟩ := lengthen_eq_some.mp h
    simp

theorem mem_symbols_of_classOf (h : m.classOf symbols w = some k) : ∀ c ∈ w, c ∈ symbols :=
  fun c hc => forall_mem_of_follow (P := (· ∈ symbols)) (fun _ _ _ h => (lengthen_eq_some.mp h).1)
    h c (List.mem_reverse.mpr hc)

/-- A suffix over the symbols that some state completes has a class. -/
theorem exists_classOf (hw : ∀ c ∈ w, c ∈ symbols) (h : m.Completes q w y) :
    ∃ k, m.classOf symbols w = some k := by
  induction w generalizing q y with
  | nil => exact ⟨none, rfl⟩
  | cons c w ih =>
    rw [List.forall_mem_cons] at hw
    obtain _ | ⟨hmem, hy⟩ := h
    obtain ⟨k, hk⟩ := ih hw.2 hy
    have hq : q ∈ m.retreat (m.completing k) c :=
      mem_retreat.mpr ⟨_, _, hmem, (mem_completing_iff hk).mpr ⟨_, hy⟩⟩
    exact ⟨_, by
      rw [classOf_cons, hk, Option.bind_some]
      exact lengthen_eq_some.mpr ⟨hw.1, ⟨q, hq⟩, rfl⟩⟩

/-- The empty suffix has a class, and so have the suffixes over the symbols that some
state completes. -/
theorem exists_classOf_iff : (∃ k, m.classOf symbols w = some k) ↔
    (∀ c ∈ w, c ∈ symbols) ∧ (w = [] ∨ ∃ q y, m.Completes q w y) := by
  constructor
  · intro h
    obtain ⟨k, hk⟩ := h
    refine ⟨mem_symbols_of_classOf hk, ?_⟩
    cases w with
    | nil => exact Or.inl rfl
    | cons c w =>
      obtain ⟨k', _, hlonger⟩ := Option.bind_eq_some_iff.mp (classOf_cons ▸ hk)
      obtain ⟨_, ⟨q, hq⟩, rfl⟩ := lengthen_eq_some.mp hlonger
      exact Or.inr ⟨q, (mem_completing_iff hk).mp hq⟩
  · intro h
    obtain ⟨hw, rfl | ⟨q, y, hy⟩⟩ := h
    · exact ⟨none, rfl⟩
    · exact exists_classOf hw hy

/-! ### The right automaton -/

/-- The right automaton over some symbols. -/
def right (m : RealTime) (symbols : List Char) : Dfa := m.rightAutomaton (m.suffixClasses symbols)

/-- The key of a class of suffixes. -/
abbrev suffixKey (k : Suffixes) : Option Nat := k.map (·.bits)

/-- The right state stands for a class of suffixes. -/
abbrev IsClass (m : RealTime) (symbols : List Char) (r : Nat) (k : Suffixes) : Prop :=
  Dfa.StandsFor suffixKey (m.suffixClasses symbols) r k

theorem suffixKey_injective : Function.Injective suffixKey :=
  Option.map_injective fun ⟨_⟩ ⟨_⟩ h => congrArg StateSet.mk h

theorem isClass_iff : m.IsClass symbols r k ↔
    (m.suffixClasses symbols)[r]? = some (k, m.suffixMoves symbols k) := by
  constructor
  · rintro ⟨⟨k', moves⟩, hentry, hkey⟩
    obtain rfl := suffixKey_injective hkey
    rw [hentry, show moves = m.suffixMoves symbols k' from
      snd_of_mem_explore (List.mem_of_getElem? hentry)]
  · exact fun h => ⟨_, h, rfl⟩

/-- The members of a class of suffixes are states. -/
def Bounded (m : RealTime) (k : Suffixes) : Prop := ∀ s, k = some s → ∀ q ∈ s, q < m.size

/-- The keys that classes of states can have. -/
def suffixKeys (m : RealTime) : List (Option Nat) := none :: (List.range (2 ^ m.size)).map some

theorem bounded_none : m.Bounded none := nofun

theorem bounded_of_mem_suffixMoves {k' : Suffixes} (h : (c, k') ∈ m.suffixMoves symbols k) :
    m.Bounded k' := by
  intro s hs
  rw [suffixMoves_eq] at h
  have h := ((mem_filterMap_symbols fun _ => rfl).mp h).2
  rw [longer] at h
  split at h
  · cases h
  · cases h
    cases hs
    intro q hq
    obtain ⟨_, _, hmem, _⟩ := mem_retreat.mp hq
    exact lt_size_of_mem_moves hmem

theorem suffixKey_mem_suffixKeys (h : m.Bounded k) : suffixKey k ∈ m.suffixKeys := by
  cases k with
  | none => exact List.mem_cons_self
  | some s =>
    have hs : s.bits < 2 ^ m.size := StateSet.bits_lt.mpr (h s rfl)
    exact List.mem_cons_of_mem _ (List.mem_map.mpr ⟨s.bits, List.mem_range.mpr hs, rfl⟩)

theorem length_suffixKeys : m.suffixKeys.length = 2 ^ m.size + 1 := by simp [suffixKeys]

/-- The right automaton moves from class to class. -/
theorem follow_right (m : RealTime) (symbols : List Char) (w : Word) :
    Option.Rel (m.IsClass symbols)
    (follow (m.right symbols).delta (m.right symbols).start w.reverse) (m.classOf symbols w) := by
  have target (k : Suffixes) (_ : m.Bounded k) (c : Char) (k' : Suffixes)
      (h : (c, k') ∈ m.suffixMoves symbols k) : m.Bounded k' := bounded_of_mem_suffixMoves h
  show Option.Rel (Dfa.StandsFor suffixKey (m.suffixClasses symbols)) _ _
  rw [suffixMoves_eq] at target
  rw [right, rightAutomaton, suffixClasses, suffixMoves_eq]
  exact Dfa.follow_ofExploration suffixKey_injective bounded_none target
    (fun _ => suffixKey_mem_suffixKeys) length_suffixKeys.le
    (fun k c => lookup_filterMap_symbols fun _ => rfl) w.reverse

/-- Every right state stands for the class of some suffix. -/
theorem exists_suffix (h : m.IsClass symbols r k) : ∃ w, m.classOf symbols w = some k := by
  have hmem := List.mem_of_getElem? (isClass_iff.mp h)
  rw [suffixClasses, suffixMoves_eq] at hmem
  obtain ⟨w, hw⟩ := Dfa.exists_follow_of_mem_foundFrom (δ := m.lengthen symbols)
    (fun k c k' hk => by
      obtain ⟨hc, hlonger⟩ := (mem_filterMap_symbols fun _ => rfl).mp hk
      rw [lengthen, if_pos hc, hlonger]) hmem
  exact ⟨w.reverse, by rw [classOf, List.reverse_reverse, hw]⟩

theorem isClass_zero : m.IsClass symbols 0 none :=
  Dfa.standsFor_root (Nat.succ_pos _)

theorem isClass_zero_iff : m.IsClass symbols 0 k ↔ k = none := by
  constructor
  · intro h
    have h := isClass_iff.mp h
    rw [isClass_iff.mp isClass_zero] at h
    exact (congrArg Prod.fst (Option.some.inj h)).symm
  · rintro rfl
    exact isClass_zero

/-- A right state accepts when an initial state completes the suffixes of its class. -/
theorem isAccepting_right (h : m.IsClass symbols r k) :
    (m.right symbols).isAccepting r = true ↔ ∃ q, m.isInitial q = true ∧ q ∈ m.completing k := by
  rw [right, rightAutomaton, Dfa.isAccepting_ofExploration (isClass_iff.mp h), StateSet.meets_iff]
  simp only [StateSet.mem_ofList, mem_initialStates]
  exact exists_congr fun q => and_comm

theorem wellFormed_right (hsymbols : symbols.Pairwise (· < ·)) : (m.right symbols).WellFormed := by
  rw [right, rightAutomaton, suffixClasses, suffixMoves_eq]
  exact Dfa.wellFormed_ofExploration (Nat.succ_pos _) fun k =>
    pairwise_filterMap_symbols (fun _ => rfl) hsymbols

end Transduction.RealTime
