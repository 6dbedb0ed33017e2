/-
Sets of states as bit masks.

A set of states is the number whose binary digit `q` is one exactly when `q`
is a member.  Equal sets are therefore equal numbers, and the subsets of
`0, …, n - 1` are the numbers below `2 ^ n`:

* `StateSet.ext` — sets with the same members are equal;
* `StateSet.mem_insert`, `StateSet.mem_union`, `StateSet.mem_ofList` — the
  members of the sets the library builds;
* `StateSet.mem_toList` — `toList` lists the members, in ascending order;
* `StateSet.bits_lt` — a set of states below `n` is one of `2 ^ n` masks.
-/
import Transduction.Order

namespace Transduction

/-- A finite set of states, one binary digit a state. -/
structure StateSet where
  bits : Nat
deriving DecidableEq, Repr

namespace StateSet

/-- Whether a state belongs to the set. -/
def contains (s : StateSet) (q : Nat) : Bool := s.bits.testBit q

instance : Membership Nat StateSet := ⟨fun s q => s.contains q = true⟩

instance (s : StateSet) (q : Nat) : Decidable (q ∈ s) :=
  inferInstanceAs (Decidable (s.contains q = true))

/-- The set without members. -/
def empty : StateSet := ⟨0⟩

def isEmpty (s : StateSet) : Bool := s.bits == 0

/-- The set with one more member. -/
def insert (s : StateSet) (q : Nat) : StateSet := ⟨s.bits ||| 2 ^ q⟩

/-- The set with one member less. -/
def erase (s : StateSet) (q : Nat) : StateSet :=
  if s.contains q then ⟨s.bits ^^^ 2 ^ q⟩ else s

def union (s t : StateSet) : StateSet := ⟨s.bits ||| t.bits⟩

/-- Whether two sets share a member. -/
def meets (s t : StateSet) : Bool := s.bits &&& t.bits != 0

def ofList (qs : List Nat) : StateSet := qs.foldl insert empty

/-- The positions of the ones among the lowest `2 ^ depth` digits of a number, in
ascending order and counted from `offset`.  Halves without a one are passed
over at once, so a set costs little more than its members. -/
def ones : Nat → Nat → Nat → List Nat
  | 0, offset, bits => if bits.testBit 0 then [offset] else []
  | depth + 1, offset, bits =>
    if bits = 0 then []
    else
      ones depth offset (bits % 2 ^ 2 ^ depth)
        ++ ones depth (offset + 2 ^ depth) (bits >>> 2 ^ depth)

/-- The members in ascending order. -/
def toList (s : StateSet) : List Nat := ones ((s.bits.log2 + 1).log2 + 1) 0 s.bits

theorem mem_def {s : StateSet} {q : Nat} : q ∈ s ↔ s.contains q = true := Iff.rfl

@[ext] theorem ext {s t : StateSet} (h : ∀ q, q ∈ s ↔ q ∈ t) : s = t := by
  obtain ⟨a⟩ := s
  obtain ⟨b⟩ := t
  congr 1
  exact Nat.eq_of_testBit_eq fun q => Bool.eq_iff_iff.mpr (h q)

@[simp] theorem not_mem_empty (q : Nat) : q ∉ empty := by
  simp [mem_def, contains, empty]

@[simp] theorem mem_insert {s : StateSet} {q r : Nat} : r ∈ s.insert q ↔ r = q ∨ r ∈ s := by
  simp only [mem_def, contains, insert, Nat.testBit_or, Bool.or_eq_true, Nat.testBit_two_pow]
  grind

@[simp] theorem mem_erase {s : StateSet} {q r : Nat} : r ∈ s.erase q ↔ r ≠ q ∧ r ∈ s := by
  unfold erase
  split
  · simp only [mem_def, contains, Nat.testBit_xor, Nat.testBit_two_pow] at *
    grind
  · simp only [mem_def] at *
    grind

@[simp] theorem mem_union {s t : StateSet} {q : Nat} : q ∈ s.union t ↔ q ∈ s ∨ q ∈ t := by
  simp [mem_def, contains, union]

theorem mem_foldl_insert {qs : List Nat} {s : StateSet} {r : Nat} :
    r ∈ qs.foldl insert s ↔ r ∈ qs ∨ r ∈ s := by
  induction qs generalizing s with
  | nil => simp
  | cons q qs ih => simp only [List.foldl_cons, ih, mem_insert, List.mem_cons]; grind

@[simp] theorem mem_ofList {qs : List Nat} {r : Nat} : r ∈ ofList qs ↔ r ∈ qs := by
  simp [ofList, mem_foldl_insert]

theorem isEmpty_iff {s : StateSet} : s.isEmpty = true ↔ ∀ q, q ∉ s := by
  constructor
  · intro h q
    have hs : s = empty := by cases s; simp_all [isEmpty, empty]
    simp [hs]
  · intro h
    have hs : s = empty := ext fun q => by simp [h q]
    simp [hs, isEmpty, empty]

theorem meets_iff {s t : StateSet} : s.meets t = true ↔ ∃ q, q ∈ s ∧ q ∈ t := by
  have key : (∀ q, ¬(q ∈ s ∧ q ∈ t)) ↔ s.bits &&& t.bits = 0 := by
    rw [Nat.eq_iff_testBit_eq]
    simp only [mem_def, contains, Nat.testBit_and, Nat.zero_testBit]
    grind
  simp only [meets, bne_iff_ne, ne_eq, ← key]
  grind

theorem mem_ones {depth offset bits q : Nat} :
    q ∈ ones depth offset bits ↔
      offset ≤ q ∧ q < offset + 2 ^ depth ∧ bits.testBit (q - offset) = true := by
  induction depth generalizing offset bits with
  | zero =>
    simp only [ones]
    split
    · rename_i h
      simp only [List.mem_singleton]
      constructor
      · rintro rfl; simpa using h
      · rintro ⟨h1, h2, _⟩; omega
    · rename_i h
      simp only [List.not_mem_nil, false_iff]
      rintro ⟨h1, h2, h3⟩
      have : q - offset = 0 := by omega
      exact h (this ▸ h3)
  | succ depth ih =>
    have hp : 2 ^ (depth + 1) = 2 ^ depth + 2 ^ depth := by omega
    simp only [ones]
    split
    · rename_i h
      simp [h]
    · simp only [List.mem_append, ih, Nat.testBit_mod_two_pow, Nat.testBit_shiftRight,
        Bool.and_eq_true, decide_eq_true_eq]
      -- the lower half holds the positions up to `2 ^ depth`, the upper half the others
      constructor
      · rintro (⟨h1, h2, h3, h4⟩ | ⟨h1, h2, h3⟩)
        · exact ⟨h1, by omega, h4⟩
        · refine ⟨by omega, by omega, ?_⟩
          have : 2 ^ depth + (q - (offset + 2 ^ depth)) = q - offset := by omega
          exact this ▸ h3
      · rintro ⟨h1, h2, h3⟩
        by_cases hlt : q - offset < 2 ^ depth
        · exact Or.inl ⟨h1, by omega, hlt, h3⟩
        · refine Or.inr ⟨by omega, by omega, ?_⟩
          have : 2 ^ depth + (q - (offset + 2 ^ depth)) = q - offset := by omega
          exact this ▸ h3

theorem mem_toList {s : StateSet} {q : Nat} : q ∈ s.toList ↔ q ∈ s := by
  simp only [toList, mem_ones, mem_def, contains, Nat.zero_le, Nat.zero_add, Nat.sub_zero,
    true_and, and_iff_right_iff_imp]
  intro h
  have h0 : s.bits ≠ 0 := by rintro h0; simp [h0] at h
  -- a member is at most the logarithm of the mask, and the depth covers that
  have hq : 2 ^ q ≤ s.bits := Nat.ge_two_pow_of_testBit h
  have hlog : q ≤ s.bits.log2 := (Nat.le_log2 h0).mpr hq
  have := Nat.lt_log2_self (n := s.bits.log2 + 1)
  omega

theorem bits_lt {s : StateSet} {n : Nat} : s.bits < 2 ^ n ↔ ∀ q ∈ s, q < n := by
  constructor
  · intro h q hq
    apply Decidable.byContradiction
    intro hn
    have : 2 ^ q ≤ s.bits := Nat.ge_two_pow_of_testBit hq
    have : 2 ^ n ≤ 2 ^ q := Nat.pow_le_pow_right (by omega) (by omega)
    omega
  · intro h
    refine Nat.lt_pow_two_of_testBit _ fun i hi => ?_
    apply Bool.eq_false_iff.mpr
    intro hb
    have := h i hb
    omega

end StateSet

end Transduction
