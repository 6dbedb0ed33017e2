/-
Recognition of words.

The simulation keeps the set of the states in which a machine can be.  That set holds
the ends of the runs that read the word so far, so a word is recognized when some run
on it ends in an accepting state:

* `Machine.Spells`, `Machine.spells_concat_iff` — labels that read a word;
* `Machine.Arrives` — some run on the word ends in the state;
* `Machine.mem_current` — the set after a word, symbol by symbol;
* `Machine.recognizes_iff` — the words that the simulation recognizes;
* `Acceptor.recognizes_iff` — acceptors recognize what they accept.
-/
import Transduction.Proofs.Subsets

namespace Transduction

namespace Machine

variable {L : Type} {m : Machine L} {silent : L → Bool} {reads : L → Char → Bool}
  {ls : List L} {c : Char} {w : Word} {p q : Nat}

/-! ### Labels that read a word -/

/-- The labels read the word: a silent label reads nothing, any other label one symbol. -/
inductive Spells (silent : L → Bool) (reads : L → Char → Bool) : List L → Word → Prop where
  | nil : Spells silent reads [] []
  | pass {l : L} {ls : List L} {w : Word} :
      silent l = true → Spells silent reads ls w → Spells silent reads (l :: ls) w
  | read {l : L} {ls : List L} {c : Char} {w : Word} :
      reads l c = true → Spells silent reads ls w → Spells silent reads (l :: ls) (c :: w)

theorem spells_nil_iff : Spells silent reads ls [] ↔ ∀ l ∈ ls, silent l = true := by
  induction ls with
  | nil => exact iff_of_true .nil fun l hl => absurd hl List.not_mem_nil
  | cons l ls ih =>
    rw [List.forall_mem_cons, ← ih]
    constructor
    · intro h
      cases h with
      | pass hl h => exact ⟨hl, h⟩
    · intro h
      exact .pass h.1 h.2

theorem Spells.append {more : List L} {v : Word} (h : Spells silent reads ls w)
    (h' : Spells silent reads more v) : Spells silent reads (ls ++ more) (w ++ v) := by
  induction h with
  | nil => exact h'
  | pass hl _ ih => exact .pass hl ih
  | read hl _ ih => exact .read hl ih

/-- One symbol more is read by a label of its own, with silent labels behind it. -/
theorem spells_concat_iff : Spells silent reads ls (w ++ [c]) ↔
    ∃ front l back, ls = front ++ l :: back ∧ Spells silent reads front w ∧ reads l c = true ∧
      ∀ k ∈ back, silent k = true := by
  constructor
  · intro h
    -- The last symbol is read by one label, behind which all are silent.
    generalize hv : w ++ [c] = v at h
    induction h generalizing w with
    | nil => exact absurd hv (by simp)
    | @pass l ls v hl _ ih =>
      obtain ⟨front, k, back, rfl, hfront, hk, hback⟩ := ih hv
      exact ⟨l :: front, k, back, rfl, .pass hl hfront, hk, hback⟩
    | @read l ls d v hl hrest ih =>
      cases w with
      | nil =>
        obtain ⟨rfl, rfl⟩ := List.cons.inj hv
        exact ⟨[], l, ls, rfl, .nil, hl, spells_nil_iff.mp hrest⟩
      | cons e w =>
        obtain ⟨rfl, rfl⟩ := List.cons.inj hv
        obtain ⟨front, k, back, rfl, hfront, hk, hback⟩ := ih rfl
        exact ⟨l :: front, k, back, rfl, .read hl hfront, hk, hback⟩
  · intro h
    obtain ⟨front, l, back, rfl, hfront, hl, hback⟩ := h
    exact hfront.append (.read hl (spells_nil_iff.mpr hback))

/-! ### The states in which a machine can be -/

/-- Some run from an initial state reads the word and ends in the state. -/
def Arrives (silent : L → Bool) (reads : L → Char → Bool) (m : Machine L) (w : Word) (q : Nat) :
    Prop :=
  ∃ p ls, m.isInitial p = true ∧ Path m.moves p ls q ∧ Spells silent reads ls w

/-- A run that reads one symbol more splits into a run up to that symbol, the move that
reads it, and silent moves. -/
theorem arrives_concat_iff : m.Arrives silent reads (w ++ [c]) q ↔
    ∃ p l t ls, m.Arrives silent reads w p ∧ (l, t) ∈ m.moves p ∧ reads l c = true ∧
      Path m.moves t ls q ∧ ∀ k ∈ ls, silent k = true := by
  constructor
  · intro h
    obtain ⟨p₀, ls, hp₀, hpath, hspells⟩ := h
    obtain ⟨front, l, back, rfl, hfront, hl, hback⟩ := spells_concat_iff.mp hspells
    obtain ⟨p, hpath₁, hpath⟩ := path_append_iff.mp hpath
    obtain ⟨t, hmove, hpath₂⟩ := path_cons_iff.mp hpath
    exact ⟨p, l, t, back, ⟨p₀, front, hp₀, hpath₁, hfront⟩, hmove, hl, hpath₂, hback⟩
  · intro h
    obtain ⟨p, l, t, back, ⟨p₀, front, hp₀, hpath, hfront⟩, hmove, hl, hpath', hback⟩ := h
    exact ⟨p₀, front ++ l :: back, hp₀, hpath.append (.cons hmove hpath'),
      spells_concat_iff.mpr ⟨front, l, back, rfl, hfront, hl, hback⟩⟩

/-- The set that the simulation keeps after a word. -/
def current (silent : L → Bool) (reads : L → Char → Bool) (m : Machine L) (w : Word) : StateSet :=
  w.foldl (fun s c => closeUnder (m.silentClosures silent) (m.advance reads s c))
    (m.startSet silent)

theorem current_concat : m.current silent reads (w ++ [c]) =
    closeUnder (m.silentClosures silent) (m.advance reads (m.current silent reads w) c) := by
  rw [current, List.foldl_append]
  rfl

section closed

variable (hm : m.Closed)

include hm

/-- The set after a word holds the ends of the runs that read the word. -/
theorem mem_current : q ∈ m.current silent reads w ↔ m.Arrives silent reads w q := by
  -- The set is built from the left, so the word is taken apart at its end.
  induction w using List.reverseRecOn generalizing q with
  | nil =>
    have initial_lt : ∀ p ∈ StateSet.ofList m.initialStates, p < m.size := by
      intro p hp
      exact lt_size_of_mem_initialStates (StateSet.mem_ofList.mp hp)
    show q ∈ m.startSet silent ↔ _
    rw [startSet, mem_closeUnder_silentClosures hm initial_lt]
    simp only [StateSet.mem_ofList, mem_initialStates, Arrives, spells_nil_iff]
    exact exists_congr fun p => exists_and_left.symm
  | append_singleton w c ih =>
    rw [current_concat, mem_closeUnder_silentClosures hm fun _ => lt_size_of_mem_advance hm,
      arrives_concat_iff]
    simp only [mem_advance, ih]
    constructor
    · intro h
      obtain ⟨t, ⟨p, hp, l, hmove, hl⟩, ls, hpath, hls⟩ := h
      exact ⟨p, l, t, ls, hp, hmove, hl, hpath, hls⟩
    · intro h
      obtain ⟨p, l, t, ls, hp, hmove, hl, hpath, hls⟩ := h
      exact ⟨t, ⟨p, hp, l, hmove, hl⟩, ls, hpath, hls⟩

/-- A word is recognized when some run on it ends in an accepting state. -/
theorem recognizes_iff : m.recognizes silent reads w = true ↔
    ∃ q, m.Arrives silent reads w q ∧ m.isAccepting q = true := by
  show ((m.current silent reads w).toList.any m.isAccepting) = true ↔ _
  simp only [List.any_eq_true, StateSet.mem_toList, mem_current hm]

end closed

end Machine

/-! ### Acceptors -/

namespace Acceptor

variable {a : Acceptor} {ls : List (Option Char)} {w : Word} {q : Nat}

/-- The labels of an acceptor read the symbols they carry. -/
theorem spells_iff : Machine.Spells Option.isNone reads ls w ↔ ls.filterMap id = w := by
  constructor
  · intro h
    induction h with
    | nil => rfl
    | @pass l ls w hl _ ih =>
      obtain rfl := Option.isNone_iff_eq_none.mp hl
      exact ih
    | @read l ls c w hl _ ih =>
      obtain rfl : l = some c := beq_iff_eq.mp hl
      exact congrArg (c :: ·) ih
  · rintro rfl
    induction ls with
    | nil => exact .nil
    | cons l ls ih =>
      cases l with
      | none => exact .pass rfl ih
      | some c => exact .read (beq_iff_eq.mpr rfl) ih

theorem arrives_iff_reaches :
    Machine.Arrives Option.isNone reads a w q ↔ a.Reaches w q := by
  simp only [Machine.Arrives, Reaches, spells_iff]

/-- An acceptor recognizes the words that it accepts. -/
theorem recognizes_iff (ha : a.Closed) : a.recognizes w = true ↔ a.Accepts w := by
  rw [recognizes, Machine.recognizes_iff ha, accepts_iff_reaches]
  simp only [arrives_iff_reaches]

end Acceptor

end Transduction
