/-
Runs of a machine, and what they read and write.

A run is a chain of moves.  It is what the words and relations of a machine are
defined by, independently of the sets and searches with which they are computed:

* `Machine.Run m p steps q` — the steps lead from `p` to `q`;
* `Machine.Accepted m p steps` — the steps lead from the initial state `p` to an
  accepting state;
* `Acceptor.Accepts`, `RangeAcceptor.Accepts` — some accepted run reads the word;
* `Transducer.Relates` — some accepted run reads the one word and writes the
  other.

Runs of two pieces are runs of the whole (`Run.append`), and a run over two
pieces splits at some state (`run_append_iff`).
-/
import Transduction.RangeAcceptor
import Transduction.Transducer.Basic

namespace Transduction

namespace Machine

variable {L : Type}

/-- The steps, as pairs of a label and a target, lead from one state to another. -/
inductive Run (m : Machine L) : Nat → List (L × Nat) → Nat → Prop where
  | nil (q : Nat) : Run m q [] q
  | cons {p q r : Nat} {l : L} {steps : List (L × Nat)} :
      (l, q) ∈ m.moves p → Run m q steps r → Run m p ((l, q) :: steps) r

/-- The steps lead from an initial state to an accepting one. -/
def Accepted (m : Machine L) (p : Nat) (steps : List (L × Nat)) : Prop :=
  m.isInitial p = true ∧ ∃ q, m.Run p steps q ∧ m.isAccepting q = true

@[simp] theorem run_nil_iff {m : Machine L} {p q : Nat} : m.Run p [] q ↔ p = q := by
  constructor
  · rintro ⟨⟩; rfl
  · rintro rfl; exact .nil p

@[simp] theorem run_cons_iff {m : Machine L} {p t r : Nat} {l : L} {steps : List (L × Nat)} :
    m.Run p ((l, t) :: steps) r ↔ (l, t) ∈ m.moves p ∧ m.Run t steps r := by
  constructor
  · rintro ⟨⟩; exact ⟨by assumption, by assumption⟩
  · rintro ⟨h, hr⟩; exact .cons h hr

theorem run_append_iff {m : Machine L} {p r : Nat} {steps more : List (L × Nat)} :
    m.Run p (steps ++ more) r ↔ ∃ q, m.Run p steps q ∧ m.Run q more r := by
  induction steps generalizing p with
  | nil => simp
  | cons step steps ih =>
    obtain ⟨l, t⟩ := step
    simp only [List.cons_append, run_cons_iff, ih]
    constructor
    · rintro ⟨h, q, h1, h2⟩; exact ⟨q, ⟨h, h1⟩, h2⟩
    · rintro ⟨q, ⟨h, h1⟩, h2⟩; exact ⟨h, q, h1, h2⟩

theorem Run.append {m : Machine L} {p q r : Nat} {steps more : List (L × Nat)}
    (h : m.Run p steps q) (h' : m.Run q more r) : m.Run p (steps ++ more) r :=
  run_append_iff.mpr ⟨q, h, h'⟩

end Machine

/-- The word that a list of symbol labels reads. -/
def Acceptor.wordOf (steps : List (Option Char × Nat)) : Word := steps.filterMap (·.1)

/-- Some run from an initial to an accepting state reads the word. -/
def Acceptor.Accepts (a : Acceptor) (w : Word) : Prop :=
  ∃ p steps, Machine.Accepted a p steps ∧ wordOf steps = w

/-- The steps read the word, each symbol inside the range of its step. -/
inductive RangeAcceptor.Reads : List (Option (Char × Char) × Nat) → Word → Prop where
  | nil : Reads [] []
  | silent {t : Nat} {steps : List (Option (Char × Char) × Nat)} {w : Word} :
      Reads steps w → Reads ((none, t) :: steps) w
  | symbol {range : Char × Char} {t : Nat} {steps : List (Option (Char × Char) × Nat)} {c : Char}
      {w : Word} : holds range c = true → Reads steps w → Reads ((some range, t) :: steps) (c :: w)

/-- Some run from an initial to an accepting state reads the word. -/
def RangeAcceptor.Accepts (a : RangeAcceptor) (w : Word) : Prop :=
  ∃ p steps, Machine.Accepted a p steps ∧ Reads steps w

/-- The word that steps read. -/
def Transducer.inputOf (steps : List ((Option Char × Word) × Nat)) : Word :=
  steps.filterMap (·.1.1)

/-- The word that steps write. -/
def Transducer.outputOf (steps : List ((Option Char × Word) × Nat)) : Word :=
  steps.flatMap (·.1.2)

/-- Some run from an initial to an accepting state reads `x` and writes `y`. -/
def Transducer.Relates (m : Transducer) (x y : Word) : Prop :=
  ∃ p steps, Machine.Accepted m p steps ∧ inputOf steps = x ∧ outputOf steps = y

end Transduction
